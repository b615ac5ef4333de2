import RubyLint.Number.Binary

/-!
# Decimal text of floating point numbers

The shortest text: the fewest digits that read back as the same number and, among those, the
nearest.  For each digit count the two decimals around the number are tested against the interval of
reals that round to it; the first count with a hit wins.  The fixed text rounds to a given number of
places, a half going to the even neighbour.
-/

namespace RubyLint.Number

def digitsOf (n : Nat) : List Char :=
  (toString n).toList

/-- The number `digits · 10 ^ exponent`, written with `count` digits. -/
structure Digits where
  digits : Nat
  count : Nat
  exponent : Int
deriving DecidableEq, Repr

def tenTo (n : Nat) : Nat :=
  Nat.pow 10 n

/-- The largest `e` with `10 ^ e ≤ numerator / denominator`, for a positive ratio. -/
def magnitude (numerator denominator : Nat) : Int :=
  if denominator ≤ numerator then ((digitsOf (numerator / denominator)).length : Int) - 1
  else -((digitsOf ((denominator - 1) / numerator)).length : Int)

/-- `n · 10 ^ e · scale` compared with whole numbers: the factor of `n` and of the other side. -/
def decimalScale (e : Int) : Nat × Nat :=
  if 0 ≤ e then (tenTo e.toNat, 1) else (1, tenTo (-e).toNat)

/-- The decimal with `count` digits nearest to a positive number, if it reads back as that
number. -/
def nearestWith (b : Binary) (count : Nat) : Option Digits :=
  let (numerator, denominator) := b.ratio
  let exponent := magnitude numerator denominator - count + 1
  let (up, down) := decimalScale exponent
  -- The number and its interval, in quarters of the mantissa's unit.
  let unit := numerator / b.mantissa
  let lowGap := if b.mantissa = 1 <<< 52 ∧ b.exponent ≠ -1074 then 1 else 2
  let low := 4 * numerator - lowGap * unit
  let high := 4 * numerator + 2 * unit
  let floor := numerator * down / (denominator * up)
  let within (d : Nat) : Bool :=
    let point := 4 * d * denominator * up
    if b.mantissa % 2 = 0 then low * down ≤ point ∧ point ≤ high * down
    else low * down < point ∧ point < high * down
  let below := numerator * down - floor * denominator * up
  let above := (floor + 1) * denominator * up - numerator * down
  let pick : Option Nat :=
    match within floor, within (floor + 1) with
    | true, true => some (if above < below then floor + 1 else floor)
    | true, false => some floor
    | false, true => some (floor + 1)
    | false, false => none
  pick.map fun d => ⟨d, count, exponent⟩

def shortest (b : Binary) : Digits :=
  ((List.range 17).findSome? fun n => nearestWith b (n + 1)).getD ⟨0, 1, 0⟩

def padZeros (width : Nat) (s : List Char) : List Char :=
  List.replicate (width - s.length) '0' ++ s

/-- The text of some digits: positional from `0.0001` up to below `10 ^ 16`, always with a point,
and with an exponent of at least two digits outside. -/
def Digits.text (d : Digits) : List Char :=
  let digits := digitsOf d.digits
  let point : Int := digits.length + d.exponent
  if -4 < point ∧ point ≤ 16 then
    if point ≤ 0 then '0' :: '.' :: List.replicate (-point).toNat '0' ++ digits
    else
      let n := point.toNat
      if digits.length ≤ n then digits ++ List.replicate (n - digits.length) '0' ++ ['.', '0']
      else digits.take n ++ '.' :: digits.drop n
  else
    let exponent := point - 1
    let mantissa := match digits with
      | first :: second :: rest => first :: '.' :: second :: rest
      | short => short
    mantissa ++ 'e' :: (if exponent < 0 then '-' else '+') ::
      padZeros 2 (digitsOf exponent.natAbs)

/-- The shortest text of the size of a number. -/
def shortBody (b : Binary) : List Char :=
  if b.mantissa = 0 then ['0', '.', '0'] else (shortest b).text

def floatText (x : Float) : String :=
  match read x with
  | .nan => "nan"
  | .infinite negative => if negative then "-inf" else "inf"
  | .finite b => String.ofList (if b.negative then '-' :: shortBody b else shortBody b)

/-- A quotient rounded to the nearest whole number, a half going to the even neighbour. -/
def roundDiv (numerator denominator : Nat) : Nat :=
  let quotient := numerator / denominator
  let twice := 2 * (numerator % denominator)
  if twice < denominator then quotient
  else if denominator < twice then quotient + 1
  else if quotient % 2 = 0 then quotient
  else quotient + 1

/-- The text of the size of a number with a fixed number of places. -/
def fixedBody (places : Nat) (b : Binary) : List Char :=
  let (numerator, denominator) := b.ratio
  let digits := padZeros (places + 1) (digitsOf (roundDiv (numerator * tenTo places) denominator))
  let front := digits.take (digits.length - places)
  if places = 0 then front else front ++ '.' :: digits.drop (digits.length - places)

end RubyLint.Number
