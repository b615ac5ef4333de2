import RubyLint.Number.Decimal

/-!
# Significant digits

Decimal text with a given number of significant digits, a half going to the even neighbour: with an
exponent always, or only where the number is very large or very small for its digits.
-/

namespace RubyLint.Number

/-- The decimal with a number of digits that is nearest to a number. -/
def rounded (b : Binary) (count : Nat) : Digits :=
  if b.mantissa = 0 then ⟨0, count, 1 - count⟩
  else
    let (numerator, denominator) := b.ratio
    let exponent := magnitude numerator denominator - count + 1
    let (up, down) := decimalScale exponent
    let digits := roundDiv (numerator * down) (denominator * up)
    if digits = tenTo count then ⟨tenTo (count - 1), count, exponent + 1⟩
    else ⟨digits, count, exponent⟩

def Digits.characters (d : Digits) : List Char :=
  padZeros d.count (digitsOf d.digits)

def Digits.lead (d : Digits) : Int :=
  d.exponent + d.count - 1

/-- A fraction after its point; without digits there is a point only if it is to be kept. -/
def fractionText (keepPoint : Bool) (fraction : List Char) : List Char :=
  if fraction.isEmpty && !keepPoint then [] else '.' :: fraction

/-- Digits, the first of which has the given exponent, with that exponent after them. -/
def withExponent (keepPoint : Bool) (lead : Int) (digits : List Char) : List Char :=
  digits.take 1 ++ fractionText keepPoint (digits.drop 1) ++
    'e' :: (if lead < 0 then '-' else '+') :: padZeros 2 (digitsOf lead.natAbs)

def exponentText (keepPoint : Bool) (places : Nat) (b : Binary) : List Char :=
  let d := rounded b (places + 1)
  withExponent keepPoint d.lead d.characters

/-- The text of a number with a number of significant digits, and an exponent if the number has more
places before the point than digits or more than three zeros after it.  Zeros at the end of the
fraction go unless they are to be kept; a text that is to have one place is never without, and has
an exponent where its digits leave no room for it. -/
def generalText (keepZeros onePlace : Bool) (count : Nat) (b : Binary) : List Char :=
  let count := max count 1
  let d := rounded b count
  let digits :=
    if keepZeros then d.characters
    else d.characters.take 1 ++ ((d.characters.drop 1).reverse.dropWhile (· == '0')).reverse
  let lead := d.lead
  let most : Int := if onePlace then count - 1 else count
  if lead < -4 ∨ most ≤ lead then withExponent keepZeros lead digits
  else if lead < 0 then
    '0' :: '.' :: List.replicate (-lead - 1).toNat '0' ++ digits
  else
    let n := lead.toNat + 1
    let fraction := digits.drop n
    let places := if fraction.isEmpty && onePlace then ['0'] else fraction
    digits.take n ++ List.replicate (n - digits.length) '0' ++ fractionText keepZeros places

end RubyLint.Number
