import RubyLint.Text.Class

/-!
# Reading numbers

Whole numbers in a base and floating point numbers from text.  Blanks around a number are ignored
and one sign is allowed.
-/

namespace RubyLint.Number

def digitIn? (base : Nat) (c : Char) : Option Nat :=
  let value := match Text.digitValue? c with
    | some d => some d
    | none =>
      let lower := c.toLower
      if 'a' ≤ lower && lower ≤ 'f' then some (lower.toNat - 87) else none
  value.filter (· < base)

/-- The value of digits of a base; there must be at least one. -/
def digitsIn? (base : Nat) (digits : List Char) : Option Nat :=
  if digits.isEmpty then none
  else
    digits.foldlM (fun n c => (digitIn? base c).map fun d => n * base + d) 0

/-- Splits a sign off the front of a text; the flag tells whether it is a minus. -/
def splitSign (s : List Char) : Bool × List Char :=
  match s with
  | '-' :: rest => (true, rest)
  | '+' :: rest => (false, rest)
  | s => (false, s)

/-- Drops the mark of a base that may stand before its digits. -/
def dropMark (base : Nat) (s : List Char) : List Char :=
  match s with
  | '0' :: mark :: rest =>
    if (base == 2 && mark.toLower == 'b') || (base == 8 && mark.toLower == 'o') ||
        (base == 16 && mark.toLower == 'x') then rest
    else s
  | s => s

/-- A whole number in a base.  In base ten it has a bounded number of digits. -/
def wholeIn? (base : Nat) (s : List Char) : Option Int :=
  let (negative, body) := splitSign (Text.trim s)
  if base == 10 && Text.digitLimit < body.length then none
  else (digitsIn? base (dropMark base body)).map fun n => if negative then -(n : Int) else n

/-- The floating point number `digits · 10 ^ exponent`.  Exponents beyond every floating point
number are not computed with. -/
def scaled (digits : Nat) (exponent : Int) : Float :=
  let size : Int := (toString digits).length + exponent
  if digits == 0 || size < -400 then 0
  else if 400 < size then 1 / 0
  else Float.ofScientific digits (exponent < 0) exponent.natAbs

def unsignedReal? (s : List Char) : Option Float :=
  let lower := s.map Char.toLower
  if lower == "inf".toList || lower == "infinity".toList then some (1 / 0)
  else if lower == "nan".toList then some (0 / 0)
  else
    let whole := s.takeWhile Text.isDigit
    let rest := s.drop whole.length
    let (fraction, rest) := match rest with
      | '.' :: rest => (rest.takeWhile Text.isDigit, rest.dropWhile Text.isDigit)
      | rest => ([], rest)
    match digitsIn? 10 (whole ++ fraction), rest with
    | none, _ => none
    | some n, [] => some (scaled n (-fraction.length))
    | some n, mark :: exponent =>
      if mark == 'e' || mark == 'E' then
        let (negative, digits) := splitSign exponent
        (digitsIn? 10 digits).map fun e =>
          scaled n ((if negative then -(e : Int) else e) - fraction.length)
      else none

def real? (s : List Char) : Option Float :=
  let (negative, body) := splitSign (Text.trim s)
  (unsignedReal? body).map fun x => if negative then -x else x

end RubyLint.Number
