/-!
# Binary numbers

A finite floating point number is a whole mantissa times a power of two.  This module takes a number
apart into those two parts, so that everything said about its decimal text is exact arithmetic on
whole numbers.
-/

namespace RubyLint.Number

/-- The number `± mantissa · 2 ^ exponent`. -/
structure Binary where
  negative : Bool
  mantissa : Nat
  exponent : Int
deriving DecidableEq, Repr

/-- What a floating point number is. -/
inductive Reading where
  | finite (value : Binary)
  | infinite (negative : Bool)
  | nan
deriving DecidableEq, Repr

def read (x : Float) : Reading :=
  let bits : Nat := x.toBits.toNat
  let negative := 1 <<< 63 ≤ bits
  let biased : Nat := (bits >>> 52) % 2048
  let fraction : Nat := bits % (1 <<< 52)
  if biased = 2047 then
    if fraction = 0 then .infinite negative else .nan
  else if biased = 0 then .finite ⟨negative, fraction, -1074⟩
  else .finite ⟨negative, 1 <<< 52 + fraction, (biased : Int) - 1075⟩

def Binary.ratio (b : Binary) : Nat × Nat :=
  if 0 ≤ b.exponent then (b.mantissa <<< b.exponent.toNat, 1)
  else (b.mantissa, 1 <<< (-b.exponent).toNat)

/-- The whole number that a floating point number equals, if it equals one. -/
def whole? (x : Float) : Option Int :=
  match read x with
  | .finite b =>
    let (numerator, denominator) := b.ratio
    if numerator % denominator = 0 then
      let n : Int := (numerator / denominator : Nat)
      some (if b.negative then -n else n)
    else none
  | _ => none

end RubyLint.Number
