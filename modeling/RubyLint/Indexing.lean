/-!
# Indexing from both ends

Positions in a sequence where a negative number counts back from the end, and half-open slices whose
ends are cut to the sequence.
-/

namespace RubyLint.Indexing

/-- The position that an index names in a sequence of the given length, if it names one. -/
def resolve? (length : Nat) (i : Int) : Option Nat :=
  let position := if i < 0 then i + length else i
  if 0 ≤ position ∧ position < length then some position.toNat else none

def get? {α : Type} (xs : List α) (i : Int) : Option α :=
  (resolve? xs.length i).bind fun position => xs[position]?

/-- The cut that a slice end makes in a sequence of the given length. -/
def cut (length : Nat) (i : Int) : Nat :=
  if i < 0 then (i + length).toNat else min i.toNat length

def slice {α : Type} (xs : List α) (start stop : Int) : List α :=
  let first := cut xs.length start
  (xs.drop first).take (cut xs.length stop - first)

def sliceTo {α : Type} (xs : List α) (stop : Int) : List α :=
  xs.take (cut xs.length stop)

end RubyLint.Indexing
