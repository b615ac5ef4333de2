/-!
# Memory of rules

What the rules of this library remember between two calls on one document.
-/

namespace RubyLint

/-- An argument that a correction moves: the line and offset where it starts, and the number of
columns by which it moves. -/
structure Move where
  line : Nat
  start : Nat
  shift : Int
deriving DecidableEq, Repr

/-- Named counters, and the arguments moved so far, the latest first. -/
structure Memory where
  counts : List (String × Int) := []
  moved : List Move := []
deriving Inhabited

def Memory.count (m : Memory) (name : String) : Int :=
  (m.counts.lookup name).getD 0

def Memory.increment (m : Memory) (name : String) : Memory :=
  { m with counts := (name, m.count name + 1) :: m.counts.filter (·.1 != name) }

end RubyLint
