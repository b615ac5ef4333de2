import RubyLint.Tree.Document

/-!
# Parser trees

The tree that a parser answers with.  Its ranges are unchecked, and it marks the places where the
text did not follow the grammar.  It becomes a document when every range is in order; the positions
of its error and missing nodes go with it.
-/

namespace RubyLint

/-- A node as a parser reports it.  `row` and `column` are where it starts. -/
structure ParseTree where
  kind : String
  start : Int
  stop : Int
  named : Bool
  field : Option String
  children : List ParseTree
  isError : Bool
  isMissing : Bool
  row : Int
  column : Int
deriving Inhabited

namespace ParseTree

/-- Whether the node itself marks a fault of the text. -/
def isFault (t : ParseTree) : Bool :=
  t.isError || t.isMissing

mutual

/-- Whether the node or something below it marks a fault. -/
def hasFault : ParseTree → Bool
  | ⟨_, _, _, _, _, children, isError, isMissing, _, _⟩ =>
    isError || isMissing || anyFault children

def anyFault : List ParseTree → Bool
  | [] => false
  | t :: rest => t.hasFault || anyFault rest

end

mutual

def size : ParseTree → Nat
  | ⟨_, _, _, _, _, children, _, _, _, _⟩ => sizeAll children + 1

def sizeAll : List ParseTree → Nat
  | [] => 0
  | t :: rest => t.size + sizeAll rest

end

theorem size_eq (t : ParseTree) : t.size = sizeAll t.children + 1 := by
  cases t
  rw [size]

theorem sizeAll_append (xs ys : List ParseTree) : sizeAll (xs ++ ys) = sizeAll xs + sizeAll ys := by
  induction xs with
  | nil => simp [sizeAll]
  | cons x rest ih => simp [sizeAll, ih, Nat.add_assoc]

/-- The positions of the outermost faults of pending trees, in source order: lines from 1 and byte
columns from 0.  Nothing is reported below a fault, and trees without one are passed over. -/
def faultPositions : List ParseTree → List (Int × Int)
  | [] => []
  | t :: pending =>
    if t.isFault then (t.row + 1, t.column) :: faultPositions pending
    else if t.hasFault then faultPositions (t.children ++ pending)
    else faultPositions pending
termination_by pending => sizeAll pending
decreasing_by
  all_goals simp only [sizeAll_append, sizeAll, size_eq]; omega

mutual

/-- The node of a parser node.  Children are built before their parent and from left to right, so
the first range that is out of order in that sequence is the one reported. -/
def toNode : ParseTree → Except TreeFault Node
  | ⟨kind, start, stop, named, field, children, _, _, _, _⟩ => do
    let nodes ← toNodes children
    if start < 0 ∨ stop < start then throw (.invalidRange kind start stop)
    return ⟨kind, start.toNat, stop.toNat, named, field, nodes⟩

def toNodes : List ParseTree → Except TreeFault (List Node)
  | [] => return []
  | t :: rest => do
    let node ← t.toNode
    return node :: (← toNodes rest)

end

/-- A parser tree that has no field at its root. -/
def toRoot (t : ParseTree) : Except TreeFault Node :=
  { t with field := none }.toNode

end ParseTree

def Document.ofParse (path text : String) (tree : ParseTree) : Except TreeFault Document := do
  let document ← Document.attach path text (← tree.toRoot)
  return { document with faults := ParseTree.faultPositions [tree] }

end RubyLint
