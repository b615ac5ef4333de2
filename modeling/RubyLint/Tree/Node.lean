/-!
# Tree nodes

A node of a concrete tree of source code covers a range of bytes and owns its children: the named
nodes of the grammar and, between them, the anonymous tokens such as operators and keywords.  A
cursor is a node together with the way to it from the root; it answers the questions about parents
and siblings, and two cursors of one tree are the same place exactly when their paths agree.
-/

namespace RubyLint

/-- A node of a tree.  The range is half-open; `field` is the role it plays in its parent. -/
structure Node where
  kind : String
  start : Nat
  stop : Nat
  named : Bool
  field : Option String
  children : List Node
deriving Inhabited, Repr

namespace Node

mutual

def size : Node → Nat
  | ⟨_, _, _, _, _, children⟩ => sizeAll children + 1

def sizeAll : List Node → Nat
  | [] => 0
  | n :: rest => n.size + sizeAll rest

end

theorem size_eq (n : Node) : n.size = sizeAll n.children + 1 := by
  cases n
  rw [size]

theorem sizeAll_append (ms ns : List Node) : sizeAll (ms ++ ns) = sizeAll ms + sizeAll ns := by
  induction ms with
  | nil => simp [sizeAll]
  | cons m rest ih => simp [sizeAll, ih, Nat.add_assoc]

theorem size_le_sizeAll {n : Node} {ns : List Node} (h : n ∈ ns) : n.size ≤ sizeAll ns := by
  induction ns with
  | nil => simp at h
  | cons m rest ih =>
    rw [sizeAll]
    rcases List.mem_cons.1 h with rfl | member
    · omega
    · have := ih member
      omega

/-- The children that are nodes of the grammar. -/
def namedChildren (n : Node) : List Node :=
  n.children.filter (·.named)

/-- Whether the node plays a role; the empty role is no role. -/
def playsRole (n : Node) (role : String) : Bool :=
  role != "" && n.field == some role

def label (kind : String) (start stop : Int) : String :=
  s!"<Node {kind} [{start}, {stop})>"

end Node

/-- One step up: the parent and the index of the child in it. -/
structure Step where
  parent : Node
  index : Nat
deriving Inhabited

/-- A node and the way to it; the nearest step comes first. -/
structure Cursor where
  node : Node
  trail : List Step
deriving Inhabited

namespace Cursor

def root (n : Node) : Cursor :=
  ⟨n, []⟩

/-- The child indexes from the root down to the node. -/
def path (c : Cursor) : List Nat :=
  (c.trail.map (·.index)).reverse

def down (c : Cursor) (index : Nat) (child : Node) : Cursor :=
  ⟨child, ⟨c.node, index⟩ :: c.trail⟩

/-- The children, anonymous tokens included. -/
def children (c : Cursor) : List Cursor :=
  c.node.children.mapIdx c.down

def namedChildren (c : Cursor) : List Cursor :=
  c.children.filter (·.node.named)

/-- The parent; the root has none. -/
def parent? (c : Cursor) : Option Cursor :=
  match c.trail with
  | [] => none
  | step :: rest => some ⟨step.parent, rest⟩

/-- The index in the parent; 0 for the root. -/
def index (c : Cursor) : Nat :=
  match c.trail with
  | [] => 0
  | step :: _ => step.index

def isRoot (c : Cursor) : Bool :=
  c.trail.isEmpty

/-- The ancestors above a trail, the nearest first. -/
def ancestorsOf : List Step → List Cursor
  | [] => []
  | step :: rest => ⟨step.parent, rest⟩ :: ancestorsOf rest

/-- The ancestors, the nearest first and the root last. -/
def ancestors (c : Cursor) : List Cursor :=
  ancestorsOf c.trail

def role? (c : Cursor) (role : String) : Option Cursor :=
  c.children.find? (·.node.playsRole role)

def descend? (c : Cursor) : List Nat → Option Cursor
  | [] => some c
  | i :: rest =>
    match c.node.children[i]? with
    | none => none
    | some child => (c.down i child).descend? rest

def samePlace (a b : Cursor) : Bool :=
  a.path == b.path

/-- The named siblings, the node itself left out. -/
def siblings (c : Cursor) : List Cursor :=
  match c.parent? with
  | none => []
  | some p => p.namedChildren.filter fun sibling => !sibling.samePlace c

def nextSibling? (c : Cursor) : Option Cursor :=
  c.parent?.bind fun p => (p.children.drop (c.index + 1)).find? (·.node.named)

def previousSibling? (c : Cursor) : Option Cursor :=
  c.parent?.bind fun p => (p.children.take c.index).reverse.find? (·.node.named)

/-- The number of nodes below a list of cursors, these included. -/
def workload (pending : List Cursor) : Nat :=
  Node.sizeAll (pending.map (·.node))

theorem node_children (c : Cursor) : c.children.map (·.node) = c.node.children := by
  simp [children, down, List.mapIdx_eq_zipIdx_map, Function.comp_def]

theorem workload_children (c : Cursor) : workload c.children + 1 = c.node.size := by
  rw [workload, node_children, Node.size_eq]

theorem size_lt_of_mem_children {c child : Cursor} (h : child ∈ c.children) :
    child.node.size < c.node.size := by
  have member : child.node ∈ c.node.children := by
    rw [← node_children c]
    exact List.mem_map_of_mem h
  have bound := Node.size_le_sizeAll member
  rw [Node.size_eq c.node]
  omega

theorem size_lt_of_role? {c child : Cursor} {role : String} (h : c.role? role = some child) :
    child.node.size < c.node.size :=
  size_lt_of_mem_children (List.mem_of_find?_eq_some h)

/-- Visits pending cursors from the front; the children of a visited node come before what was
already pending. -/
def walk : List Cursor → List Cursor
  | [] => []
  | c :: pending => c :: walk (c.children ++ pending)
termination_by pending => workload pending
decreasing_by
  have h := workload_children c
  simp only [workload, List.map_append, Node.sizeAll_append, List.map_cons, Node.sizeAll] at h ⊢
  omega

/-- The node and everything below it, each node before its children and in source order. -/
def nodes (c : Cursor) : List Cursor :=
  walk [c]

/-- The nodes of `nodes` that satisfy a test. -/
def nodesWhere (c : Cursor) (test : Cursor → Bool) : List Cursor :=
  c.nodes.filter test

/-- The nodes below the node that satisfy a test, in the order of `nodes`.  The node itself is the
first one found if it satisfies the test. -/
def descendantsWhere (c : Cursor) (test : Cursor → Bool) : List Cursor :=
  if test c then (c.nodesWhere test).drop 1 else c.nodesWhere test

def descendants (c : Cursor) : List Cursor :=
  c.descendantsWhere fun _ => true

end Cursor

end RubyLint
