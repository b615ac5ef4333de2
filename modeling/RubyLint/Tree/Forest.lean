import RubyLint.Tree.Document

/-!
# Building trees by hand

A forest is the record of everything that was built so far.  Building a node claims its children one
after the other; a child that already belongs to a parent stops the construction, and the children
before it stay claimed by the node that never came to be.  Attaching a root to a text binds every
node below it to the new document.
-/

namespace RubyLint

/-- A node of a forest, by the order of construction. -/
abbrev NodeId := Nat

/-- What is known about one constructed node.  `complete` is false for a node whose construction
stopped at one of its children. -/
structure NodeEntry where
  kind : String
  start : Nat
  stop : Nat
  named : Bool
  field : Option String
  children : List NodeId
  parent : Option NodeId
  index : Nat
  document : Option Nat
  complete : Bool
deriving Inhabited

/-- Everything built so far. -/
structure Forest where
  nodes : List NodeEntry
  documents : List Source

namespace Forest

def empty : Forest :=
  ⟨[], []⟩

def entry (f : Forest) (id : NodeId) : NodeEntry :=
  f.nodes.getD id default

def label (f : Forest) (id : NodeId) : String :=
  Node.label (f.entry id).kind (f.entry id).start (f.entry id).stop

def modify (f : Forest) (id : NodeId) (change : NodeEntry → NodeEntry) : Forest :=
  { f with nodes := f.nodes.modify id change }

/-- Gives children to a parent from left to right, starting at a sibling index. -/
def claim (f : Forest) (parent : NodeId) (index : Nat) :
    List NodeId → Forest × Except TreeFault Unit
  | [] => (f, .ok ())
  | child :: rest =>
    match (f.entry child).parent with
    | some owner => (f, .error (.alreadyOwned (f.label child) (f.label owner)))
    | none =>
      (f.modify child fun e => { e with parent := some parent, index }).claim parent
        (index + 1) rest

def build (f : Forest) (kind : String) (start stop : Int) (children : List NodeId) (named : Bool)
    (field : Option String) : Forest × Except TreeFault NodeId :=
  if start < 0 ∨ stop < start then (f, .error (.invalidRange kind start stop))
  else
    let id := f.nodes.length
    let fresh : NodeEntry :=
      ⟨kind, start.toNat, stop.toNat, named, field, children, none, 0, none, false⟩
    match ({ f with nodes := f.nodes ++ [fresh] } : Forest).claim id 0 children with
    | (claimed, .error fault) => (claimed, .error fault)
    | (claimed, .ok ()) => (claimed.modify id fun e => { e with complete := true }, .ok id)

/-- A node and what lies below it, down to a number of levels, each node before its children. -/
def levels (f : Forest) : Nat → NodeId → List NodeId
  | 0, _ => []
  | count + 1, id => id :: (f.entry id).children.flatMap (f.levels count)

/-- A node and everything below it.  Children exist before the node over them, so there are no more
levels than nodes up to this one. -/
def below (f : Forest) (id : NodeId) : List NodeId :=
  f.levels (id + 1) id

def attach (f : Forest) (path text : String) (root : NodeId) : Forest × Except TreeFault Nat :=
  let e := f.entry root
  let source := Source.ofText path text
  if e.parent.isSome then (f, .error .rootHasParent)
  else if e.document.isSome then (f, .error .alreadyAttached)
  else if source.data.length < e.stop then (f, .error (.beyondText e.stop source.data.length))
  else
    let number := f.documents.length
    let bound := (f.below root).foldl
      (fun (f : Forest) id => f.modify id fun e => { e with document := some number }) f
    ({ bound with documents := f.documents ++ [source] }, .ok number)

def source? (f : Forest) (id : NodeId) : Option Source :=
  (f.entry id).document.bind fun number => f.documents[number]?

/-- A node by itself, without its children. -/
def alone (f : Forest) (id : NodeId) : Node :=
  let e := f.entry id
  ⟨e.kind, e.start, e.stop, e.named, e.field, []⟩

/-- The text of a node; empty as long as it is bound to no document. -/
def textOf (f : Forest) (id : NodeId) : String :=
  match f.source? id with
  | none => ""
  | some source => source.slice (f.entry id).start (f.entry id).stop

def namedChildren (f : Forest) (id : NodeId) : List NodeId :=
  (f.entry id).children.filter fun child => (f.entry child).named

def valueOf (f : Forest) (id : NodeId) : Option String :=
  let e := f.entry id
  match Node.valueForm e.kind e.named e.children.isEmpty with
  | .whole => some (f.textOf id)
  | .symbol => some (Node.withoutColon (f.textOf id))
  | .content =>
    if (f.namedChildren id).all fun child => (f.entry child).kind == Node.contentKind then
      some (String.join ((f.namedChildren id).map f.textOf))
    else none
  | .absent => none

def firstNamed? (f : Forest) (candidates : List NodeId) : Option NodeId :=
  candidates.find? fun id => (f.entry id).named

def nextSibling? (f : Forest) (id : NodeId) : Option NodeId :=
  (f.entry id).parent.bind fun p =>
    f.firstNamed? ((f.entry p).children.drop ((f.entry id).index + 1))

def previousSibling? (f : Forest) (id : NodeId) : Option NodeId :=
  (f.entry id).parent.bind fun p =>
    f.firstNamed? ((f.entry p).children.take (f.entry id).index).reverse

end Forest

end RubyLint
