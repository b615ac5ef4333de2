import RubyLint.Yaml.Node
import RubyLint.Yaml.Typed

/-!
# Building values

The values of the nodes of a document.  A scalar is built when it is met.  A collection starts out
empty and waits for its turn to be filled; those that its parts start wait behind it.  So values are
built level by level, and the first fault in that order ends the work.

Before a mapping is filled, its merges are resolved: the entries of the mappings that it merges go
before its own, where later entries with an equal key win.  Resolving a merge, and meeting the key
of a default value, change the nodes for whoever comes to them later.
-/

namespace RubyLint.Yaml

/-- The kinds of collections. -/
inductive Form where
  | list
  | pairs
  | map
  | set
deriving DecidableEq, Repr

def Form.ofTag? : Tag → Option Form
  | .seq => some .list
  | .orderedMap | .pairs => some .pairs
  | .map => some .map
  | .set => some .set
  | _ => none

/-- What has been built for a node: a value, a collection that is not filled yet, or one whose parts
are the values of nodes. -/
inductive Built where
  | value (v : Value)
  | started (form : Form)
  | list (items : List Ref)
  | pairs (items : List (Ref × Ref))
  | map (entries : List (Value × Ref))
  | set (members : List Value)
deriving Inhabited

/-- A document at work: its nodes as they are now, what has been built, and the collections that
wait to be filled, the first one first. -/
structure Building where
  nodes : Array Node
  built : Array (Option Built)
  waiting : Array Ref := #[]

abbrev Build := StateT Building (Except Fault)

namespace Build

def node (ref : Ref) : Build Node := do
  return (← get).nodes.getD ref ⟨.null, .scalar ""⟩

def entries (ref : Ref) : Build (List (Ref × Ref)) := do
  match (← node ref).content with
  | .map entries => return entries
  | _ => return []

def change (ref : Ref) (f : Node → Node) : Build Unit :=
  modify fun b => { b with nodes := b.nodes.modify ref f }

/-- The text that a node stands for.  A mapping stands for the text under the key of its default
value. -/
def textOf : Nat → Ref → Build String
  | 0, _ => throw .malformed
  | fuel + 1, ref => do
    match (← node ref).content with
    | .scalar text => return text
    | .seq _ => throw .malformed
    | .map entries =>
      let nodes := (← get).nodes
      match entries.find? fun entry => nodes[entry.1]?.any (·.tag == .defaultKey) with
      | some (_, value) => textOf fuel value
      | none => throw .malformed

def keep (ref : Ref) (b : Built) : Build Unit :=
  modify fun s => { s with built := s.built.setIfInBounds ref (some b) }

/-- Builds the value of a node, or starts the collection that it is going to be. -/
def start (ref : Ref) : Build Unit := do
  let s ← get
  if (s.built.getD ref none).isNone then
    let n ← node ref
    match Form.ofTag? n.tag with
    | some form =>
      keep ref (.started form)
      modify fun s => { s with waiting := s.waiting.push ref }
    | none =>
      if !n.tag.isScalar then throw .malformed
      let text ← textOf (s.nodes.size + 1) ref
      let written := match n.content with | .scalar _ => true | _ => false
      keep ref (.value (← scalarValue n.tag written text))

/-- The value of a node that is to be a key; a collection cannot be one. -/
def key (ref : Ref) : Build Value := do
  start ref
  match (← get).built.getD ref none with
  | some (.value v) => return v
  | _ => throw .malformed

/-- The entries that a merge asks for: those of a mapping, or of the mappings of a sequence, the
last one first.  Their own merges are resolved before. -/
def merged (resolve : Ref → Build Unit) (ref : Ref) : Build (List (Ref × Ref)) := do
  match (← node ref).content with
  | .scalar _ => throw .malformed
  | .map _ =>
    resolve ref
    entries ref
  | .seq items =>
    let lists ← items.mapM fun item => do
      match (← node item).content with
      | .map _ =>
        resolve item
        entries item
      | _ => throw .malformed
    return lists.reverse.flatten

/-- One step along the entries of a mapping: a merge is taken out, and the key of a default value
becomes a text.  The result is the index to go on at and the entries merged so far. -/
def mergeStep (resolve : Ref → Build Unit) (ref : Ref) (place : Nat × List (Ref × Ref)) :
    Build (Nat × List (Ref × Ref)) := do
  let (index, sofar) := place
  let own ← entries ref
  match own[index]? with
  | none => return (index, sofar)
  | some (key, value) =>
    match (← node key).tag with
    | .merge =>
      change ref fun n => { n with content := .map (own.eraseIdx index) }
      return (index, sofar ++ (← merged resolve value))
    | .defaultKey =>
      change key fun n => { n with tag := .str }
      return (index + 1, sofar)
    | _ => return (index + 1, sofar)

/-- Resolves the merges of a mapping.  Every level of the recursion takes out a merge, so their
number bounds it. -/
def resolve : Nat → Ref → Build Unit
  | 0, _ => return
  | fuel + 1, ref => do
    let steps := List.range (← entries ref).length
    let (_, sofar) ← steps.foldlM (fun place _ => mergeStep (resolve fuel) ref place) (0, [])
    if !sofar.isEmpty then
      let own ← entries ref
      change ref fun n => { n with content := .map (sofar ++ own) }

/-- Sets a key of a mapping: an existing entry keeps its place and its key. -/
def setKey (entries : List (Value × Ref)) (key : Value) (value : Ref) : List (Value × Ref) :=
  match entries with
  | [] => [(key, value)]
  | (k, v) :: rest => if k.sameKey key then (k, value) :: rest else (k, v) :: setKey rest key value

def keyed (fuel : Nat) (ref : Ref) : Build (List (Value × Ref)) := do
  resolve fuel ref
  (← entries ref).foldlM (fun table (k, value) => do
    let key ← key k
    start value
    return setKey table key value) []

def pair (ref : Ref) : Build (Ref × Ref) := do
  match (← node ref).content with
  | .map [(key, value)] =>
    start key
    start value
    return (key, value)
  | _ => throw .malformed

/-- The number of places that a set of a size has: eight for up to four members, otherwise the next
power of two above twice their number. -/
def places (size : Nat) : Nat :=
  if size < 5 then 8 else 1 <<< (Nat.log2 (2 * size) + 1)

/-- The members of a set in the order in which they are listed: whole numbers by their place, which
is their remainder at division by the number of places. -/
def listed (members : List Value) : List Value :=
  let number? : Value → Option Int := fun | .int n => some n | _ => none
  let place (n : Int) : Int := n.emod (places members.length)
  match members.mapM number? with
  | some numbers => (numbers.mergeSort fun m n => place m ≤ place n).map .int
  | none => members

/-- Fills a collection; `fuel` bounds the depth of merges. -/
def fill (fuel : Nat) (ref : Ref) : Build Unit := do
  let content := (← node ref).content
  match (← get).built.getD ref none, content with
  | some (.started .list), .seq items =>
    items.forM start
    keep ref (.list items)
  | some (.started .pairs), .seq items => keep ref (.pairs (← items.mapM pair))
  | some (.started .map), .map _ => keep ref (.map (← keyed fuel ref))
  | some (.started .set), .map _ =>
    keep ref (.set (listed ((← keyed fuel ref).map (·.1))))
  | _, _ => throw .malformed

/-- Fills the collections that wait, from the given place of the line on. -/
def fillAll (depth : Nat) : Nat → Nat → Build Unit
  | 0, _ => return
  | fuel + 1, place => do
    match (← get).waiting[place]? with
    | none => return
    | some ref =>
      fill depth ref
      fillAll depth fuel (place + 1)

end Build

def Graph.entryCount (g : Graph) : Nat :=
  g.nodes.foldl (fun n node => match node.content with
    | .map entries => n + entries.length
    | _ => n) 0

/-- What is built for the nodes of a document.  No collection is filled twice, so the number of
nodes bounds the work. -/
def Graph.built (g : Graph) : Except Fault (Array (Option Built)) := do
  let start : Building := { nodes := g.nodes, built := Array.replicate g.nodes.size none }
  let build : Build Unit := do
    Build.start g.top
    Build.fillAll (g.entryCount + 1) (g.nodes.size + 1) 0
  return (← build.run start).2.built

/-- Takes the values of nodes together; the state has those that are complete. -/
abbrev Gather := StateM (Array (Option Value))

namespace Gather

/-- A collection together with the labels that it names.  If it names any, it lies on a way back to
itself and is a loop under its own number. -/
def close (ref : Ref) (v : Value) (names : List Ref) : Gather (Value × List Ref) := do
  if names.isEmpty then
    modify fun done => done.setIfInBounds ref (some v)
    return (v, [])
  let outside := names.eraseDups.filter (· != ref)
  let v := Value.loop ref v
  if outside.isEmpty then modify fun done => done.setIfInBounds ref (some v)
  return (v, outside)

/-- The value of a node inside the collections `around` it, and the labels that it names.  A node is
never around itself, so the number of nodes bounds the depth. -/
def value (built : Array (Option Built)) : Nat → List Ref → Ref → Gather (Value × List Ref)
  | 0, _, _ => return (.null, [])
  | fuel + 1, around, ref => do
    if around.contains ref then return (.again ref, [ref])
    if let some v := (← get).getD ref none then return (v, [])
    let inside := value built fuel (ref :: around)
    match built.getD ref none with
    | some (.value v) => return (v, [])
    | some (.list items) =>
      let parts ← items.mapM inside
      close ref (.list (parts.map (·.1))) (parts.flatMap (·.2))
    | some (.pairs items) =>
      let parts ← items.mapM fun (key, value) => do
        let (k, before) ← inside key
        let (v, after) ← inside value
        return (Value.pair k v, before ++ after)
      close ref (.list (parts.map (·.1))) (parts.flatMap (·.2))
    | some (.map entries) =>
      let parts ← entries.mapM fun (key, value) => do
        let (v, names) ← inside value
        return ((key, v), names)
      close ref (.map (parts.map (·.1))) (parts.flatMap (·.2))
    | some (.set members) => return (.set members, [])
    | _ => return (.null, [])

end Gather

def Graph.value (g : Graph) : Except Fault Value := do
  let built ← g.built
  let gather := Gather.value built (g.nodes.size + 1) [] g.top
  return (gather.run (Array.replicate g.nodes.size none)).1.1

/-- The value of the document of a source; the absent value if the source holds no document. -/
def Source.load (s : Source) : Except Fault Value := do
  match ← s.document with
  | none => return .null
  | some g => g.value

end RubyLint.Yaml
