import RubyLint.Yaml.Scanner
import RubyLint.Yaml.Tag

/-!
# YAML nodes

The nodes of a YAML document.  Every node has the tag that it was given, or else the one that its
form suggests.  An alias is another way to the node of an anchor, which may be one around it, so
nodes are known by number: a collection lists the numbers of its parts.  A stream holds one document
at most.
-/

namespace RubyLint.Yaml

/-- The number of a node in its document. -/
abbrev Ref := Nat

/-- What a node holds. -/
inductive Content where
  | scalar (text : String)
  | seq (items : List Ref)
  | map (entries : List (Ref × Ref))
deriving Inhabited

structure Node where
  tag : Tag
  content : Content
deriving Inhabited

/-- A document: its nodes and the number of the one at the top. -/
structure Graph where
  nodes : Array Node
  top : Ref

/-- A document being read: the tokens ahead and the fault behind them, the nodes so far, the anchors
seen so far, and the tags that handles stand for. -/
structure Reading where
  tokens : List Token
  fault : Option Fault
  nodes : Array Node := #[]
  anchors : List (String × Ref) := []
  handles : List (String × String) := []

abbrev Read := StateT Reading (Except Fault)

namespace Read

/-- The next token.  A fault that stands in its place is raised. -/
def peek : Read Token := do
  let r ← get
  match r.tokens, r.fault with
  | t :: _, _ => return t
  | [], some fault => throw fault
  | [], none => return .streamEnd

def drop : Read Unit :=
  modify fun r => { r with tokens := r.tokens.tail }

def accept (t : Token) : Read Bool := do
  if (← peek) == t then drop; return true else return false

def isNext (ts : List Token) : Read Bool := do
  return ts.contains (← peek)

/-- Adds a node, under the name of its anchor if it has one. -/
def add (anchor : Option String) (n : Node) : Read Ref := do
  let r ← get
  let ref := r.nodes.size
  let anchors := match anchor with
    | none => r.anchors
    | some name => (name, ref) :: r.anchors
  set { r with nodes := r.nodes.push n, anchors }
  return ref

/-- Adds a node where nothing is written. -/
def nothing : Read Ref :=
  add none ⟨.null, .scalar ""⟩

/-- Adds a node where nothing is written, once it is known what follows. -/
def absent : Read Ref := do
  let _ ← peek
  nothing

def collection (anchor : Option String) (tag : Tag) (parts : Read Content) : Read Ref := do
  let ref ← add anchor ⟨tag, .seq []⟩
  let content ← parts
  modify fun r => { r with nodes := r.nodes.setIfInBounds ref ⟨tag, content⟩ }
  return ref

def properties : Nat → Option String → Option (Option String × String) →
    Read (Option String × Option (Option String × String))
  | 0, anchor, tag => return (anchor, tag)
  | n + 1, anchor, tag => do
    match ← peek with
    | .anchor name =>
      if anchor.isSome then return (anchor, tag) else drop; properties n (some name) tag
    | .tag handle suffix =>
      if tag.isSome then return (anchor, tag) else drop; properties n anchor (some (handle, suffix))
    | _ => return (anchor, tag)

/-- The full name of a tag; none if the form of the node decides. -/
def tagName (tag : Option (Option String × String)) : Read (Option String) := do
  match tag with
  | none => return none
  | some (none, suffix) => return if suffix == "!" then none else some suffix
  | some (some handle, suffix) =>
    match (← get).handles.lookup handle with
    | none => throw .malformed
    | some start =>
      let name := start ++ suffix
      return if name == "!" then none else some name

def tagOr (name : Option String) (suggested : Tag) : Tag :=
  (name.map Tag.ofName).getD suggested

def refuseKnown (anchor : Option String) : Read Unit := do
  if let some name := anchor then
    if ((← get).anchors.lookup name).isSome then throw .malformed

mutual

/-- Reads a node.  A block may stand here if `block` is set, and a sequence that is not indented if
`flush` is set. -/
def node (block flush : Bool) : Nat → Read Ref
  | 0 => throw .malformed
  | fuel + 1 => do
    if let .alias name ← peek then
      drop
      match (← get).anchors.lookup name with
      | none => throw .malformed
      | some ref => return ref
    let (anchor, tag) ← properties 2 none none
    let name ← tagName tag
    let next ← peek
    refuseKnown anchor
    let empty : Read Ref :=
      if anchor.isSome || tag.isSome then add anchor ⟨tagOr name .null, .scalar ""⟩
      else throw .malformed
    match next with
    | .scalar text plain =>
      drop
      let suggested := if plain || tag.isSome then plainTag text else .str
      add anchor ⟨tagOr name suggested, .scalar text⟩
    | .flowSequenceStart =>
      drop
      collection anchor (tagOr name .seq) (.seq <$> flowItems true fuel)
    | .flowMappingStart =>
      drop
      collection anchor (tagOr name .map) (.map <$> flowEntries true fuel)
    | .blockEntry =>
      if flush then collection anchor (tagOr name .seq) (.seq <$> flushItems fuel) else empty
    | .blockSequenceStart =>
      if block then
        drop
        collection anchor (tagOr name .seq) (.seq <$> blockItems fuel)
      else empty
    | .blockMappingStart =>
      if block then
        drop
        collection anchor (tagOr name .map) (.map <$> blockEntries fuel)
      else empty
    | _ => empty

def blockItems : Nat → Read (List Ref)
  | 0 => throw .malformed
  | fuel + 1 => do
    if ← accept .blockEntry then
      let n ← if ← isNext [.blockEntry, .blockEnd] then nothing else node true false fuel
      return n :: (← blockItems fuel)
    else if ← accept .blockEnd then return []
    else throw .malformed

def flushItems : Nat → Read (List Ref)
  | 0 => throw .malformed
  | fuel + 1 => do
    if ← accept .blockEntry then
      let n ←
        if ← isNext [.blockEntry, .key, .value, .blockEnd] then nothing
        else node true false fuel
      return n :: (← flushItems fuel)
    else return []

def blockEntries : Nat → Read (List (Ref × Ref))
  | 0 => throw .malformed
  | fuel + 1 => do
    if ← accept .key then
      let key ←
        if ← isNext [.key, .value, .blockEnd] then nothing else node true true fuel
      let value ← blockValue fuel
      return (key, value) :: (← blockEntries fuel)
    else if ← accept .blockEnd then return []
    else throw .malformed

def blockValue : Nat → Read Ref
  | 0 => throw .malformed
  | fuel + 1 => do
    if ← accept .value then
      if ← isNext [.key, .value, .blockEnd] then nothing else node true true fuel
    else nothing

/-- Reads the items of a sequence in brackets; a single entry may stand for a mapping. -/
def flowItems (first : Bool) : Nat → Read (List Ref)
  | 0 => throw .malformed
  | fuel + 1 => do
    if ← accept .flowSequenceEnd then return []
    if !first then
      if !(← accept .flowEntry) then throw .malformed
    if ← accept .flowSequenceEnd then return []
    if ← accept .key then
      let single ← collection none .map do
        let key ←
          if ← isNext [.value, .flowEntry, .flowSequenceEnd] then nothing
          else node false false fuel
        return .map [(key, ← flowValue .flowSequenceEnd fuel)]
      return single :: (← flowItems false fuel)
    else
      let n ← node false false fuel
      return n :: (← flowItems false fuel)

def flowEntries (first : Bool) : Nat → Read (List (Ref × Ref))
  | 0 => throw .malformed
  | fuel + 1 => do
    if ← accept .flowMappingEnd then return []
    if !first then
      if !(← accept .flowEntry) then throw .malformed
    if ← accept .flowMappingEnd then return []
    if ← accept .key then
      let key ←
        if ← isNext [.value, .flowEntry, .flowMappingEnd] then nothing
        else node false false fuel
      let value ← flowValue .flowMappingEnd fuel
      return (key, value) :: (← flowEntries false fuel)
    else
      let key ← node false false fuel
      let value ← absent
      return (key, value) :: (← flowEntries false fuel)

/-- Reads the value of an entry inside flow brackets that end with the given token. -/
def flowValue (last : Token) : Nat → Read Ref
  | 0 => throw .malformed
  | fuel + 1 => do
    if ← accept .value then
      if ← isNext [.flowEntry, last] then nothing else node false false fuel
    else nothing

end

def directives (version : Bool) : Nat → Read Unit
  | 0 => throw .malformed
  | fuel + 1 => do
    match ← peek with
    | .version major =>
      if version || major != 1 then throw .malformed
      drop
      directives true fuel
    | .tagHandle handle tag =>
      if ((← get).handles.lookup handle).isSome then throw .malformed
      modify fun r => { r with handles := (handle, tag) :: r.handles }
      drop
      directives version fuel
    | .directive =>
      drop
      directives version fuel
    | _ => return

/-- The tags that handles stand for unless a directive says otherwise. -/
def standardHandles : List (String × String) :=
  [("!", "!"), ("!!", Tag.core)]

def endMarkers : Nat → Read Unit
  | 0 => return
  | fuel + 1 => do if ← accept .documentEnd then endMarkers fuel

/-- Whether a directive or a document marker is next, or the stream ends. -/
def atBoundary : Read Bool := do
  match ← peek with
  | .version _ | .tagHandle _ _ | .directive | .documentStart | .streamEnd => return true
  | _ => return false

def header (fuel : Nat) : Read Unit := do
  modify fun r => { r with handles := [] }
  directives false fuel
  if !(← accept .documentStart) then throw .malformed
  modify fun r => { r with handles := r.handles ++ standardHandles }

/-- Reads a stream of at most one document. -/
def stream (fuel : Nat) : Read (Option Ref) := do
  let top ←
    if ← atBoundary then
      if ← isNext [.streamEnd] then return none
      header fuel
      if (← atBoundary) || (← isNext [.documentEnd]) then nothing else node true false fuel
    else
      modify fun r => { r with handles := standardHandles }
      node true false fuel
  endMarkers fuel
  if ← isNext [.streamEnd] then return some top
  header fuel
  throw .malformed

end Read

/-- The document of a source; none if the source holds none. -/
def Source.document (s : Source) : Except Fault (Option Graph) := do
  let tokens := s.tokens
  let start : Reading := ⟨tokens.list, tokens.fault, #[], [], []⟩
  let (top, r) ← (Read.stream (4 * tokens.list.length + 8)).run start
  return top.map fun top => ⟨r.nodes, top⟩

end RubyLint.Yaml
