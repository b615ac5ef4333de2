import RubyLint.Text.Utf8

/-!
# Edit scripts

Edits of one source, all given in the byte offsets of the unchanged text.  A script collects them
with their owners and checks them before anything is applied: every range must lie within the
source, a repeated replacement counts once, and no edit may touch the inside of another one's range.
Insertions at one offset keep the order in which they were added and come before a replacement that
starts there.
-/

namespace RubyLint

/-- Replaces the bytes of a half-open range by a text; an empty range is an insertion. -/
structure Edit where
  start : Int
  stop : Int
  replacement : String
deriving DecidableEq, Repr, Inhabited

namespace Edit

def isInsertion (e : Edit) : Bool :=
  e.start == e.stop

/-- Whether the range runs forward inside a source of the given number of bytes. -/
def isWithin (e : Edit) (size : Nat) : Bool :=
  0 ≤ e.start && e.start ≤ e.stop && e.stop ≤ size

def range (e : Edit) : String :=
  s!"[{e.start}, {e.stop})"

end Edit

/-- An edit and the rule that asked for it, if a rule did. -/
structure OwnedEdit where
  edit : Edit
  owner : Option String
deriving DecidableEq, Repr, Inhabited

/-- Why a script cannot be applied. -/
inductive EditFault where
  /-- An edit is inverted or leaves the source. -/
  | outside (edit : Edit) (size : Nat)
  /-- Two edits touch the same bytes. -/
  | conflict (first second : OwnedEdit)
deriving DecidableEq, Repr

/-- The name of an owner; an empty name is as good as none. -/
def OwnedEdit.ownerName (e : OwnedEdit) : Option String :=
  e.owner.filter (· != "")

def EditFault.message : EditFault → String
  | .outside edit size => s!"Edit {edit.range} is not within source of {size} bytes"
  | .conflict first second =>
    let owners :=
      if first.ownerName.isNone && second.ownerName.isNone then ""
      else " (from " ++ first.ownerName.getD "?" ++ " and " ++ second.ownerName.getD "?" ++ ")"
    s!"Edits {first.edit.range} and {second.edit.range} overlap{owners}"

namespace Edit

/-- Drops every replacement that already occurred; insertions all stay. -/
def dedupe (seen : List Edit) : List OwnedEdit → List OwnedEdit
  | [] => []
  | e :: rest =>
    if e.edit.isInsertion then e :: dedupe seen rest
    else if seen.contains e.edit then dedupe seen rest
    else e :: dedupe (e.edit :: seen) rest

/-- Whether the first edit may be applied before the second: by start, an insertion before a
replacement. -/
def precedes (a b : OwnedEdit) : Bool :=
  a.edit.start < b.edit.start ||
    (a.edit.start == b.edit.start && (a.edit.isInsertion || !b.edit.isInsertion))

/-- The first edit that starts before the end of the last replacement passed, with that
replacement. -/
def firstConflict (covering : Option OwnedEdit) : List OwnedEdit → Option (OwnedEdit × OwnedEdit)
  | [] => none
  | e :: rest =>
    match covering with
    | some c =>
      if e.edit.start < c.edit.stop then some (c, e)
      else firstConflict (if e.edit.isInsertion then covering else some e) rest
    | none => firstConflict (if e.edit.isInsertion then none else some e) rest

/-- The edits in the order in which they are applied to a source of the given size. -/
def arrange (size : Nat) (pending : List OwnedEdit) : Except EditFault (List OwnedEdit) :=
  match pending.find? fun e => !e.edit.isWithin size with
  | some e => .error (.outside e.edit size)
  | none =>
    let ordered := (dedupe [] pending).mergeSort precedes
    match firstConflict none ordered with
    | some (first, second) => .error (.conflict first second)
    | none => .ok ordered

/-- The bytes from a position on, with ordered edits spliced in. -/
def splice (data : List UInt8) (position : Nat) : List Edit → List UInt8
  | [] => data.drop position
  | e :: rest =>
    (data.drop position).take (e.start.toNat - position) ++ Utf8.encode e.replacement ++
      splice data e.stop.toNat rest

end Edit

/-- Why the edited text of a script is not available. -/
inductive ApplyFault where
  | edit (fault : EditFault)
  /-- The edits cut a character, and the bytes that are left are no text. -/
  | undecodable (error : Utf8.DecodeError)
deriving DecidableEq

/-- The edits collected for one source, in the order in which they were added. -/
structure EditScript where
  source : String
  pending : List OwnedEdit

namespace EditScript

def ofSource (source : String) : EditScript :=
  ⟨source, []⟩

def add (s : EditScript) (edit : Edit) (owner : Option String) : EditScript :=
  { s with pending := s.pending ++ [⟨edit, owner⟩] }

def extend (s : EditScript) (edits : List Edit) (owner : Option String) : EditScript :=
  edits.foldl (fun s edit => s.add edit owner) s

def insertBefore (s : EditScript) (range : Int × Int) (text : String) : EditScript :=
  s.add ⟨range.1, range.1, text⟩ none

def insertAfter (s : EditScript) (range : Int × Int) (text : String) : EditScript :=
  s.add ⟨range.2, range.2, text⟩ none

def replace (s : EditScript) (range : Int × Int) (text : String) : EditScript :=
  s.add ⟨range.1, range.2, text⟩ none

def remove (s : EditScript) (range : Int × Int) : EditScript :=
  s.replace range ""

def edits (s : EditScript) : List Edit :=
  s.pending.map (·.edit)

/-- The edits in the order of application, or what is wrong with them. -/
def check (s : EditScript) : Except EditFault (List Edit) :=
  (Edit.arrange (Utf8.encode s.source).length s.pending).map fun ordered => ordered.map (·.edit)

def editedBytes (s : EditScript) : Except EditFault (List UInt8) :=
  s.check.map (Edit.splice (Utf8.encode s.source) 0)

def apply (s : EditScript) : Except ApplyFault String :=
  match s.editedBytes with
  | .error fault => .error (.edit fault)
  | .ok bytes =>
    match Utf8.decode bytes with
    | .error e => .error (.undecodable e)
    | .ok text => .ok text

end EditScript

def applyEdits (text : String) (edits : List Edit) : Except ApplyFault String :=
  ((EditScript.ofSource text).extend edits none).apply

end RubyLint
