import RubyLint.Text.LineIndex
import RubyLint.Text.Utf8
import RubyLint.Tree.Node

/-!
# Source documents

A source is a text under a path, with its UTF-8 bytes and its line index.  A document is a source
with the tree that was parsed from it.  All offsets are byte offsets; a slice that cuts a character
shows a replacement character for the cut part.
-/

namespace RubyLint

/-- Why a tree cannot be built or attached to a source. -/
inductive TreeFault where
  | invalidRange (kind : String) (start stop : Int)
  | alreadyOwned (child parent : String)
  | rootHasParent
  | alreadyAttached
  | beyondText (stop size : Nat)
deriving DecidableEq, Repr

def TreeFault.message : TreeFault → String
  | .invalidRange kind start stop => s!"Invalid node range [{start}, {stop}) for {kind}"
  | .alreadyOwned child parent => s!"{child} already belongs to {parent}"
  | .rootHasParent => "Document root must not have a parent"
  | .alreadyAttached => "Tree is already attached to a document"
  | .beyondText stop size => s!"Root range ends at {stop}, beyond {size} bytes"

/-- A text under a path. -/
structure Source where
  path : String
  text : String
  data : List UInt8
  lines : LineIndex

namespace Source

def anonymous : String :=
  "<source>"

def ofText (path text : String) : Source :=
  let data := Utf8.encode text
  ⟨path, text, data, LineIndex.ofBytes data⟩

def label (s : Source) : String :=
  s!"<SourceDocument {s.path}>"

/-- The text between two offsets; a negative one counts back from the end. -/
def slice (s : Source) (start stop : Int) : String :=
  Utf8.decodeLossy (Indexing.slice s.data start stop)

def lineText? (s : Source) (line : Int) : Option String := do
  let start ← s.lines.lineStart? line
  let stop ← s.lines.lineEnd? line
  return s.slice start stop

def lineIndentation? (s : Source) (line : Int) : Option Nat :=
  (s.lineText? line).map fun text => (text.toList.takeWhile fun c => c == ' ' || c == '\t').length

def textOf (s : Source) (n : Node) : String :=
  s.slice n.start n.stop

def firstLine (s : Source) (n : Node) : Nat :=
  s.lines.lineOf n.start

/-- The line of a node's last byte, so a node that ends right after a newline ends on the line
before. -/
def lastLine (s : Source) (n : Node) : Nat :=
  s.lines.lineOf (if n.start < n.stop then (n.stop : Int) - 1 else n.stop)

def column (s : Source) (n : Node) : Nat :=
  s.lines.columnOf n.start

def spansLines (s : Source) (n : Node) : Bool :=
  s.firstLine n != s.lastLine n

end Source

namespace Node

/-- The kinds whose value is their own text. -/
def textValueKinds : List String := [
  "identifier", "constant", "integer", "float", "instance_variable", "class_variable",
  "global_variable", "self", "nil", "true", "false", "operator", "hash_key_symbol"]

/-- Where the value of a node comes from. -/
inductive ValueForm where
  /-- The text of the node. -/
  | whole
  /-- The text of the node without its first character. -/
  | symbol
  /-- The texts of its named children, if all of them are plain content. -/
  | content
  /-- The node has no value. -/
  | absent
deriving DecidableEq, Repr

/-- The form of a node's value: names, numbers and anonymous tokens are their text, a symbol loses
its colon, a string is its content, and any other node has a value only if it is a leaf. -/
def valueForm (kind : String) (named leaf : Bool) : ValueForm :=
  if kind ∈ textValueKinds || (leaf && !named) then .whole
  else if kind == "simple_symbol" then .symbol
  else if kind == "string" || kind == "delimited_symbol" then .content
  else if leaf then .whole
  else .absent

/-- The kind of the plain parts of a string. -/
def contentKind : String :=
  "string_content"

def withoutColon (text : String) : String :=
  String.ofList (text.toList.drop 1)

end Node

def Source.valueOf (s : Source) (n : Node) : Option String :=
  match Node.valueForm n.kind n.named n.children.isEmpty with
  | .whole => some (s.textOf n)
  | .symbol => some (Node.withoutColon (s.textOf n))
  | .content =>
    if n.namedChildren.all (·.kind == Node.contentKind) then
      some (String.join (n.namedChildren.map s.textOf))
    else none
  | .absent => none

/-- A source with the tree parsed from it and the positions of its parse errors. -/
structure Document extends Source where
  root : Node
  faults : List (Int × Int)

namespace Document

/-- Attaches a tree to a text; the tree must not end beyond it. -/
def attach (path text : String) (root : Node) : Except TreeFault Document :=
  let source := Source.ofText path text
  if source.data.length < root.stop then .error (.beyondText root.stop source.data.length)
  else .ok { source with root, faults := [] }

def top (d : Document) : Cursor :=
  Cursor.root d.root

/-- All nodes, or those of the given kinds, each before its children and in source order. -/
def nodes (d : Document) (kinds : List String) : List Cursor :=
  d.top.nodesWhere fun c => kinds.isEmpty || kinds.contains c.node.kind

end Document

end RubyLint
