import RubyLint.Text.Lower
import RubyLint.Tree.Document

/-!
# Calls and blocks

Questions about method calls in a Ruby tree: receiver, method, arguments and block of a call, the
statements of a block, the call that a block belongs to, and the calls that make up a specification.
-/

namespace RubyLint.Ruby

def blockKinds : List String :=
  ["block", "do_block"]

/-- The kinds of nodes that wrap the statements of a block. -/
def bodyKinds : List String :=
  ["block_body", "body_statement"]

/-- The kinds that count neither as arguments nor as part of a call's own span. -/
def triviaKinds : List String :=
  ["comment", "heredoc_body"]

def exampleGroupMethods : List String := [
  "describe", "context", "feature", "example_group", "xdescribe", "xcontext", "xfeature",
  "fdescribe", "fcontext", "ffeature", "shared_examples", "shared_examples_for", "shared_context"]

def isCall (c : Cursor) : Bool :=
  c.node.kind == "call"

def receiver? (c : Cursor) : Option Cursor :=
  c.role? "receiver"

def method? (c : Cursor) : Option Cursor :=
  c.role? "method"

def methodName? (s : Source) (c : Cursor) : Option String :=
  (method? c).bind fun m => s.valueOf m.node

/-- The token between receiver and method. -/
def operator? (c : Cursor) : Option Cursor :=
  c.role? "operator"

def block? (c : Cursor) : Option Cursor :=
  (c.role? "block").filter fun b => blockKinds.contains b.node.kind

def hasBlock (c : Cursor) : Bool :=
  (block? c).isSome

def argumentList? (c : Cursor) : Option Cursor :=
  (c.role? "arguments").filter fun a => a.node.kind == "argument_list"

/-- The arguments of a call, without comments and the bodies of here documents. -/
def arguments (c : Cursor) : List Cursor :=
  match argumentList? c with
  | none => []
  | some list => list.namedChildren.filter fun a => !triviaKinds.contains a.node.kind

/-- Whether a here document starts or ends among the arguments of a call. -/
def hasHeredoc (c : Cursor) : Bool :=
  match argumentList? c with
  | none => false
  | some list => list.nodes.any fun n =>
      n.node.kind == "heredoc_beginning" || n.node.kind == "heredoc_body"

def isParenthesized (c : Cursor) : Bool :=
  match argumentList? c with
  | none => false
  | some list => (list.node.children.head?.map (·.kind)) == some "("

/-- The end of a call without its block and the bodies of here documents. -/
def sendEnd (c : Cursor) : Nat :=
  c.node.children.foldl
    (fun stop n =>
      if n.field == some "block" || triviaKinds.contains n.kind then stop else max stop n.stop)
    c.node.start

def sendRange (c : Cursor) : Nat × Nat :=
  (c.node.start, sendEnd c)

def sendLastLine (s : Source) (c : Cursor) : Nat :=
  s.lines.lineOf (max (c.node.start : Int) ((sendEnd c : Int) - 1))

/-- The statements of a block, whether or not a body wraps them. -/
def statements (block : Cursor) : List Cursor :=
  block.namedChildren.flatMap fun child =>
    if child.node.kind == "block_parameters" || child.node.kind == "comment" then []
    else if bodyKinds.contains child.node.kind then
      child.namedChildren.filter fun n => n.node.kind != "comment"
    else [child]

/-- The statements of a call's block; none if it has no block. -/
def blockStatements (c : Cursor) : List Cursor :=
  match block? c with
  | none => []
  | some block => statements block

/-- The call whose block a node is a direct statement of. -/
def enclosingCall? (c : Cursor) : Option Cursor := do
  let parent ← c.parent?
  let block ← if bodyKinds.contains parent.node.kind then parent.parent? else some parent
  if blockKinds.contains block.node.kind then
    (block.parent?).filter isCall
  else none

/-- The call that the innermost block around a node belongs to, at any depth. -/
def nearestCall? (c : Cursor) : Option Cursor :=
  (c.ancestors.filter fun a => blockKinds.contains a.node.kind).findSome? fun block =>
    block.parent?.filter isCall

/-- Whether a call is the left side of an assignment. -/
def isSetter (c : Cursor) : Bool :=
  match c.parent? with
  | none => false
  | some p => (p.node.kind == "assignment" || p.node.kind == "operator_assignment") &&
      c.node.field == some "left"

/-- Whether a call has no receiver or is sent to the specification framework itself. -/
def isSpecReceiver (s : Source) (c : Cursor) : Bool :=
  match receiver? c with
  | none => true
  | some r => r.node.kind == "constant" && s.valueOf r.node == some "RSpec"

def isExampleGroup (s : Source) (c : Cursor) : Bool :=
  isCall c &&
    (match methodName? s c with
      | none => false
      | some name => exampleGroupMethods.contains name) &&
    isSpecReceiver s c && hasBlock c

/-- The first word of a text in lower case, without punctuation at its end. -/
def firstWord (text : String) : String :=
  let word := Text.firstRun text.toList
  String.ofList (Text.lower (Text.dropEndWhile (fun c => ['.', ',', ';', ':', '!', '?'].contains c)
    word))

end RubyLint.Ruby
