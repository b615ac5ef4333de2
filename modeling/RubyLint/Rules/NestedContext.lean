import RubyLint.Rule.Basic
import RubyLint.Ruby.Call

/-!
# Descriptions of nested contexts

A context inside another one goes on with its parent's sentence, so its description does not start
with a word that opens a sentence of its own.
-/

namespace RubyLint.NestedContext

variable {μ : Type}

def info : RuleInfo where
  id := "rspec.nested_context_improper_start"
  category := "rspec"
  description := "Nested contexts should start with 'and', 'but' or 'however'."
  message := "Nested `context` should start with `and`, `but`, or `however`, " ++
    "not `when`, `with`, or `without`."
  kinds := ["call"]
  options := [(.str "Prefixes", .list [.str "when", .str "with", .str "without"])]

/-- The string that describes a context, if a node is one. -/
def description? (s : Source) (c : Cursor) : Option Cursor :=
  if Ruby.isCall c && Ruby.methodName? s c == some "context" && Ruby.isSpecReceiver s c &&
      Ruby.hasBlock c then
    (Ruby.arguments c).head?.filter fun a => a.node.kind == "string"
  else none

/-- The text of a string before any interpolation. -/
def leadingText (s : Source) (string : Cursor) : String :=
  match string.node.namedChildren.head? with
  | none => ""
  | some part => if part.kind == Node.contentKind then s.textOf part else ""

/-- The words that the option lists, in lower case.  Bytes have a lower case too, but are no words.
-/
def loweredWords : List Value → Except ValueFault (List String)
  | [] => .ok []
  | .bytes _ :: rest => loweredWords rest
  | .str w :: rest => do
    return String.ofList (Text.lower w.toList) :: (← loweredWords rest)
  | v :: _ => .error (.noAttribute v.typeName "lower")

def visit (ctx : Context μ) (c : Cursor) : Outcome μ :=
  let s := ctx.document.toSource
  let quiet := Outcome.quiet ctx.memory
  match description? s c, (Ruby.nearestCall? c).bind (description? s) with
  | some description, some _ =>
    let words := (ctx.option "Prefixes" .null).itemsOrNone.bind loweredWords
    .withValue ctx.memory (words.mapError .value) fun words =>
      if words.contains (Ruby.firstWord (leadingText s description)) then
        let range : Int × Int := ((Ruby.sendRange c).1, (Ruby.sendRange c).2)
        .report ctx.memory (ctx.offense range ctx.info.message [] none .null)
      else quiet
  | _, _ => quiet

def rule : Rule μ where
  info := info
  visit := visit

end RubyLint.NestedContext
