import RubyLint.Rule.Basic
import RubyLint.Rule.Memory
import RubyLint.Ruby.Call

/-!
# Wrapping of arguments

An argument list that spans several lines is put between parentheses and starts on a line of its
own.  The first argument moves to a new column, and calls that come after it on its line move with
it; the rule remembers these moves, so a call that is wrapped later indents from where it lands.
-/

namespace RubyLint.WrapArguments

variable [Machine]

def info : RuleInfo where
  id := "layout.wrap_multiline_arguments"
  category := "layout"
  description := "Multiline argument lists must be parenthesized and start on their own line."
  message := "Method call with multiline arguments must use parentheses " ++
    "and break line before the first argument."
  kinds := ["call"]
  autocorrect := true
  options := [(.str "IndentationWidth", .int 2), (.str "AllowedMethods", .list [])]

/-- The line of a call: that of its method, its operator, or itself. -/
def callLine (s : Source) (c : Cursor) : Nat :=
  s.firstLine (((Ruby.method? c).or (Ruby.operator? c)).getD c).node

/-- The column of a node once the moves made so far are applied. -/
def columnAfter (s : Source) (moved : List Move) (n : Node) : Int :=
  match moved.find? fun m => s.firstLine n == m.line && m.start ≤ n.start with
  | none => s.column n
  | some m => s.column n + m.shift

/-- The edits that wrap arguments: an opening parenthesis in place of the gap after the method, a
line break before the first argument, and a closing parenthesis after the last one. -/
def wrap (c first last : Cursor) (parenthesized : Bool) (blanks : String) : List Edit :=
  let opening : List Edit :=
    match Ruby.method? c with
    | some m => [⟨m.node.stop, first.node.start, "("⟩]
    | none => [⟨first.node.start, first.node.start, "("⟩]
  let breakLine : Edit := ⟨first.node.start, first.node.start, "\n" ++ blanks⟩
  if parenthesized then [breakLine]
  else opening ++ [breakLine, ⟨last.node.stop, last.node.stop, ")"⟩]

/-- Reports a call and remembers where its first argument moves. -/
def report (ctx : Context Memory) (c first last : Cursor) (parenthesized : Bool) :
    Outcome Memory :=
  let s := ctx.document.toSource
  let m := ctx.memory
  let indent := Value.addTo (columnAfter s m.moved c.node) (ctx.option "IndentationWidth" (.int 2))
  .withValue m (indent.mapError .value) fun indent =>
    .withValue m (indent.blanks.mapError .value) fun blanks =>
      let range : Int × Int := ((Ruby.sendRange c).1, (Ruby.sendRange c).2)
      let edits := wrap c first last parenthesized blanks
      (Outcome.report m (ctx.offense range ctx.info.message edits none .null)).andThen fun m =>
        match indent with
        | .int n =>
          .quiet { m with moved :=
            ⟨s.firstLine first.node, first.node.start, n - s.column first.node⟩ :: m.moved }
        | _ => .quiet m

def visit (ctx : Context Memory) (c : Cursor) : Outcome Memory :=
  let s := ctx.document.toSource
  let quiet := Outcome.quiet ctx.memory
  let args := Ruby.arguments c
  match args.head?, args.getLast?, Ruby.argumentList? c with
  | some first, some last, some list =>
    if s.lastLine list.node == callLine s c || Ruby.isSetter c then quiet
    else
      .withValue ctx.memory ((ctx.option "AllowedMethods" .null).members.mapError .value)
        fun allowed =>
          let parenthesized := Ruby.isParenthesized c
          if allowed.contains (Value.ofText? (Ruby.methodName? s c)) || Ruby.hasHeredoc c ||
              (parenthesized && callLine s c < s.firstLine first.node) then quiet
          else report ctx c first last parenthesized
  | _, _, _ => quiet

def rule : Rule Memory where
  info := info
  visit := visit

end RubyLint.WrapArguments
