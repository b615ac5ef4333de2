import RubyLint.Rule.Basic
import RubyLint.Ruby.Call

/-!
# Line breaks in call chains

Once a chain of method calls spans more than one line, every call after the root starts a line of
its own.  A call that stays on the line where its receiver ends is reported, unless its arguments
cause the break, and corrected by a line break before its operator.
-/

namespace RubyLint.ChainBreaks

variable [Machine] {μ : Type}

def operatorMethods : List String :=
  ["[]", "[]=", "+", "-", "*", "/", "%", "**", "<<", ">>"]

def info : RuleInfo where
  id := "layout.multiline_chain_line_breaks"
  category := "layout"
  description := "Method calls in a multiline chain must each be on their own line."
  message := "Method calls in a multiline chain must each be on their own line."
  kinds := ["call"]
  autocorrect := true
  options := [(.str "IndentationWidth", .int 2),
    (.str "OperatorMethods", .list (operatorMethods.map .str))]

/-- Whether a call is the receiver of another one.  A receiver with a block closes the chain it
belongs to. -/
def partOfLargerChain (c : Cursor) : Bool :=
  match c.parent? with
  | none => false
  | some p => Ruby.isCall p && c.node.field == some "receiver" && !Ruby.hasBlock c

/-- The calls of a chain from its outer end inwards, and the root of the chain. -/
def spine (c : Cursor) : List Cursor × Cursor :=
  match _h : Ruby.receiver? c with
  | none => ([], c)
  | some r =>
    if !Ruby.isCall r || Ruby.hasBlock r then ([c], r)
    else
      let (links, root) := spine r
      (c :: links, root)
termination_by c.node.size
decreasing_by exact Cursor.size_lt_of_role? _h

/-- The line on which a call starts: that of its operator, its method, or itself. -/
def callStartLine (s : Source) (c : Cursor) : Nat :=
  s.firstLine (((Ruby.operator? c).or (Ruby.method? c)).getD c).node

/-- Whether the line break of a call is within its arguments. -/
def argumentsCauseBreak (s : Source) (c : Cursor) : Bool :=
  match Ruby.argumentList? c with
  | none => false
  | some list => !(Ruby.arguments c).isEmpty && callStartLine s c < s.lastLine list.node

def offenseRange (c : Cursor) : Except RuleFault (Int × Int) :=
  match Ruby.operator? c, Ruby.method? c with
  | some op, some m => .ok (op.node.start, m.node.stop)
  | some op, none => .ok (op.node.start, op.node.stop)
  | none, some m => .ok (m.node.start, m.node.stop)
  | none, none => .error (.value (.noAttribute "NoneType" "start_byte"))

def breakBefore (c : Cursor) (indent : Value) : Except ValueFault (List Edit) :=
  match Ruby.operator? c with
  | none => .ok []
  | some op => do
    return [⟨op.node.start, op.node.start, "\n" ++ (← indent.blanks)⟩]

/-- Whether a call stays on the line where its receiver ends without an excuse. -/
def isOffending (s : Source) (operators : List Value) (link : Cursor) : Bool :=
  match Ruby.receiver? link with
  | none => false
  | some r =>
    s.lastLine r.node == callStartLine s link &&
      !(operators.contains (Value.ofText? (Ruby.methodName? s link)) || argumentsCauseBreak s link)

def report (ctx : Context μ) (indent : Value) (memory : μ) (link : Cursor) : Outcome μ :=
  .withValue memory (offenseRange link) fun range =>
    .withValue memory ((breakBefore link indent).mapError .value) fun edits =>
      .report memory (ctx.offense range ctx.info.message edits none .null)

/-- Checks the chain that a call is the outer end of. -/
def visit (ctx : Context μ) (c : Cursor) : Outcome μ :=
  let s := ctx.document.toSource
  if (Ruby.receiver? c).isNone || partOfLargerChain c then .quiet ctx.memory
  else
    let (links, root) := spine c
    if s.lastLine root.node == Ruby.sendLastLine s c then .quiet ctx.memory
    else
      let base := (s.lineIndentation? (s.firstLine root.node)).getD 0
      let indent := Value.addTo base (ctx.option "IndentationWidth" (.int 2))
      .withValue ctx.memory (indent.mapError .value) fun indent =>
        .withValue ctx.memory ((ctx.option "OperatorMethods" .null).members.mapError .value)
          fun operators =>
            .each ctx.memory (links.filter (isOffending s operators)) (report ctx indent)

def rule : Rule μ where
  info := info
  visit := visit

end RubyLint.ChainBreaks
