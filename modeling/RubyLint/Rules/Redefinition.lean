import RubyLint.Grammar
import RubyLint.Rule.Basic
import RubyLint.Ruby.Call

/-!
# Redefinitions in nested example groups

A definition that an enclosing group of examples already made is not made again.  Definitions are
collected on the way down through the groups: a group starts from a copy of what is visible where it
stands, so sibling groups never see each other's definitions.
-/

namespace RubyLint.Redefinition

variable [Machine] {μ : Type}

/-- The definitions visible at a statement: a name and the lines of its definitions, in increasing
order and without repetition. -/
abbrev Definitions := List (String × List Nat)

/-- The lines on which a name was defined; none if it was not. -/
def linesOf (definitions : Definitions) (name : String) : List Nat :=
  (definitions.lookup name).getD []

/-- Adds a line to increasing lines unless it is among them. -/
def insertLine (line : Nat) : List Nat → List Nat
  | [] => [line]
  | l :: rest =>
    if line < l then line :: l :: rest
    else if line = l then l :: rest
    else l :: insertLine line rest

def define (definitions : Definitions) (name : String) (line : Nat) : Definitions :=
  (name, insertLine line (linesOf definitions name)) :: definitions.filter (·.1 != name)

/-- How a rule reads the name that a statement defines: none if the statement is no definition by
one of the methods, or defines something without a fixed name. -/
abbrev Naming := Source → List Value → Cursor → Except RuleFault (Option String)

def message (ctx : Context μ) (name : String) (lines : List Nat) : Except RuleFault String :=
  (Template.format ctx.info.message
    [("name", .str name), ("definitions", .str (", ".intercalate (lines.map toString)))]).mapError
      .template

/-- Checks one statement that is no group, given the definitions before it. -/
def checkStatement (ctx : Context μ) (naming : Naming) (methods : List Value) (memory : μ)
    (definitions : Definitions) (statement : Cursor) : Outcome μ × Definitions :=
  let s := ctx.document.toSource
  match naming s methods statement with
  | .error fault => (.fail memory fault, definitions)
  | .ok none => (.quiet memory, definitions)
  | .ok (some name) =>
    let previous := linesOf definitions name
    let outcome : Outcome μ :=
      if previous.isEmpty then .quiet memory
      else
        .withValue memory (message ctx name previous) fun text =>
          .report memory
            (ctx.offense (statement.node.start, statement.node.stop) text [] none .null)
    (outcome, define definitions name (s.firstLine statement.node))

/-- Checks the statements of a group, given the definitions visible in it.  The first argument
bounds the depth of nested groups. -/
def scan (ctx : Context μ) (naming : Naming) (methods : List Value) :
    Nat → μ → Definitions → List Cursor → Outcome μ
  | 0, memory, _, _ => .quiet memory
  | _ + 1, memory, _, [] => .quiet memory
  | depth + 1, memory, definitions, statement :: rest =>
    if !Ruby.isCall statement then scan ctx naming methods depth memory definitions rest
    else if Ruby.isExampleGroup ctx.document.toSource statement then
      (scan ctx naming methods depth memory definitions (Ruby.blockStatements statement)).andThen
        fun memory => scan ctx naming methods depth memory definitions rest
    else
      let (outcome, definitions) := checkStatement ctx naming methods memory definitions statement
      outcome.andThen fun memory => scan ctx naming methods depth memory definitions rest

/-- Checks an outermost group; groups that are direct statements of another one are checked from
there.  Each statement takes one step, so the size of the group bounds the depth. -/
def visit (naming : Naming) (ctx : Context μ) (c : Cursor) : Outcome μ :=
  let s := ctx.document.toSource
  let nested := match Ruby.enclosingCall? c with
    | none => false
    | some owner => Ruby.isExampleGroup s owner
  if !Ruby.isExampleGroup s c || nested then .quiet ctx.memory
  else
    .withValue ctx.memory ((ctx.option "Methods" .null).members.mapError .value) fun methods =>
      scan ctx naming methods (c.node.size + 1) ctx.memory [] (Ruby.blockStatements c)

/-- A pattern over the kinds of the grammar. -/
def grammarPattern (description : String) : Pattern :=
  match Pattern.compile ⟨some Grammar.nodeKinds, []⟩ description with
  | .ok p => p
  | .error _ => .any

/-- A named definition with a block of its own or a block argument. -/
def namedDefinition : Pattern :=
  grammarPattern ("\x7b (call $identifier (argument_list $\x7bsimple_symbol string\x7d ...) " ++
    "\x7bblock do_block\x7d) " ++
    "(call $identifier (argument_list $\x7bsimple_symbol string\x7d ... block_argument)) \x7d")

def namedSubject : Pattern :=
  grammarPattern "(call $identifier (argument_list $simple_symbol) \x7bblock do_block\x7d)"

def plainSubject : Pattern :=
  grammarPattern "(call $identifier \x7bblock do_block\x7d)"

/-- Matches a statement; the values of the captured nodes, in order. -/
def capturedValues (s : Source) (p : Pattern) (c : Cursor) :
    Except RuleFault (Option (List (Option String))) := do
  match ← (Pattern.run ⟨s, fun _ _ => false⟩ p c).mapError .pattern with
  | none => return none
  | some b => return some (b.captures.map fun
      | .node n => s.valueOf n.node
      | .run _ => none)

def isListed (methods : List Value) (values : List (Option String)) : Bool :=
  methods.contains (Value.ofText? (values.head?.getD none))

def letName : Naming := fun s methods c => do
  match ← capturedValues s namedDefinition c with
  | none => return none
  | some values => return if isListed methods values then values.getD 1 none else none

def subjectName : Naming := fun s methods c => do
  match ← capturedValues s namedSubject c with
  | some values => return if isListed methods values then values.getD 1 none else none
  | none =>
    match ← capturedValues s plainSubject c with
    | none => return none
    | some values => return if isListed methods values then some "anonymous" else none

def letInfo : RuleInfo where
  id := "rspec.nested_let_redefinition"
  category := "rspec"
  description := "Do not redefine a let from an ancestor example group."
  message :=
    "Let `:\x7bname\x7d` is already defined in ancestor(s) block(s) at: \x7bdefinitions\x7d."
  kinds := ["call"]
  options := [(.str "Methods", .list [.str "let", .str "let!"])]

def subjectInfo : RuleInfo where
  id := "rspec.nested_subject_redefinition"
  category := "rspec"
  description := "Do not redefine a subject from an ancestor example group."
  message :=
    "Subject `:\x7bname\x7d` is already defined in ancestor(s) block(s) at: \x7bdefinitions\x7d."
  kinds := ["call"]
  options := [(.str "Methods", .list [.str "subject", .str "subject!"])]

def letRule : Rule μ where
  info := letInfo
  visit := visit letName

def subjectRule : Rule μ where
  info := subjectInfo
  visit := visit subjectName

end RubyLint.Redefinition
