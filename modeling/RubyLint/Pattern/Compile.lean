import RubyLint.Pattern.Token

/-!
# Compiling patterns

A description is compiled in one pass over its tokens.  A rest marker stands only among the children
of a node, directly or under a capture mark; a negation captures nothing; all branches of a choice
capture equally many values; and every kind and predicate must be known.  The first violation from
the left is the one reported.
-/

namespace RubyLint

/-- A compiled pattern.  Groups, literals and rest markers keep the text they were written with; the
text of the others follows from their parts. -/
inductive Pattern where
  /-- Any node. -/
  | any
  /-- A node of a kind, its children not inspected. -/
  | kind (name : String)
  /-- A node with a value. -/
  | literal (source value : String)
  /-- A node that a named test accepts. -/
  | predicate (name : String)
  /-- A run of children, possibly captured, possibly under a name. -/
  | rest (source : String) (capture : Option (Option String))
  /-- A captured node, possibly under a name. -/
  | capture (name : Option String) (body : Pattern)
  /-- A node that the body does not match. -/
  | negation (body : Pattern)
  /-- The first branch that matches. -/
  | choice (source : String) (branches : List Pattern)
  /-- A node of a kind, or of any kind, whose named children match a sequence. -/
  | node (source : String) (kind : Option String) (items : List Pattern)
deriving Inhabited

namespace Pattern

def captureMark : Option String → String
  | none => "$"
  | some name => "$" ++ name ++ "="

def source : Pattern → String
  | .any => "_"
  | .kind name => name
  | .literal source _ => source
  | .predicate name => "#" ++ name
  | .rest source _ => source
  | .capture name body => captureMark name ++ body.source
  | .negation body => "!" ++ body.source
  | .choice source _ => source
  | .node source _ _ => source

def isRest : Pattern → Bool
  | .rest _ _ => true
  | _ => false

mutual

def captures : Pattern → Nat
  | .rest _ mark => if mark.isSome then 1 else 0
  | .capture _ body => body.captures + 1
  | .choice _ branches => capturesOfFirst branches
  | .node _ _ items => capturesOfAll items
  | _ => 0

def capturesOfFirst : List Pattern → Nat
  | [] => 0
  | p :: _ => p.captures

def capturesOfAll : List Pattern → Nat
  | [] => 0
  | p :: ps => p.captures + capturesOfAll ps

end

/-- The items before the rest marker; all of them if there is none. -/
def front (items : List Pattern) : List Pattern :=
  items.takeWhile fun p => !p.isRest

def restOf? (items : List Pattern) : Option Pattern :=
  items.find? isRest

/-- The items after the rest marker; none if there is none. -/
def back (items : List Pattern) : List Pattern :=
  (items.dropWhile fun p => !p.isRest).drop 1

/-- The known kinds, if kinds are checked at all, and the known predicates. -/
structure Vocabulary where
  kinds : Option (List String)
  predicates : List String

/-- What a description is compiled against. -/
structure Scope extends Vocabulary where
  description : String

def Scope.fault (scope : Scope) (cause : Cause) (offset : Nat) : Fault :=
  ⟨cause, scope.description, some offset⟩

def Scope.knows (scope : Scope) (kind : String) : Bool :=
  match scope.kinds with
  | none => true
  | some kinds => kinds.contains kind

/-- The part of the description between two offsets, both included. -/
def Scope.cut (scope : Scope) (first last : Nat) : String :=
  String.ofList ((scope.description.toList.drop first).take (last + 1 - first))

/-- A string literal without its quotes and without the backslashes that escape. -/
def unescape : List Char → List Char
  | [] => []
  | ['\\'] => ['\\']
  | '\\' :: c :: cs => if c == '\n' then '\\' :: c :: unescape cs else c :: unescape cs
  | c :: cs => c :: unescape cs

def stringValue (text : String) : String :=
  String.ofList (unescape ((text.toList.drop 1).dropLast))

/-- A pattern of a single token, if the token makes one.  `inSequence` says whether a rest marker
may stand here. -/
def atom? (scope : Scope) (inSequence : Bool) (t : Token) : Option (Except Fault Pattern) :=
  match t.kind with
  | .closing _ => some (.error (scope.fault (.unopened t.text) t.offset))
  | .rest =>
    some (if inSequence then .ok (.rest t.text none)
      else .error (scope.fault .misplacedRest t.offset))
  | .string => some (.ok (.literal t.text (stringValue t.text)))
  | .symbol => some (.ok (.literal t.text (String.ofList (t.text.toList.drop 1))))
  | .number => some (.ok (.literal t.text t.text))
  | .predicate =>
    let name := String.ofList (t.text.toList.drop 1)
    some (if scope.predicates.contains name then .ok (.predicate name)
      else .error (scope.fault (.unknownPredicate name) t.offset))
  | .word =>
    some (if t.text == "_" then .ok .any
      else if scope.knows t.text then .ok (.kind t.text)
      else .error (scope.fault (.unknownKind t.text) t.offset))
  | _ => none

/-- A capture mark in front of a pattern.  A mark in front of a rest marker captures the run. -/
def captured (name : Option String) : Pattern → Pattern
  | .rest source _ => .rest (captureMark name ++ source) (some name)
  | body => .capture name body

/-- The node of a kind word and its items, or the fault of their combination. -/
def makeNode (scope : Scope) (first last : Nat) (kind : String) (items : List Pattern) :
    Except Fault Pattern :=
  if 1 < (items.filter isRest).length then .error (scope.fault .repeatedRest first)
  else .ok (.node (scope.cut first last) (if kind == "_" then none else some kind) items)

/-- The choice between branches, or the fault of their combination. -/
def makeChoice (scope : Scope) (first last : Nat) (branches : List Pattern) :
    Except Fault Pattern :=
  match branches with
  | [] => .error (scope.fault .emptyChoice first)
  | p :: ps =>
    if ps.all fun q => q.captures == p.captures then
      .ok (.choice (scope.cut first last) branches)
    else .error (scope.fault .unevenChoice first)

mutual

/-- Compiles one pattern at the front of the tokens and returns what follows it.  The first argument
bounds the depth of the recursion. -/
def compileOne (scope : Scope) :
    Nat → Bool → List Token → Except Fault (Pattern × List Token)
  | 0, _, _ => .error (scope.fault .unexpectedEnd scope.description.length)
  | _ + 1, _, [] => .error (scope.fault .unexpectedEnd scope.description.length)
  | depth + 1, inSequence, t :: ts =>
    match atom? scope inSequence t with
    | some result => result.map (·, ts)
    | none =>
      match t.kind with
      | .capture name =>
        if ts.isEmpty then .error (scope.fault .emptyCapture t.offset)
        else do
          let (body, ts) ← compileOne scope depth inSequence ts
          return (captured name body, ts)
      | .negation => do
        let (body, ts) ← compileOne scope depth false ts
        if body.captures != 0 then throw (scope.fault .captureInNegation t.offset)
        return (.negation body, ts)
      | .opening .curly => do
        let (branches, last, ts) ← compileUntil scope depth .curly t.offset ts
        return (← makeChoice scope t.offset last branches, ts)
      | _ =>
        match ts with
        | [] => .error (scope.fault .unclosedNode t.offset)
        | head :: ts => do
          if head.kind != .word then throw (scope.fault .missingKind head.offset)
          if head.text != "_" && !scope.knows head.text then
            throw (scope.fault (.unknownKind head.text) head.offset)
          let (items, last, ts) ← compileUntil scope depth .round t.offset ts
          return (← makeNode scope t.offset last head.text items, ts)

/-- Compiles patterns up to a closing bracket; returns them, the offset of the bracket and what
follows it. -/
def compileUntil (scope : Scope) :
    Nat → Bracket → Nat → List Token → Except Fault (List Pattern × Nat × List Token)
  | 0, bracket, first, _ => .error (scope.fault (.missingCloser bracket) first)
  | _ + 1, bracket, first, [] => .error (scope.fault (.missingCloser bracket) first)
  | depth + 1, bracket, first, t :: ts =>
    match t.kind with
    | .closing found =>
      if found = bracket then .ok ([], t.offset, ts)
      else .error (scope.fault (.wrongCloser found bracket) t.offset)
    | _ => do
      let (item, ts) ← compileOne scope depth (bracket == .round) (t :: ts)
      let (items, last, ts) ← compileUntil scope depth bracket first ts
      return (item :: items, last, ts)

end

/-- Compiles a token sequence as one pattern.  Every step down the recursion but one uses up a
token, which bounds its depth. -/
def compileTokens (scope : Scope) (ts : List Token) : Except Fault Pattern :=
  if ts.isEmpty then .error ⟨.empty, scope.description, none⟩
  else do
    let (root, following) ← compileOne scope (2 * ts.length + 1) false ts
    match following with
    | [] => return root
    | t :: _ => throw (scope.fault (.trailing t.text) t.offset)

def compile (vocabulary : Vocabulary) (description : String) : Except Fault Pattern := do
  compileTokens { vocabulary with description } (← tokens description)

end Pattern

end RubyLint
