import RubyLint.Text.Quoted

/-!
# Tokens of the pattern language

A pattern description is a sequence of brackets, rest markers, literals, capture and negation marks,
predicates and kind names, separated by optional blanks.  At each place the longest token of the
first class that fits is taken; the classes overlap in no other way.  Offsets count characters.
-/

namespace RubyLint.Pattern

/-- The two kinds of brackets: round ones around a node, curly ones around a choice. -/
inductive Bracket where
  | round
  | curly
deriving DecidableEq, Repr

def Bracket.opening : Bracket → String
  | .round => "("
  | .curly => "\x7b"

def Bracket.closing : Bracket → String
  | .round => ")"
  | .curly => "\x7d"

/-- Why a description is no pattern, or a pattern cannot be matched. -/
inductive Cause where
  | unexpectedCharacter (c : Char)
  | empty
  | trailing (text : String)
  | unexpectedEnd
  | unopened (text : String)
  | misplacedRest
  | emptyCapture
  | captureInNegation
  | unknownPredicate (name : String)
  | unknownKind (name : String)
  | unclosedNode
  | missingKind
  | repeatedRest
  | emptyChoice
  | unevenChoice
  | missingCloser (bracket : Bracket)
  | wrongCloser (found expected : Bracket)
  | unmatchable (source : String)
deriving DecidableEq, Repr

def Cause.message : Cause → String
  | .unexpectedCharacter c => "Unexpected character " ++ Text.quoted (String.singleton c)
  | .empty => "Empty pattern"
  | .trailing text => "Unexpected " ++ Text.quoted text ++ " after pattern"
  | .unexpectedEnd => "Unexpected end of pattern"
  | .unopened text => "Unbalanced " ++ Text.quoted text
  | .misplacedRest => "'...' is only allowed among node children"
  | .emptyCapture => "Capture without a pattern"
  | .captureInNegation => "Captures are not allowed inside a negation"
  | .unknownPredicate name => s!"Unknown predicate '#{name}'"
  | .unknownKind name => s!"Unknown node kind '{name}'"
  | .unclosedNode => "Unbalanced '('"
  | .missingKind => "Expected a node kind after '('"
  | .repeatedRest => "At most one '...' is allowed per node"
  | .emptyChoice => "Empty alternation"
  | .unevenChoice => "Alternation branches capture different numbers of values"
  | .missingCloser bracket => "Missing " ++ Text.quoted bracket.closing
  | .wrongCloser found expected =>
    "Mismatched " ++ Text.quoted found.closing ++ ", expected " ++ Text.quoted expected.closing
  | .unmatchable source =>
    "Cannot match pattern element " ++ Text.quoted source ++ " against a node"

/-- A cause, the description at fault and, if there is one, the offset in it. -/
structure Fault where
  cause : Cause
  description : String
  offset : Option Nat
deriving DecidableEq, Repr

/-- The wording of a fault: it names the description unless that is empty, and the offset if there
is one. -/
def Fault.message (f : Fault) : String :=
  if f.description == "" then f.cause.message
  else
    match f.offset with
    | some offset => s!"{f.cause.message} at offset {offset} in {Text.quoted f.description}"
    | none => s!"{f.cause.message} in {Text.quoted f.description}"

inductive TokenKind where
  | opening (bracket : Bracket)
  | closing (bracket : Bracket)
  | rest
  | string
  | symbol
  | number
  | capture (name : Option String)
  | negation
  | predicate
  | word
deriving DecidableEq, Repr

/-- A token, its text and its offset in the description. -/
structure Token where
  kind : TokenKind
  text : String
  offset : Nat
deriving DecidableEq, Repr

/-- What stands at the start of a text: blanks, or a token. -/
inductive Lexeme where
  | blank
  | token (kind : TokenKind)
deriving DecidableEq, Repr

/-- The number of characters of a name at the start of a text; a name goes on with word
characters. -/
def nameLength : List Char → Nat
  | [] => 0
  | c :: rest => if Text.isNameStart c then 1 + (rest.takeWhile Text.isWord).length else 0

/-- The number of characters of a name and the mark that may follow it. -/
def markedLength (s : List Char) : Nat :=
  let n := nameLength s
  match s.drop n with
  | '?' :: _ => n + 1
  | '!' :: _ => n + 1
  | _ => n

/-- The number of characters up to and including the quote that closes a string; a backslash takes
the character after it along, which must not be a newline. -/
def stringLength : List Char → Option Nat
  | [] => none
  | '"' :: _ => some 1
  | ['\\'] => none
  | '\\' :: c :: rest => if c == '\n' then none else (stringLength rest).map (· + 2)
  | _ :: rest => (stringLength rest).map (· + 1)

def isSymbolChar (c : Char) : Bool :=
  !(Text.isBlank c || c == '(' || c == ')' || c == '\x7b' || c == '\x7d' || c == '"')

/-- The lexeme that starts with a character, and the number of characters that follow in it. -/
def lexeme? (c : Char) (rest : List Char) : Option (Lexeme × Nat) :=
  if Text.isBlank c then some (.blank, (rest.takeWhile Text.isBlank).length)
  else if c == '(' then some (.token (.opening .round), 0)
  else if c == '\x7b' then some (.token (.opening .curly), 0)
  else if c == ')' then some (.token (.closing .round), 0)
  else if c == '\x7d' then some (.token (.closing .curly), 0)
  else if c == '.' then
    if ['.', '.'].isPrefixOf rest then some (.token .rest, 2) else none
  else if c == '"' then (stringLength rest).map fun n => (.token .string, n)
  else if c == ':' then
    match (rest.takeWhile isSymbolChar).length with
    | 0 => none
    | n + 1 => some (.token .symbol, n + 1)
  else if c == '-' then
    match (rest.takeWhile Text.isDigit).length with
    | 0 => none
    | n + 1 => some (.token .number, n + 1)
  else if Text.isDigit c then some (.token .number, (rest.takeWhile Text.isDigit).length)
  else if c == '$' then
    let n := nameLength rest
    if n != 0 && (rest.drop n).head? == some '=' then
      some (.token (.capture (some (String.ofList (rest.take n)))), n + 1)
    else some (.token (.capture none), 0)
  else if c == '!' then some (.token .negation, 0)
  else if c == '#' then
    match markedLength rest with
    | 0 => none
    | n + 1 => if nameLength rest == 0 then none else some (.token .predicate, n + 1)
  else if Text.isNameStart c then some (.token .word, markedLength (c :: rest) - 1)
  else none

/-- The tokens of a text that starts at an offset, or the offset and the character at which none
starts. -/
def tokensFrom (offset : Nat) (s : List Char) : Except (Nat × Char) (List Token) :=
  match s with
  | [] => .ok []
  | c :: rest =>
    match lexeme? c rest with
    | none => .error (offset, c)
    | some (.blank, n) => tokensFrom (offset + n + 1) (rest.drop n)
    | some (.token kind, n) =>
      (tokensFrom (offset + n + 1) (rest.drop n)).map fun tokens =>
        ⟨kind, String.ofList (c :: rest.take n), offset⟩ :: tokens
termination_by s.length
decreasing_by
  all_goals simp only [List.length_drop, List.length_cons]; omega

def tokens (description : String) : Except Fault (List Token) :=
  match tokensFrom 0 description.toList with
  | .ok ts => .ok ts
  | .error (offset, c) => .error ⟨.unexpectedCharacter c, description, some offset⟩

end RubyLint.Pattern
