import RubyLint.Offense
import RubyLint.Text.Class
import RubyLint.Text.Glob
import RubyLint.Text.LineIndex
import RubyLint.Text.Search

/-!
# Suppression comments

A comment `# treecop: ignore[rule, pattern]` silences the offenses of matching rules that start on
its line.  The words may be in any case and blanks may stand between the parts.  A second, more
generous reading finds every comment that looks like a directive and says what is wrong with it.
-/

namespace RubyLint.Suppression

/-- The lower case of an ASCII letter; both Turkish forms of the letter `i` count as `i`. -/
def foldCase (c : Char) : Char :=
  if c.toNat == 0x130 || c.toNat == 0x131 then 'i' else c.toLower

/-- Takes a lower case word off the start of a text, in any case. -/
def dropWord? : List Char → List Char → Option (List Char)
  | [], s => some s
  | _ :: _, [] => none
  | w :: word, c :: s => if foldCase c == w then dropWord? word s else none

/-- Takes the words of a directive, after its hash, off the start of a text. -/
def dropWords? (s : List Char) : Option (List Char) := do
  let s ← dropWord? "treecop:".toList (Text.trimLeft s)
  dropWord? "ignore".toList (Text.trimLeft s)

/-- The text between an opening bracket and the next closing one, and what follows.  The flag says
whether there is a closing one. -/
def bracketed? (s : List Char) : Option (List Char × Bool × List Char) :=
  match Text.trimLeft s with
  | '[' :: rest =>
    let body := rest.takeWhile (· != ']')
    some (body, body.length != rest.length, rest.drop (body.length + 1))
  | _ => none

/-- The list of a directive whose hash was just passed, and what follows it.  The list is closed and
not empty. -/
def directive? (s : List Char) : Option (List Char × List Char) := do
  let (body, closed, rest) ← bracketed? (← dropWords? s)
  if closed && !body.isEmpty then return (body, rest) else none

/-- The lists of the directives of a line, from left to right. -/
def directivesIn : Nat → List Char → List (List Char)
  | 0, _ => []
  | _ + 1, [] => []
  | fuel + 1, c :: s =>
    if c == '#' then
      match directive? s with
      | some (body, rest) => body :: directivesIn fuel rest
      | none => directivesIn fuel s
    else directivesIn fuel s

/-- The patterns that a list holds, blanks around them and empty ones dropped. -/
def patternsOf (body : List Char) : List String :=
  (((body.splitOn ',').map Text.trim).filter fun p => !p.isEmpty).map String.ofList

def linePatterns (line : List Char) : List String :=
  ((directivesIn (line.length + 1) line).flatMap patternsOf).eraseDups

def linesOf (text : String) : List (List Char) :=
  text.toList.splitOn '\n'

/-- The suppressions of a text: its line index and, for every line with patterns, its number and the
patterns. -/
structure Suppressions where
  index : LineIndex
  lines : List (Nat × List String)

def ofText (text : String) : Suppressions where
  index := LineIndex.ofBytes (Utf8.encode text)
  lines := ((linesOf text).mapIdx fun i line => (i + 1, linePatterns line)).filter
    fun entry => !entry.2.isEmpty

/-- Whether an offense of a rule that starts at an offset is silenced. -/
def isSuppressed (s : Suppressions) (rule : String) (start : Int) : Bool :=
  ((s.lines.lookup (s.index.lineOf start)).getD []).any fun pattern =>
    rule == pattern || Glob.matchesText pattern rule

/-- Drops the offenses that a text silences; a text that does not name the tool silences none. -/
def keep (text : String) (findings : List Finding) : List Finding :=
  if findings.isEmpty || !Text.occursIn "treecop".toList text.toList then findings
  else
    let s := ofText text
    findings.filter fun f => !isSuppressed s f.offense.rule f.offense.start

def lineTotal (s : Suppressions) : Nat :=
  s.lines.length

def uniqueTotal (s : Suppressions) : Nat :=
  (s.lines.flatMap (·.2)).eraseDups.length

/-- The number of patterns, counted line by line. -/
def patternTotal (s : Suppressions) : Nat :=
  (s.lines.flatMap (·.2)).length

/-- What looks like a directive: its list, if it has one, and whether the list is closed. -/
inductive Occurrence where
  | bare
  | list (body : List Char) (closed : Bool)
deriving DecidableEq, Repr

/-- What looks like a directive whose hash was just passed, and what follows it.  The second word
must end there. -/
def occurrence? (s : List Char) : Option (Occurrence × List Char) := do
  let s ← dropWords? s
  if (s.head?.map Text.isWord).getD false then none
  else
    match bracketed? s with
    | none => return (.bare, s)
    | some (body, closed, rest) => return (.list body closed, rest)

/-- Everything on a line that looks like a directive, from left to right. -/
def occurrencesIn : Nat → List Char → List Occurrence
  | 0, _ => []
  | _ + 1, [] => []
  | fuel + 1, c :: s =>
    if c == '#' then
      match occurrence? s with
      | some (o, rest) => o :: occurrencesIn fuel rest
      | none => occurrencesIn fuel s
    else occurrencesIn fuel s

/-- What is wrong with a directive. -/
inductive Mistake where
  | noList
  | unclosed
  | empty
deriving DecidableEq, Repr

def Mistake.message : Mistake → String
  | .noList => "Missing suppression pattern list"
  | .unclosed => "Unclosed suppression bracket"
  | .empty => "Empty suppression pattern"

def Occurrence.mistake? : Occurrence → Option Mistake
  | .bare => some .noList
  | .list body closed =>
    if !closed then some .unclosed
    else if body.all fun c => Text.isBlank c || c == ',' then some .empty
    else none

def mistakes (text : String) : List (Nat × Mistake) :=
  ((linesOf text).mapIdx fun i line =>
    (occurrencesIn (line.length + 1) line).filterMap fun o =>
      o.mistake?.map fun m => (i + 1, m)).flatten

end RubyLint.Suppression
