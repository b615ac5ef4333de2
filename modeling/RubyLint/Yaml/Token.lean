import RubyLint.Text.Surrogate
import RubyLint.Text.Utf8

/-!
# YAML tokens

The tokens of a YAML stream, and the text ahead of a reader with the place it has reached.  Lines
are told apart by the line feed and three further breaks; carriage returns are gone before a text is
read.
-/

namespace RubyLint.Yaml

/-- Why a text is no YAML document, or why its values cannot be built. -/
inductive Fault where
  /-- The text does not follow the grammar, or asks for a value that does not exist. -/
  | malformed
  /-- The text ends inside a quoted scalar. -/
  | unfinished
  /-- The bytes of the text are no UTF-8. -/
  | undecodable
  /-- A number, a date or a character code that is written wrongly. -/
  | badValue
  /-- A scalar that is empty where its type needs a character. -/
  | emptyScalar
  /-- A truth value that is not one of the known words. -/
  | unknownWord
  /-- A scalar that is no date where its type needs one. -/
  | noDate
  /-- A mapping where a date has to be written out. -/
  | mappingForDate
  /-- A character code or the weight of a digit that is too large to be computed with. -/
  | tooLarge
deriving DecidableEq, Repr

/-- A token.  Indentation shows as the starts and ends of blocks. -/
inductive Token where
  | version (major : Nat)
  | tagHandle (handle tag : String)
  | directive
  | documentStart
  | documentEnd
  | streamEnd
  | blockSequenceStart
  | blockMappingStart
  | blockEnd
  | flowSequenceStart
  | flowMappingStart
  | flowSequenceEnd
  | flowMappingEnd
  | key
  | value
  | blockEntry
  | flowEntry
  | alias (name : String)
  | anchor (name : String)
  | tag (handle : Option String) (suffix : String)
  | scalar (text : String) (plain : Bool)
deriving DecidableEq, Repr

def endMark : Char :=
  Char.ofNat 0

def isBreak (c : Char) : Bool :=
  c == '\n' || c.toNat == 0x85 || c.toNat == 0x2028 || c.toNat == 0x2029

def isLineEnd (c : Char) : Bool :=
  c == endMark || isBreak c

/-- What may follow an indicator: a blank, a line break or the end. -/
def isGap (c : Char) : Bool :=
  isLineEnd c || c == ' ' || c == '\t'

/-- What may follow a tag or a directive: as `isGap`, without the tabulator. -/
def isPlainGap (c : Char) : Bool :=
  isLineEnd c || c == ' '

/-- A character of the name of an anchor, a tag handle or a directive. -/
def isNameChar (c : Char) : Bool :=
  c.isAlphanum || c == '-' || c == '_'

def isHexDigit (c : Char) : Bool :=
  c.isDigit || ('a' ≤ c && c ≤ 'f') || ('A' ≤ c && c ≤ 'F')

def hexNumber (digits : List Char) : Nat :=
  digits.foldl
    (fun n c => n * 16 + (if c.isDigit then c.toNat - 48 else c.toLower.toNat - 87)) 0

/-- The text ahead and the place where it starts. -/
structure Ahead where
  rest : List Char
  index : Nat
  line : Nat
  column : Nat

namespace Ahead

/-- The text ahead of a reader that has read nothing. -/
def ofText (text : List Char) : Ahead :=
  ⟨text, 0, 0, 0⟩

/-- The character at a distance; the end mark beyond the end. -/
def peek (a : Ahead) (distance : Nat) : Char :=
  (a.rest[distance]?).getD endMark

def next (a : Ahead) : Char :=
  a.peek 0

/-- Reads one character.  A byte order mark has no width. -/
def step (a : Ahead) : Ahead :=
  match a.rest with
  | [] => a
  | c :: rest =>
    if isBreak c then ⟨rest, a.index + 1, a.line + 1, 0⟩
    else ⟨rest, a.index + 1, a.line, if c.toNat == 0xFEFF then a.column else a.column + 1⟩

def forward : Nat → Ahead → Ahead
  | 0, a => a
  | n + 1, a => forward n a.step

/-- The characters ahead that satisfy a test, up to the first that does not. -/
def run (a : Ahead) (test : Char → Bool) : List Char :=
  a.rest.takeWhile test

def skip (a : Ahead) (test : Char → Bool) : Ahead :=
  a.forward (a.run test).length

def skipBlanks (a : Ahead) : Ahead :=
  a.skip (· == ' ')

/-- Reads a comment, if one starts here. -/
def skipComment (a : Ahead) : Ahead :=
  if a.next == '#' then a.skip fun c => !isBreak c else a

/-- Reads a line break, if there is one.  The two that are a line feed by another name read as one.
-/
def lineBreak (a : Ahead) : List Char × Ahead :=
  if a.next == '\n' || a.next.toNat == 0x85 then (['\n'], a.step)
  else if isBreak a.next then ([a.next], a.step)
  else ([], a)

def atMarker (a : Ahead) : Bool :=
  (a.rest.take 3 == ['-', '-', '-'] || a.rest.take 3 == ['.', '.', '.']) && isGap (a.peek 3)

end Ahead

end RubyLint.Yaml
