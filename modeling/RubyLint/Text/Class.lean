import RubyLint.Text.WordTable
import RubyLint.Text.PrintableTable

/-!
# Character classes

Blank, digit, word and printable characters over all of Unicode.  Every class answers for the ASCII
block by a direct test and looks up a range table above it, so a statement about ASCII text never
has to open a table.
-/

namespace RubyLint.Text

/-- Whether a code point lies in one of the given closed ranges. -/
def inRanges (ranges : List (Nat × Nat)) (code : Nat) : Bool :=
  ranges.any fun range => range.1 ≤ code && code ≤ range.2

def wideBlankRanges : List (Nat × Nat) := [
  (133, 133), (160, 160), (5760, 5760), (8192, 8202), (8232, 8233), (8239, 8239), (8287, 8287),
  (12288, 12288)]

/-- White space: tabulators, line breaks, the four information separators, and the spaces of every
width. -/
def isBlank (c : Char) : Bool :=
  let code := c.toNat
  if code < 128 then (9 ≤ code && code ≤ 13) || (28 ≤ code && code ≤ 32)
  else inRanges wideBlankRanges code

/-- An ASCII letter or the underscore: what a name may start with. -/
def isNameStart (c : Char) : Bool :=
  c.isAlpha || c == '_'

/-- A letter, a number or the underscore: what a name may go on with. -/
def isWord (c : Char) : Bool :=
  if c.toNat < 128 then c.isAlphanum || c == '_'
  else inRanges letterOrNumberRanges c.toNat

def digitValue? (c : Char) : Option Nat :=
  let code := c.toNat
  if code < 128 then
    if c.isDigit then some (code - 48) else none
  else
    (decimalZeros.find? fun base => base ≤ code && code ≤ base + 9).map (code - ·)

def isDigit (c : Char) : Bool :=
  (digitValue? c).isSome

/-- A character that a quoted text shows as itself. -/
def isPrintable (c : Char) : Bool :=
  let code := c.toNat
  if code < 128 then 32 ≤ code && code < 127 else inRanges printableRanges code

def trimLeft (s : List Char) : List Char :=
  s.dropWhile isBlank

def dropEndWhile (test : Char → Bool) (s : List Char) : List Char :=
  (s.reverse.dropWhile test).reverse

def trim (s : List Char) : List Char :=
  dropEndWhile isBlank (trimLeft s)

/-- The first maximal run of characters that are not blank; empty when there is none. -/
def firstRun (s : List Char) : List Char :=
  (trimLeft s).takeWhile fun c => !isBlank c

/-- The greatest number of decimal digits with which whole numbers are read and written. -/
def digitLimit : Nat :=
  4300

/-- The integer that a text writes in decimal: blanks around it are ignored, one sign is allowed,
and single underscores may stand between digits, of which there are no more than the limit. -/
def readInt? (s : List Char) : Option Int :=
  let body := trim s
  let negative := body.head? == some '-'
  let digits := if negative || body.head? == some '+' then body.drop 1 else body
  let rec go (value : Nat) (afterDigit : Bool) : List Char → Option Nat
    | [] => if afterDigit then some value else none
    | c :: rest =>
      match digitValue? c with
      | some d => go (value * 10 + d) true rest
      | none => if c == '_' && afterDigit then go value false rest else none
  if digitLimit < (digits.filter isDigit).length then none
  else (go 0 false digits).map fun n => if negative then -(n : Int) else n

end RubyLint.Text
