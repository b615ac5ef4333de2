import RubyLint.Value
import RubyLint.Yaml.Tag

/-!
# Writing YAML

Values as block style YAML with two blanks of indentation per level and lines of about eighty
characters.  A sequence inside a mapping is not indented further; an empty sequence or mapping is
written in brackets.  A text is written plain where it would be read back as that text, otherwise
between single quotes, and between double quotes if it holds anything but printable ASCII.
-/

namespace RubyLint.Yaml

/-- What has been written: the characters, the last one first, the column, and whether the last
character leaves room for an indicator, and whether only indentation stands on the line. -/
structure Written where
  reversed : List Char := []
  column : Nat := 0
  spaced : Bool := true
  indented : Bool := true

namespace Written

def width : Nat :=
  80

def level : Nat :=
  2

def put (w : Written) (s : List Char) : Written :=
  { w with reversed := s.reverse ++ w.reversed, column := w.column + s.length }

def newline (w : Written) : Written :=
  ⟨'\n' :: w.reversed, 0, true, true⟩

def afterScalar (w : Written) : Written :=
  { w with spaced := false, indented := false }

/-- Writes an indicator, with a blank before it if it needs one. -/
def indicator (w : Written) (s : String) (needsBlank spaced indented : Bool) : Written :=
  let w' := w.put (if w.spaced || !needsBlank then s.toList else ' ' :: s.toList)
  { w' with spaced, indented := w.indented && indented }

/-- Goes to a column on a line of its own, unless only indentation stands on the line so far. -/
def indentTo (w : Written) (indent : Nat) : Written :=
  let w := if !w.indented || indent < w.column || (w.column == indent && !w.spaced) then w.newline
    else w
  if w.column < indent then
    { w.put (List.replicate (indent - w.column) ' ') with spaced := true }
  else w

end Written

/-- What the characters of a text allow. -/
structure Analysis where
  multiline : Bool
  plain : Bool
  single : Bool

/-- A character that only a double quoted scalar can hold. -/
def isSpecial (c : Char) : Bool :=
  !(c == '\n' || (32 ≤ c.toNat && c.toNat ≤ 126))

/-- Whether the characters of a text, given the one before, hold an indicator of block style. -/
def hasIndicator (previous : Option Char) : List Char → Bool
  | [] => false
  | c :: rest =>
    let gapAfter := (rest.head?.map isGap).getD true
    (match previous with
      | none =>
        "#,[]\x7b\x7d&*!|>'\"%@\x60".toList.contains c ||
          ((c == '?' || c == ':' || c == '-') && gapAfter)
      | some p => (c == ':' && gapAfter) || (c == '#' && isGap p)) ||
      hasIndicator (some c) rest

def hasNeighbours (first second : Char → Bool) : List Char → Bool
  | a :: b :: rest => (first a && second b) || hasNeighbours first second (b :: rest)
  | _ => false

/-- What a text that is not empty allows. -/
def analyze (s : List Char) : Analysis :=
  let edge (c : Option Char) := (c.map fun c => c == ' ' || isBreak c).getD false
  let multiline := s.any isBreak
  let special := s.any isSpecial || hasNeighbours (· == ' ') isBreak s
  let breakBlank := hasNeighbours isBreak (· == ' ') s
  let marker := s.take 3 == ['-', '-', '-'] || s.take 3 == ['.', '.', '.']
  { multiline
    plain := !(edge s.head? || edge s.getLast? || breakBlank || special || multiline || marker ||
      hasIndicator none s)
    single := !(breakBlank || special) }

def escapeLetters : List (Nat × Char) := [
  (0, '0'), (7, 'a'), (8, 'b'), (9, 't'), (10, 'n'), (11, 'v'), (12, 'f'), (13, 'r'), (27, 'e'),
  (34, '"'), (92, '\\'), (0x85, 'N'), (0xA0, '_'), (0x2028, 'L'), (0x2029, 'P')]

def upperHex (count n : Nat) : List Char :=
  match count with
  | 0 => []
  | count + 1 =>
    let d := n % 16
    upperHex count (n / 16) ++ [if d < 10 then Char.ofNat (48 + d) else Char.ofNat (55 + d)]

def escapeOf (c : Char) : List Char :=
  let code := Text.codeOf c
  match escapeLetters.lookup code with
  | some letter => ['\\', letter]
  | none =>
    if code ≤ 0xFF then '\\' :: 'x' :: upperHex 2 code
    else if code ≤ 0xFFFF then '\\' :: 'u' :: upperHex 4 code
    else '\\' :: 'U' :: upperHex 8 code

/-- Whether a double quoted scalar holds a character as itself. -/
def standsForItself (c : Char) : Bool :=
  32 ≤ c.toNat && c.toNat ≤ 126 && c != '"' && c != '\\'

namespace Written

/-- Splits a text into runs of blanks, runs of line breaks, and the rest. -/
def runs (s : List Char) : List (List Char) :=
  let kind (c : Char) : Nat := if c == ' ' then 0 else if isBreak c then 1 else 2
  s.splitBy fun a b => kind a == kind b

/-- Writes the parts of a plain scalar; a single blank beyond the width becomes a line break. -/
def plainRuns (split : Bool) (indent : Nat) (w : Written) : List (List Char) → Written
  | [] => w
  | run :: rest =>
    let w := if run == [' '] && width < w.column && split then (w.indentTo indent).afterScalar
      else w.put run
    plainRuns split indent w rest

def plain (w : Written) (split : Bool) (indent : Nat) (s : List Char) : Written :=
  if s.isEmpty then w
  else
    let w := if w.spaced then w else w.put [' ']
    plainRuns split indent w.afterScalar (runs s)

/-- Writes the parts of a single quoted scalar.  A single blank beyond the width, but not at an end
of the text, becomes a line break; a run of line breaks has one more in front if it starts with a
line feed. -/
def singleRuns (split : Bool) (indent : Nat) (first : Bool) (w : Written) :
    List (List Char) → Written
  | [] => w
  | run :: rest =>
    let w :=
      if run == [' '] && width < w.column && split && !first && !rest.isEmpty then w.indentTo indent
      else if run.head?.map isBreak == some true then
        let w := if run.head? == some '\n' then w.newline else w
        (run.foldl
          (fun w c => if c == '\n' then w.newline else ⟨c :: w.reversed, 0, true, true⟩) w).indentTo
            indent
      else w.put (run.flatMap fun c => if c == '\'' then ['\'', '\''] else [c])
    singleRuns split indent false w rest

def single (w : Written) (split : Bool) (indent : Nat) (s : List Char) : Written :=
  (singleRuns split indent true (w.indicator "'" true false false) (runs s)).indicator "'" false
    false false

/-- Writes the characters of a double quoted scalar.  `pending` holds characters that stand for
themselves and are not yet written, the last one first; `first` is set at the first character.  A
line beyond the width is broken before a blank or after an escape. -/
def doubleChars (split : Bool) (indent : Nat) (first : Bool) (pending : List Char) (w : Written) :
    List Char → Written
  | [] => w.put pending.reverse
  | c :: rest =>
    let (w, pending) :=
      if standsForItself c then (w, pending)
      else ((w.put pending.reverse).put (escapeOf c), [])
    let escaped := !standsForItself c
    let mayBreak := !first && !rest.isEmpty && split && (c == ' ' || escaped || pending.isEmpty)
    let beyond := if escaped then width + 1 < w.column else width < w.column + pending.length
    if mayBreak && beyond then
      let w := ((w.put (pending.reverse ++ ['\\'])).indentTo indent).afterScalar
      let after := if escaped then rest.head? else some c
      let w := if after == some ' ' then w.put ['\\'] else w
      doubleChars split indent false (if escaped then [] else [c]) w rest
    else doubleChars split indent false (if escaped then [] else c :: pending) w rest

def double (w : Written) (split : Bool) (indent : Nat) (s : List Char) : Written :=
  (doubleChars split indent true [] (w.indicator "\"" true false false) s).indicator "\"" false
    false false

/-- Writes a text.  A key is not broken over lines. -/
def text (w : Written) (isKey : Bool) (indent : Nat) (s : String) : Written :=
  let chars := s.toList
  let a := analyze chars
  let multiline := a.multiline
  if chars.isEmpty then w.single (!isKey) indent chars
  else if plainTag s == .str && !(isKey && multiline) && a.plain then w.plain (!isKey) indent chars
  else if a.single && !(isKey && multiline) then w.single (!isKey) indent chars
  else w.double (!isKey) indent chars

/-- The text of a floating point number; one without a point gets one. -/
def realText (x : Float) : List Char :=
  match Number.read x with
  | .nan => ".nan".toList
  | .infinite negative => (if negative then "-.inf" else ".inf").toList
  | .finite _ =>
    let s := (Number.floatText x).toList
    if s.contains '.' || !s.contains 'e' then s
    else s.flatMap fun c => if c == 'e' then ['.', '0', 'e'] else [c]

/-- Writes a value that is no text and holds no values. -/
def atom (w : Written) (isKey : Bool) (indent : Nat) (v : Value) : Written :=
  let plainText (s : String) := w.plain (!isKey) indent s.toList
  match v with
  | .null => plainText "null"
  | .bool b => plainText (if b then "true" else "false")
  | .int n => plainText (toString n)
  | .float x => plainText (String.ofList (realText x))
  | .str s => w.text isKey indent s
  | .list _ => (w.indicator "[" true true false).indicator "]" false false false
  | .map _ => (w.indicator "\x7b" true true false).indicator "\x7d" false false false
  | v => plainText v.text

def typeWidth : Value → Nat
  | .null | .bool _ => 6
  | .float _ => 7
  | _ => 5

/-- Whether a key fits before a colon on its line. -/
def isSimpleKey (key : Value) : Bool :=
  match key with
  | .str s => s.length + typeWidth key < 128 && s != "" && !s.toList.any isBreak
  | .int n => (toString n).length + typeWidth key < 128
  | .list items => items.isEmpty
  | .map entries => entries.isEmpty
  | _ => true

mutual

/-- Writes a value inside a block of the given indentation.  `inMapping` is set for the value of an
entry of a mapping. -/
def value (w : Written) (inMapping : Bool) (indent : Option Nat) : Value → Written
  | .list [] => w.atom false 0 (.list [])
  | .list (x :: xs) =>
    let inner := match indent with
      | none => 0
      | some n => if inMapping && !w.indented then n else n + level
    items w inner (x :: xs)
  | .map [] => w.atom false 0 (.map [])
  | .map (e :: es) => entries w (match indent with | none => 0 | some n => n + level) (e :: es)
  | v => w.atom false ((indent.getD 0) + level) v

def items (w : Written) (indent : Nat) : List Value → Written
  | [] => w
  | v :: rest =>
    items (value ((w.indentTo indent).indicator "-" true false true) false (some indent) v) indent
      rest

def entries (w : Written) (indent : Nat) : List (Value × Value) → Written
  | [] => w
  | (key, v) :: rest =>
    let w := w.indentTo indent
    let w :=
      if isSimpleKey key then (w.atom true (indent + level) key).indicator ":" false false false
      else
        let w := value (w.indicator "?" true false true) true (some indent) key
        (w.indentTo indent).indicator ":" true false true
    entries (value w true (some indent) v) indent rest

end

end Written

def write (v : Value) : String :=
  let w := (Written.value {} false none v).indentTo 0
  String.ofList w.reversed.reverse

end RubyLint.Yaml
