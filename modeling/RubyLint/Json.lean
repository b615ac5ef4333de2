import RubyLint.Value

/-!
# JSON text

Values written as JSON.  Only ASCII characters are written as themselves; everything else is escaped
by its UTF-16 units.  The indented form puts every item on a line of its own and leaves empty lists
and mappings on one line.
-/

namespace RubyLint.Json

def unitEscape (unit : Nat) : List Char :=
  '\\' :: 'u' :: Text.hexDigits 4 unit

def escapeChar (c : Char) : List Char :=
  let code := Text.codeOf c
  if c == '"' then ['\\', '"']
  else if c == '\\' then ['\\', '\\']
  else if 32 ≤ code && code < 127 then [c]
  else if c == '\n' then ['\\', 'n']
  else if c == '\r' then ['\\', 'r']
  else if c == '\t' then ['\\', 't']
  else if code == 8 then ['\\', 'b']
  else if code == 12 then ['\\', 'f']
  else if code < 0x10000 then unitEscape code
  else
    unitEscape (0xD800 + (code - 0x10000) / 0x400) ++ unitEscape (0xDC00 + (code - 0x10000) % 0x400)

def string (s : String) : String :=
  String.ofList ('"' :: s.toList.flatMap escapeChar ++ ['"'])

def number (x : Float) : String :=
  match Number.read x with
  | .nan => "NaN"
  | .infinite negative => if negative then "-Infinity" else "Infinity"
  | .finite _ => Number.floatText x

/-- The name under which a key is written. -/
def keyText : Value → String
  | .null => "null"
  | .bool b => if b then "true" else "false"
  | .int n => toString n
  | .float x => number x
  | .str s => s
  | v => v.shown

/-- How the parts of lists and mappings are set off. -/
inductive Layout where
  /-- Everything on one line. -/
  | line
  /-- Every item on its own line, `width` blanks further in at each level; `level` is the current
  one. -/
  | block (width level : Nat)

def Layout.inner : Layout → Layout
  | .line => .line
  | .block width level => .block width (level + 1)

def Layout.newline : Layout → String
  | .line => ""
  | .block width level => "\n" ++ String.ofList (List.replicate (width * level) ' ')

def Layout.separator : Layout → String
  | .line => ", "
  | .block width level => "," ++ (Layout.block width level).newline

def enclose (layout : Layout) (first last : String) (items : List String) : String :=
  if items.isEmpty then first ++ last
  else first ++ layout.inner.newline ++ String.intercalate layout.inner.separator items ++
    layout.newline ++ last

mutual

def render (layout : Layout) : Value → String
  | .null => "null"
  | .bool b => if b then "true" else "false"
  | .int n => toString n
  | .float x => number x
  | .str s => string s
  | .list items => enclose layout "[" "]" (renderItems layout.inner items)
  | .pair a b =>
    enclose layout "[" "]" [render layout.inner a, render layout.inner b]
  | .map entries => enclose layout "\x7b" "\x7d" (renderEntries layout.inner entries)
  | v => string v.text

def renderItems (layout : Layout) : List Value → List String
  | [] => []
  | x :: xs => render layout x :: renderItems layout xs

def renderEntries (layout : Layout) : List (Value × Value) → List String
  | [] => []
  | (k, v) :: rest => (string (keyText k) ++ ": " ++ render layout v) :: renderEntries layout rest

end

def compact (v : Value) : String :=
  render .line v

/-- A value as JSON with two blanks of indentation per level. -/
def pretty (v : Value) : String :=
  render (.block 2 0) v

end RubyLint.Json
