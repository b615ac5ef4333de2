import RubyLint.Text.Template.Item

/-!
# Message templates

A template is a text with fields in curly brackets; doubled brackets stand for themselves.  A field
names a value, may step into it, may ask for its quoted form and may end with a format, or with the
pattern of a date.  Fields are filled from left to right, and the first fault ends the work.
-/

namespace RubyLint.Template

/-- A field: its name with the steps into it, its conversion, and its format, which may hold fields
of its own. -/
structure Field where
  name : List Char
  conversion : Option Char
  format : List Char
  nested : Bool

/-- The name of a field, the character that ends it and what follows. -/
def fieldName (name : List Char) : List Char → Except Fault (List Char × Char × List Char)
  | [] => .error .unclosedField
  | c :: rest =>
    if c == '\x7b' then .error .openInName
    else if c == '\x7d' || c == ':' || c == '!' then .ok (name.reverse, c, rest)
    else if c == '[' then
      fieldIndex (c :: name) rest
    else fieldName (c :: name) rest
where
  /-- The rest of an index, up to its bracket. -/
  fieldIndex (name : List Char) : List Char → Except Fault (List Char × Char × List Char)
    | [] => .error .unclosedField
    | c :: rest => if c == ']' then fieldName (c :: name) rest else fieldIndex (c :: name) rest

/-- A format up to the bracket that closes its field, and whether it holds fields. -/
def fieldFormat (depth : Nat) (format : List Char) (nested : Bool) :
    List Char → Except Fault (List Char × Bool × List Char)
  | [] => .error .unclosedFormat
  | c :: rest =>
    if c == '\x7b' then fieldFormat (depth + 1) (c :: format) true rest
    else if c == '\x7d' then
      match depth with
      | 0 => .ok (format.reverse, nested, rest)
      | depth + 1 => fieldFormat depth (c :: format) nested rest
    else fieldFormat depth (c :: format) nested rest

def readField (s : List Char) : Except Fault (Field × List Char) := do
  let (name, stop, rest) ← fieldName [] s
  if stop == '\x7d' then return (⟨name, none, [], false⟩, rest)
  if stop == ':' then
    let (format, nested, rest) ← fieldFormat 0 [] false rest
    return (⟨name, none, format, nested⟩, rest)
  match rest with
  | [] => throw .noConversion
  | [_] => throw .unclosedFormat
  | c :: '\x7d' :: rest => return (⟨name, some c, [], false⟩, rest)
  | c :: ':' :: rest =>
    let (format, nested, rest) ← fieldFormat 0 [] false rest
    return (⟨name, some c, format, nested⟩, rest)
  | _ => throw .textAfterConversion

def follow (item : Item) : Nat → List Char → Except Fault Item
  | _, [] => .ok item
  | 0, _ => .ok item
  | fuel + 1, c :: rest =>
    if c == '.' then
      let name := rest.takeWhile fun c => c != '.' && c != '['
      if name.isEmpty then .error .emptyStep
      else do follow (← item.part (String.ofList name)) fuel (rest.drop name.length)
    else if c == '[' then
      let key := rest.takeWhile (· != ']')
      if key.length == rest.length then .error .noMissingBracket
      else if key.isEmpty then .error .emptyStep
      else do follow (← item.index key) fuel (rest.drop (key.length + 1))
    else .error .strayStep

/-- The item of a field name.  There are no positional values, so a number names none. -/
def fieldItem (fields : List (String × Value)) (name : List Char) : Except Fault Item := do
  let first := name.takeWhile fun c => c != '.' && c != '['
  if first.isEmpty then throw (.positional 0)
  match ← number? first with
  | some position => throw (.positional position)
  | none =>
    match fields.lookup (String.ofList first) with
    | none => throw (.unknownField (String.ofList first))
    | some v => follow (.value v) name.length (name.drop first.length)

/-- A quoted form with everything beyond ASCII escaped. -/
def asciiOnly (shown : String) : String :=
  String.ofList (shown.toList.flatMap fun c =>
    if c.toNat < 128 then [c] else Text.codeEscape (Text.codeOf c))

def convert (conversion : Option Char) (item : Item) : Except Fault Item :=
  let asText (s : String) : Item := .value (.str s)
  match conversion with
  | none => .ok item
  | some 's' => item.text.map asText
  | some 'r' => item.shown.map asText
  | some 'a' => item.shown.map fun s => asText (asciiOnly s)
  | some c => .error (.unknownConversion c)

variable [Machine]

/-- Fills a template; formats may hold fields down to a depth. -/
def fill (fields : List (String × Value)) : Nat → Nat → List Char → Except Fault (List Char)
  | 0, _, _ => .ok []
  | _ + 1, 0, _ => .error .tooDeep
  | _ + 1, _ + 1, [] => .ok []
  | fuel + 1, depth + 1, c :: rest =>
    if c == '\x7d' then
      match rest with
      | '\x7d' :: rest => (fill fields fuel (depth + 1) rest).map ('\x7d' :: ·)
      | _ => .error .singleClose
    else if c == '\x7b' then
      match rest with
      | [] => .error .singleOpen
      | '\x7b' :: rest => (fill fields fuel (depth + 1) rest).map ('\x7b' :: ·)
      | rest => do
        let (field, rest) ← readField rest
        let item ← convert field.conversion (← fieldItem fields field.name)
        let format ← if field.nested then fill fields fuel depth field.format else pure field.format
        let text ← formatItem item format
        return text ++ (← fill fields fuel (depth + 1) rest)
    else (fill fields fuel (depth + 1) rest).map (c :: ·)

def format (template : String) (fields : List (String × Value)) : Except Fault String :=
  (fill fields (template.length + 1) 2 template.toList).map String.ofList

end RubyLint.Template
