import RubyLint.Calendar.Pattern
import RubyLint.Text.Template.Format

/-!
# Items of template fields

What the fields of a template stand for.  A field may step into a value by the name of a part or by
an index, so it can also come to the type of a value or to a detail that only has a text.
-/

namespace RubyLint.Template

/-- What a field stands for: a value, the type of one, or a part of one that only has a text. -/
inductive Item where
  | value (v : Value)
  | kind (type : String)
  | detail (type shown text : String)

mutual

/-- Whether a value holds a number that is too long to be written. -/
def isLong : Value → Bool
  | .int n => longNumber ≤ n.natAbs
  | .list items => anyLong items
  | .pair a b => isLong a || isLong b
  | .set members => anyLong members
  | .map entries => anyLongEntry entries
  | .loop _ whole => isLong whole
  | _ => false

def anyLong : List Value → Bool
  | [] => false
  | x :: xs => isLong x || anyLong xs

def anyLongEntry : List (Value × Value) → Bool
  | [] => false
  | (k, v) :: rest => isLong k || isLong v || anyLongEntry rest

end

namespace Item

def typeName : Item → String
  | .value v => v.typeName
  | .kind _ => "type"
  | .detail type _ _ => type

def shown : Item → Except Fault String
  | .value v => if isLong v then .error .tooLong else .ok v.shown
  | .kind type => .ok s!"<class '{type}'>"
  | .detail _ shown _ => .ok shown

def text : Item → Except Fault String
  | .value v => if isLong v then .error .tooLong else .ok v.text
  | .detail _ _ text => .ok text
  | item => item.shown

def ofNat (n : Nat) : Item :=
  .value (.int n)

def ofDate? (d : Date) : String → Option Item
  | "year" => some (ofNat d.year)
  | "month" => some (ofNat d.month)
  | "day" => some (ofNat d.day)
  | "min" => some (.value (.date Date.first))
  | "max" => some (.value (.date Date.last))
  | "resolution" =>
    some (.detail "datetime.timedelta" "datetime.timedelta(days=1)" "1 day, 0:00:00")
  | _ => none

def ofMoment? (m : Moment) : String → Option Item
  | "hour" => some (ofNat m.hour)
  | "minute" => some (ofNat m.minute)
  | "second" => some (ofNat m.second)
  | "microsecond" => some (ofNat m.micros)
  | "fold" => some (ofNat 0)
  | "tzinfo" => some (match m.zone with
    | none => .value .null
    | some zone => .detail "datetime.timezone" (Calendar.zoneShown zone) (Calendar.zoneName zone))
  | "min" => some (.value (.moment Date.first.midnight))
  | "max" => some (.value (.moment ⟨Date.last, 23, 59, 59, 999999, none⟩))
  | "resolution" =>
    some (.detail "datetime.timedelta" "datetime.timedelta(microseconds=1)" "0:00:00.000001")
  | name => ofDate? m.date name

def ofWhole? (n : Int) : String → Option Item
  | "real" | "numerator" => some (.value (.int n))
  | "imag" => some (ofNat 0)
  | "denominator" => some (ofNat 1)
  | _ => none

/-- The named parts of a value besides its type. -/
def ofValue? (v : Value) (name : String) : Option Item :=
  match v with
  | .bool b => ofWhole? (Value.ofTruth b) name
  | .int n => ofWhole? n name
  | .float _ =>
    if name == "real" then some (.value v)
    else if name == "imag" then some (.value (.float 0))
    else none
  | .date d => ofDate? d name
  | .moment m => ofMoment? m name
  | _ => none

def ofKind? (type : String) (name : String) : Option Item :=
  let parts := type.splitOn "."
  match name with
  | "__name__" | "__qualname__" => some (.value (.str (parts.getLast?.getD type)))
  | "__module__" =>
    some (.value (.str (if parts.length == 1 then "builtins" else parts.head?.getD "")))
  | _ => none

def part (item : Item) (name : String) : Except Fault Item :=
  if name == "__class__" then .ok (.kind item.typeName)
  else
    let found := match item with
      | .value v => ofValue? v name
      | .kind type => ofKind? type name
      | .detail _ _ _ => none
    match found, item with
    | some part, _ => .ok part
    | none, .kind type => .error (.noTypeAttribute type name)
    | none, item => .error (.use (.noAttribute item.typeName name))

end Item

variable [Machine]

/-- An item by its format; without one it is its text. -/
def formatItem (item : Item) (format : List Char) : Except Fault (List Char) :=
  if format.isEmpty then item.text.map String.toList
  else match item with
    | .value (.str s) => formatText s.toList format
    | .value (.int n) => formatInt "int" n format
    | .value (.bool b) => formatInt "bool" (Value.ofTruth b) format
    | .value (.float x) => do formatReal (← readFormat "float" '>' format) "float" x
    | .value (.date d) => .ok (Calendar.byPattern format d.midnight)
    | .value (.moment m) => .ok (Calendar.byPattern format m)
    | item => .error (.noFormat item.typeName)

/-- The item of a sequence at an index; `sequence` names it when there is none. -/
def itemAt {α : Type} (sequence : String) (xs : List α) (index : Nat) : Except Fault α :=
  match xs[index]? with
  | some x => .ok x
  | none => .error (.outOfRange sequence)

/-- Steps into a value by an index between brackets: a number, or the name of a key. -/
def stepIndex (v : Value) (key : List Char) : Except Fault Value := do
  match v.opened, ← number? key with
  | .str s, some i => return .str (String.singleton (← itemAt "string " s.toList i))
  | .bytes data, some i => return .int (← itemAt "" data i).toNat
  | .list xs, some i => itemAt "list " xs i
  | .pair a b, some i => itemAt "tuple " [a, b] i
  | .map entries, index =>
    let k : Value := match index with | some i => .int i | none => .str (String.ofList key)
    match Table.get? entries k with
    | some x => return x
    | none => throw (.unknownKey k.shown)
  | .str _, none => throw (.use (.badTextIndex "str"))
  | .bytes _, none => throw (.use (.badIndex "byte" "str"))
  | .list _, none => throw (.use (.badIndex "list" "str"))
  | .pair _ _, none => throw (.use (.badIndex "tuple" "str"))
  | v, _ => throw (.use (.notSubscriptable v.typeName))

def Item.index (item : Item) (key : List Char) : Except Fault Item :=
  match item with
  | .value v => (stepIndex v key).map .value
  | .kind type => .error (.noTypeIndex type)
  | .detail type _ _ => .error (.use (.notSubscriptable type))

end RubyLint.Template
