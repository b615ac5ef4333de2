import RubyLint.Calendar
import RubyLint.Number.Decimal
import RubyLint.Text.Quoted

/-!
# Values

The values that configuration files, rule options and report metadata hold.  They come from outside
and are not checked against a type, so the operations of the rules meet values of every shape; each
operation that does not apply to a shape says so.  A mapping keeps its entries in the order in which
their keys were first set.

A collection may contain itself.  It is then a loop: it has a label, and the places inside it that
stand for the whole name that label.  Looking into a loop puts the whole in those places, so that a
value at hand never names a label from outside.
-/

namespace RubyLint

/-- A value of a configuration or a report. -/
inductive Value where
  | null
  | bool (b : Bool)
  | int (n : Int)
  | float (x : Float)
  | str (s : String)
  | bytes (data : List UInt8)
  | date (d : Date)
  | moment (m : Moment)
  | list (items : List Value)
  | pair (first second : Value)
  | set (members : List Value)
  | map (entries : List (Value × Value))
  /-- A collection that contains itself. -/
  | loop (label : Nat) (whole : Value)
  /-- The loop around this place that has the label. -/
  | again (label : Nat)
deriving Inhabited

abbrev Table := List (Value × Value)

namespace Value

def typeName : Value → String
  | .null => "NoneType"
  | .bool _ => "bool"
  | .int _ => "int"
  | .float _ => "float"
  | .str _ => "str"
  | .bytes _ => "bytes"
  | .date _ => "datetime.date"
  | .moment _ => "datetime.datetime"
  | .list _ => "list"
  | .pair _ _ => "tuple"
  | .set _ => "set"
  | .map _ => "dict"
  | .loop _ whole => whole.typeName
  | .again _ => "list"

/-- Whether a value counts as present: null, false, zero and everything empty do not. -/
def truthy : Value → Bool
  | .null => false
  | .bool b => b
  | .int n => n != 0
  | .float x => x != 0
  | .str s => s != ""
  | .bytes data => !data.isEmpty
  | .list items => !items.isEmpty
  | .set members => !members.isEmpty
  | .map entries => !entries.isEmpty
  | _ => true

def ofTruth (b : Bool) : Int :=
  if b then 1 else 0

mutual

/-- Equality of values.  Truth values and numbers compare by their numeric value, and mappings and
sets without regard to the order of their entries. -/
def same : Value → Value → Bool
  | .null, .null => true
  | .str s, .str t => s == t
  | .bytes a, .bytes b => a == b
  | .date d, .date e => d == e
  | .moment m, .moment n => m.same n
  | .bool a, .bool b => a == b
  | .bool a, .int n => ofTruth a == n
  | .bool a, .float x => Number.whole? x == some (ofTruth a)
  | .int n, .bool b => n == ofTruth b
  | .int n, .int m => n == m
  | .int n, .float x => Number.whole? x == some n
  | .float x, .bool b => Number.whole? x == some (ofTruth b)
  | .float x, .int n => Number.whole? x == some n
  | .float x, .float y => x == y
  | .list xs, .list ys => sameItems xs ys
  | .pair a b, .pair c d => same a c && same b d
  | .set xs, .set ys => xs.length == ys.length && sameMembers xs ys
  | .map xs, .map ys => xs.length == ys.length && sameEntries xs ys
  | .loop n _, .loop m _ => n == m
  | .again n, .again m => n == m
  | _, _ => false

def sameItems : List Value → List Value → Bool
  | [], [] => true
  | x :: xs, y :: ys => same x y && sameItems xs ys
  | _, _ => false

def sameMembers : List Value → List Value → Bool
  | [], _ => true
  | x :: xs, ys => ys.any (same x) && sameMembers xs ys

def sameEntries : List (Value × Value) → List (Value × Value) → Bool
  | [], _ => true
  | (k, v) :: rest, ys => (ys.any fun entry => same k entry.1 && same v entry.2) &&
      sameEntries rest ys

end

instance : BEq Value := ⟨same⟩

/-- Whether two values are the same key: they are equal, or both are the undefined number. -/
def sameKey : Value → Value → Bool
  | .float x, .float y => x == y || (x.isNaN && y.isNaN)
  | a, b => same a b

mutual

/-- Puts a value in the places that name a label. -/
def replace (label : Nat) (whole : Value) : Value → Value
  | .list items => .list (replaceItems label whole items)
  | .pair a b => .pair (replace label whole a) (replace label whole b)
  | .set members => .set (replaceItems label whole members)
  | .map entries => .map (replaceEntries label whole entries)
  | .loop inner v => if inner == label then .loop inner v else .loop inner (replace label whole v)
  | .again inner => if inner == label then whole else .again inner
  | v => v

def replaceItems (label : Nat) (whole : Value) : List Value → List Value
  | [] => []
  | x :: xs => replace label whole x :: replaceItems label whole xs

def replaceEntries (label : Nat) (whole : Value) : List (Value × Value) → List (Value × Value)
  | [] => []
  | (k, v) :: rest =>
    (replace label whole k, replace label whole v) :: replaceEntries label whole rest

end

/-- Looks into a loop: the collection itself, with the loop in the places that stand for it. -/
def opened : Value → Value
  | .loop label whole => replace label (.loop label whole) whole
  | v => v

/-- One byte in the text of a byte sequence that is quoted by `quote`. -/
def byteShown (quote : Char) (b : UInt8) : List Char :=
  let c := Char.ofNat b.toNat
  if b < 0x7F then Text.quoteChar quote c else Text.codeEscape b.toNat

def bytesShown (data : List UInt8) : String :=
  let single := data.contains 39 && !data.contains 34
  let quote := if single then '"' else '\''
  String.ofList ('b' :: quote :: data.flatMap (byteShown quote) ++ [quote])

/-- What is shown instead of a collection inside itself. -/
def mark : Value → String
  | .map _ => "\x7b...\x7d"
  | .set _ => "set(...)"
  | .pair _ _ => "(...)"
  | _ => "[...]"

mutual

/-- The text of a value as it is shown inside another one: strings are quoted.  `around` has the
loops that are being shown, with what to show when they come up again. -/
def shownIn (around : List (Nat × String)) : Value → String
  | .null => "None"
  | .bool b => if b then "True" else "False"
  | .int n => toString n
  | .float x => Number.floatText x
  | .str s => Text.quoted s
  | .bytes data => bytesShown data
  | .date d => d.shown
  | .moment m => m.shown
  | .list items => "[" ++ String.intercalate ", " (shownItems around items) ++ "]"
  | .pair a b => "(" ++ shownIn around a ++ ", " ++ shownIn around b ++ ")"
  | .set members =>
    if members.isEmpty then "set()"
    else "\x7b" ++ String.intercalate ", " (shownItems around members) ++ "\x7d"
  | .map entries =>
    "\x7b" ++ String.intercalate ", " (shownEntries around entries) ++ "\x7d"
  | .loop label whole =>
    match around.lookup label with
    | some text => text
    | none => shownIn ((label, whole.mark) :: around) whole
  | .again label => (around.lookup label).getD "..."

def shownItems (around : List (Nat × String)) : List Value → List String
  | [] => []
  | x :: xs => shownIn around x :: shownItems around xs

def shownEntries (around : List (Nat × String)) : List (Value × Value) → List String
  | [] => []
  | (k, v) :: rest =>
    (shownIn around k ++ ": " ++ shownIn around v) :: shownEntries around rest

end

/-- The text of a value as it is shown inside another one. -/
def shown (v : Value) : String :=
  shownIn [] v

/-- The text of a value: a string is its own text, and so is that of a date. -/
def text : Value → String
  | .str s => s
  | .date d => d.text
  | .moment m => m.text
  | v => v.shown

end Value

namespace Table

def get? (table : Table) (key : Value) : Option Value :=
  (table.find? fun entry => entry.1.sameKey key).map (·.2)

def lookup? (table : Table) (name : String) : Option Value :=
  get? table (.str name)

/-- Sets a key: an existing entry keeps its place and its key. -/
def set (table : Table) (key value : Value) : Table :=
  match table with
  | [] => [(key, value)]
  | (k, v) :: rest => if k.sameKey key then (k, value) :: rest else (k, v) :: set rest key value

/-- Sets the entries of a second table one after the other. -/
def update (table entries : Table) : Table :=
  entries.foldl (fun t entry => t.set entry.1 entry.2) table

end Table

end RubyLint
