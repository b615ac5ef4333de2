import RubyLint.Yaml.Token

/-!
# YAML tags

The tag of a node names its type.  A scalar without a tag of its own gets the one that its form
suggests: a truth value, a number, a date, the absent value, one of two marks for keys, or a text.
A line feed at the end of a scalar is overlooked when its form is told.
-/

namespace RubyLint.Yaml

/-- The tag of a node: one of the core types, or any other. -/
inductive Tag where
  | null
  | bool
  | int
  | float
  | binary
  | timestamp
  | orderedMap
  | pairs
  | set
  | str
  | seq
  | map
  /-- The key under which other mappings are merged. -/
  | merge
  /-- The key of a mapping's default value. -/
  | defaultKey
  | other
deriving DecidableEq, Repr, Inhabited

def Tag.isScalar (tag : Tag) : Bool :=
  [Tag.null, .bool, .int, .float, .binary, .timestamp, .str].contains tag

/-- What the names of the core types start with. -/
def Tag.core : String :=
  "tag:yaml.org,2002:"

def Tag.ofName (name : String) : Tag :=
  let known : List (String × Tag) := [
    ("null", .null), ("bool", .bool), ("int", .int), ("float", .float), ("binary", .binary),
    ("timestamp", .timestamp), ("omap", .orderedMap), ("pairs", .pairs), ("set", .set),
    ("str", .str), ("seq", .seq), ("map", .map)]
  ((known.find? fun entry => core ++ entry.1 == name).map (·.2)).getD .other

def dropSign (s : List Char) : List Char :=
  match s with
  | '+' :: rest => rest
  | '-' :: rest => rest
  | s => s

/-- Whether a text is not empty and all its characters satisfy a test. -/
def allOf (test : Char → Bool) (s : List Char) : Bool :=
  !s.isEmpty && s.all test

def isDigitOr_ (c : Char) : Bool :=
  c.isDigit || c == '_'

/-- A number from 0 to 59, with one digit or two. -/
def isSixtieth (s : List Char) : Bool :=
  match s with
  | [d] => d.isDigit
  | [t, d] => '0' ≤ t && t ≤ '5' && d.isDigit
  | _ => false

/-- Whether a text starts with a digit and goes on with digits and underscores. -/
def isGrouped (s : List Char) : Bool :=
  (s.head?.map Char.isDigit).getD false && s.all isDigitOr_

/-- Whether a text is an exponent with a sign, or empty. -/
def isExponent (s : List Char) : Bool :=
  match s with
  | [] => true
  | e :: sign :: digits => (e == 'e' || e == 'E') && (sign == '+' || sign == '-') &&
      allOf Char.isDigit digits
  | _ => false

/-- Whether a plain scalar is a whole number: binary, octal, decimal, hexadecimal, or to base 60. -/
def isWhole (s : List Char) : Bool :=
  match dropSign s with
  | ['0'] => true
  | '0' :: 'b' :: bits => allOf (fun c => c == '0' || c == '1' || c == '_') bits
  | '0' :: 'x' :: digits => allOf (fun c => isHexDigit c || c == '_') digits
  | '0' :: digits => allOf (fun c => ('0' ≤ c && c ≤ '7') || c == '_') digits
  | digits =>
    match digits.splitOn ':' with
    | first :: rest => isGrouped first && rest.all isSixtieth
    | [] => false

/-- Whether a plain scalar is a real number; it has a point, or is infinite or undefined. -/
def isReal (s : List Char) : Bool :=
  let body := dropSign s
  let words (names : List String) (s : List Char) := names.any fun name => name.toList == s
  let afterPoint (s : List Char) :=
    isExponent (s.dropWhile isDigitOr_)
  if words [".inf", ".Inf", ".INF"] body then true
  else if words [".nan", ".NaN", ".NAN"] s then true
  else
    match s with
    | '.' :: d :: rest => d.isDigit && afterPoint rest
    | _ =>
      let whole := body.takeWhile (· != '.')
      match body.drop whole.length with
      | _ :: fraction =>
        match whole.splitOn ':' with
        | [first] => isGrouped first && afterPoint fraction
        | first :: rest => isGrouped first && rest.all isSixtieth && fraction.all isDigitOr_
        | [] => false
      | [] => false

def truthWords : List String := [
  "yes", "Yes", "YES", "no", "No", "NO", "true", "True", "TRUE", "false", "False", "FALSE",
  "on", "On", "ON", "off", "Off", "OFF"]

/-- The words for the absent value, besides nothing at all. -/
def nullWords : List String :=
  ["~", "null", "Null", "NULL"]

/-- Splits digits off the front of a text, as many as there are but no more than allowed. -/
def splitDigits (most : Nat) (s : List Char) : List Char × List Char :=
  let digits := (s.take most).takeWhile Char.isDigit
  (digits, s.drop digits.length)

/-- The parts of a date and a time of day, as they are written. -/
structure Stamp where
  year : List Char
  month : List Char
  day : List Char
  /-- Hour, minute, second, fraction and, if given, zone: none for UTC, or sign, hour and minute. -/
  time : Option (List Char × List Char × List Char × List Char ×
    Option (Option (Char × List Char × List Char)))

def Stamp.zone? (s : List Char) : Option (Option (Option (Char × List Char × List Char))) :=
  match s.dropWhile fun c => c == ' ' || c == '\t' with
  | [] => if s.isEmpty then some none else none
  | ['Z'] => some (some none)
  | sign :: rest =>
    let (hour, rest) := splitDigits 2 rest
    if (sign != '+' && sign != '-') || hour.isEmpty then none
    else
      match rest with
      | [] => some (some (some (sign, hour, [])))
      | ':' :: minute => if minute.length == 2 && minute.all Char.isDigit then
          some (some (some (sign, hour, minute))) else none
      | _ => none

def Stamp.time? (s : List Char) : Option (List Char × List Char × List Char × List Char ×
    Option (Option (Char × List Char × List Char))) := do
  let (hour, s) := splitDigits 2 s
  let (minute, s) ← match s with | ':' :: s => some (splitDigits 2 s) | _ => none
  let (second, s) ← match s with | ':' :: s => some (splitDigits 2 s) | _ => none
  if hour.isEmpty || minute.length != 2 || second.length != 2 then none
  else
    let (fraction, s) := match s with
      | '.' :: s => (s.takeWhile Char.isDigit, s.dropWhile Char.isDigit)
      | s => ([], s)
    return (hour, minute, second, fraction, ← zone? s)

/-- Reads a date, with or without a time of day. -/
def Stamp.ofText? (s : List Char) : Option Stamp := do
  let (year, s) := splitDigits 4 s
  let (month, s) ← match s with | '-' :: s => some (splitDigits 2 s) | _ => none
  let (day, s) ← match s with | '-' :: s => some (splitDigits 2 s) | _ => none
  if year.length != 4 || month.isEmpty || day.isEmpty then none
  else
    match s with
    | [] => some ⟨year, month, day, none⟩
    | c :: rest =>
      let rest := if c == 'T' || c == 't' then some rest
        else if c == ' ' || c == '\t' then some (rest.dropWhile fun c => c == ' ' || c == '\t')
        else none
      return ⟨year, month, day, some (← time? (← rest))⟩

/-- Whether a plain scalar is a date; without a time of day it has two digits for month and day. -/
def isStamp (s : List Char) : Bool :=
  match Stamp.ofText? s with
  | none => false
  | some stamp => stamp.time.isSome || (stamp.month.length == 2 && stamp.day.length == 2)

/-- A text without the line feed that may end it. -/
def dropLastFeed (text : String) : String :=
  let s := text.toList
  if s.getLast? == some '\n' then String.ofList s.dropLast else text

/-- The tag that the form of a scalar suggests.  A lone indicator, which only quotes can hold, has a
tag that no value has. -/
def plainTag (text : String) : Tag :=
  let word := dropLastFeed text
  let s := word.toList
  if text == "" then .null
  else if truthWords.contains word then .bool
  else if isReal s then .float
  else if isWhole s then .int
  else if word == "<<" then .merge
  else if nullWords.contains word then .null
  else if isStamp s then .timestamp
  else if word == "=" then .defaultKey
  else if ["!", "&", "*"].contains word then .other
  else .str

end RubyLint.Yaml
