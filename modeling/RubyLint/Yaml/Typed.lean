import RubyLint.Number.Reading
import RubyLint.Text.Base64
import RubyLint.Value.Use
import RubyLint.Yaml.Tag

/-!
# Typed scalars

The value that the text of a scalar stands for by its tag.  Numbers may be grouped by underscores
and written to base 2, 8, 16 and 60; dates may have a time of day and a zone; bytes are written in
base 64.
-/

namespace RubyLint.Yaml

def ungrouped (text : String) : List Char :=
  text.toList.filter (· != '_')

/-- The sum of places to base 60, the last place first; `base` is the weight of the first. -/
def sixtieths (base : Int) : List Int → Int
  | [] => 0
  | digit :: rest => digit * base + sixtieths (base * 60) rest

def wholeOf (text : String) : Except Fault Value :=
  let s := ungrouped text
  let (negative, body) := Number.splitSign s
  if body.isEmpty then .error .emptyScalar
  else
    let number : Option Int :=
      match body with
      | '0' :: 'b' :: digits => Number.wholeIn? 2 digits
      | '0' :: 'x' :: digits => Number.wholeIn? 16 digits
      | '0' :: _ => Number.wholeIn? 8 body
      | _ =>
        if body.contains ':' then
          ((body.splitOn ':').mapM (Number.wholeIn? 10)).map fun parts =>
            sixtieths 1 parts.reverse
        else Number.wholeIn? 10 body
    match number with
    | none => .error .badValue
    | some n => .ok (.int (if negative then -n else n))

/-- The sum of places to base 60, the last place first, in the order in which rounding adds them.  A
weight that is beyond all floating point numbers cannot be computed with. -/
def realSixtieths (sum : Float) (base : Nat) : List Float → Except Fault Float
  | [] => .ok sum
  | digit :: rest =>
    let weight := Number.scaled base 0
    if weight.isInf then .error .tooLarge
    else realSixtieths (sum + digit * weight) (base * 60) rest

def realOf (text : String) : Except Fault Value :=
  let s := (ungrouped text).map Char.toLower
  let (negative, body) := Number.splitSign s
  let signed (x : Float) : Value := .float (if negative then -x else x)
  if s.isEmpty then .error .emptyScalar
  else if body == ".inf".toList then .ok (signed (1 / 0))
  else if body == ".nan".toList then .ok (.float (0 / 0))
  else if body.contains ':' then
    match (body.splitOn ':').mapM Number.real? with
    | none => .error .badValue
    | some parts => (realSixtieths 0 1 parts.reverse).map signed
  else
    match Number.real? body with
    | none => .error .badValue
    | some x => .ok (signed x)

def truthOf (text : String) : Except Fault Value :=
  let word := String.ofList (text.toList.map Char.toLower)
  if ["yes", "true", "on"].contains word then .ok (.bool true)
  else if ["no", "false", "off"].contains word then .ok (.bool false)
  else .error .unknownWord

/-- The number that decimal digits write; 0 for none. -/
def decimal (digits : List Char) : Nat :=
  (Number.digitsIn? 10 digits).getD 0

/-- The minutes of a zone east of UTC; it is less than a day away. -/
def zoneOf (zone : Option (Char × List Char × List Char)) : Except Fault Int :=
  match zone with
  | none => .ok 0
  | some (sign, hour, minute) =>
    let minutes := decimal hour * 60 + decimal minute
    if 24 * 60 ≤ minutes then .error .badValue
    else .ok (if sign == '-' then -(minutes : Int) else minutes)

def stampOf (text : String) : Except Fault Value := do
  match Stamp.ofText? (dropLastFeed text).toList with
  | none => throw .noDate
  | some stamp =>
    let date : Date := ⟨decimal stamp.year, decimal stamp.month, decimal stamp.day⟩
    match stamp.time with
    | none => if date.isValid then return .date date else throw .badValue
    | some (hour, minute, second, fraction, zone) =>
      let zone ← zone.mapM zoneOf
      let micros := decimal ((fraction ++ List.replicate 6 '0').take 6)
      let m : Moment := ⟨date, decimal hour, decimal minute, decimal second, micros, zone⟩
      if date.isValid && m.hour < 24 && m.minute < 60 && m.second < 60 then return .moment m
      else throw .badValue

/-- A byte sequence; it is written in ASCII. -/
def bytesOf (text : String) : Except Fault Value :=
  match Base64.decode? text.toList with
  | none => .error .malformed
  | some data => if text.toList.all fun c => c.toNat < 128 then .ok (.bytes data)
      else .error .malformed

/-- The value of a scalar; `written` tells whether its text is its own. -/
def scalarValue (tag : Tag) (written : Bool) (text : String) : Except Fault Value :=
  match tag with
  | .null => .ok .null
  | .bool => truthOf text
  | .int => wholeOf text
  | .float => realOf text
  | .timestamp => if written then stampOf text else .error .mappingForDate
  | .binary => bytesOf text
  | .str => .ok (.str text)
  | _ => .error .malformed

end RubyLint.Yaml
