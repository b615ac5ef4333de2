import RubyLint.Value

/-!
# Schemas of values

What a value of a report has to look like.  Checking a value lists every violation, with the way
from the value to the place of the violation; of these, the one nearest to the whole value is the
one to show.
-/

namespace RubyLint

inductive ValueType where
  | text
  | whole
  | number
  | absent
  | list
  | record
deriving DecidableEq, Repr

namespace ValueType

def name : ValueType → String
  | .text => "string"
  | .whole => "integer"
  | .number => "number"
  | .absent => "null"
  | .list => "array"
  | .record => "object"

/-- Whether a value has a type.  A floating point number without a fraction is a whole number, and a
truth value is no number. -/
def has : ValueType → Value → Bool
  | .text, .str _ => true
  | .whole, .int _ => true
  | .whole, .float x => (Number.whole? x).isSome
  | .number, .int _ => true
  | .number, .float _ => true
  | .absent, .null => true
  | .list, .list _ => true
  | .record, .map _ => true
  | _, _ => false

end ValueType

/-- What a schema demands of a value beyond its type. -/
inductive Limit where
  | free
  /-- A number is at least this. -/
  | least (bound : Int)
  /-- A text has a character. -/
  | nonEmpty
  /-- The value is one of these texts. -/
  | oneOf (texts : List String)
deriving DecidableEq, Repr

inductive Schema where
  | plain (types : List ValueType) (limit : Limit)
  | list (item : Schema)
  /-- A mapping with no other keys than the fields, some of which have to be there. -/
  | record (fields : List (String × Schema)) (required : List String)

/-- What is wrong at one place. -/
inductive Problem where
  | wrongType (value : Value) (types : List ValueType)
  | tooSmall (value : Value) (bound : Int)
  | empty
  | notOneOf (value : Value) (texts : List String)
  | missing (field : String)
  | unexpected (fields : List String)

def Problem.message : Problem → String
  | .wrongType value types =>
    let names := ", ".intercalate (types.map fun type => Text.quoted type.name)
    s!"{value.shown} is not of type {names}"
  | .tooSmall value bound => s!"{value.shown} is less than the minimum of {bound}"
  | .empty => "'' should be non-empty"
  | .notOneOf value texts =>
    let names := ", ".intercalate (texts.map Text.quoted)
    s!"{value.shown} is not one of [{names}]"
  | .missing field => Text.quoted field ++ " is a required property"
  | .unexpected fields =>
    let names := ", ".intercalate (fields.map Text.quoted)
    let verb := if fields.length == 1 then "was" else "were"
    s!"Additional properties are not allowed ({names} {verb} unexpected)"

/-- One step from a value into it. -/
inductive Violation.Step where
  | item (index : Nat)
  | field (name : String)
deriving DecidableEq, Repr

/-- Whether a step comes before another one: by index, by name, items before fields. -/
def Violation.Step.before : Violation.Step → Violation.Step → Bool
  | .item i, .item j => i < j
  | .item _, .field _ => true
  | .field _, .item _ => false
  | .field a, .field b => a < b

/-- A problem, the way to its place, and whether the value there has a wrong type. -/
structure Violation where
  path : List Violation.Step
  problem : Problem
  mistyped : Bool

namespace Violation

/-- A violation seen from one step further out. -/
def under (step : Step) (v : Violation) : Violation :=
  { v with path := step :: v.path }

/-- Whether a way comes before another one: by the first step in which they differ. -/
def pathBefore : List Step → List Step → Bool
  | [], path => !path.isEmpty
  | _ :: _, [] => false
  | a :: as, b :: bs => if a == b then pathBefore as bs else a.before b

/-- Whether the second violation is to be shown rather than the first: it is nearer to the whole
value, or as near and later, or at the same place and about the type. -/
def yieldsTo (a b : Violation) : Bool :=
  if b.path.length != a.path.length then b.path.length < a.path.length
  else if a.path != b.path then pathBefore a.path b.path
  else !a.mistyped && b.mistyped

/-- The first violation that yields to no other one. -/
def best? : List Violation → Option Violation
  | [] => none
  | v :: rest => some (rest.foldl (fun best v => if best.yieldsTo v then v else best) v)

end Violation

namespace Limit

/-- Whether a number is less than a bound; other values are not. -/
def isBelow (bound : Int) : Value → Bool
  | .int n => n < bound
  | .float x => x < Float.ofInt bound
  | _ => false

def problems (limit : Limit) (value : Value) : List Problem :=
  match limit with
  | .free => []
  | .least bound => if isBelow bound value then [.tooSmall value bound] else []
  | .nonEmpty => if value == .str "" then [.empty] else []
  | .oneOf texts => if texts.any fun s => value == .str s then [] else [.notOneOf value texts]

end Limit

namespace Schema

def hasType (types : List ValueType) (value : Value) : Bool :=
  types.any fun type => type.has value

def typeProblems (types : List ValueType) (value : Value) : List Problem :=
  if hasType types value then [] else [.wrongType value types]

/-- Problems of a whole value of some types. -/
def here (types : List ValueType) (value : Value) (problems : List Problem) : List Violation :=
  problems.map fun problem => ⟨[], problem, !hasType types value⟩

def missingFields (required : List String) (entries : Table) : List Problem :=
  (required.filter fun name => (Table.lookup? entries name).isNone).map .missing

def unexpectedFields (names : List String) (entries : Table) : List Problem :=
  let keys := (entries.map fun entry => entry.1.text).filter fun key => !names.contains key
  if keys.isEmpty then [] else [.unexpected (keys.mergeSort (· ≤ ·))]

mutual

def violations : Schema → Value → List Violation
  | .plain types limit, value =>
    here types value (typeProblems types value ++ limit.problems value)
  | .list item, value =>
    here [.list] value (typeProblems [.list] value) ++
      match value with
      | .list items => (items.mapIdx fun i v => (violations item v).map (.under (.item i))).flatten
      | _ => []
  | .record fields required, value =>
    here [.record] value (typeProblems [.record] value) ++
      match value with
      | .map entries =>
        fieldViolations fields entries ++
          here [.record] value (missingFields required entries ++
            unexpectedFields (fields.map (·.1)) entries)
      | _ => []

def fieldViolations : List (String × Schema) → Table → List Violation
  | [], _ => []
  | (name, schema) :: rest, entries =>
    (match Table.lookup? entries name with
      | some value => (violations schema value).map (.under (.field name))
      | none => []) ++ fieldViolations rest entries

end

def message? (schema : Schema) (value : Value) : Option String :=
  (Violation.best? (schema.violations value)).map fun v => v.problem.message

end Schema

end RubyLint
