import RubyLint.Fault
import RubyLint.Indexing
import RubyLint.Value

/-!
# Using values

What rules and the engine do with values that come from a configuration.  A text counts as the
sequence of its characters and a mapping as the sequence of its keys; an absent value counts as an
empty sequence where the user asks for one.  Every other mismatch is a fault.
-/

namespace RubyLint

/-- Why a value cannot be used. -/
inductive ValueFault where
  | notIterable (type : String)
  | notContainer (type : String)
  | unhashable (type : String)
  | noAttribute (type name : String)
  | notSubscriptable (type : String)
  | cannotAdd (type : String)
  | cannotRepeat (type : String)
  | cannotCompare (type : String)
  | cannotSlice
  | notText (type : String)
  | notPair (position : Nat)
  | wrongPair (position length : Nat)
  | badIndex (sequence type : String)
  | badTextIndex (type : String)
  | hugeRepeat
  | noMemory
deriving DecidableEq, Repr

namespace ValueFault

def cls : ValueFault → FaultClass
  | .noAttribute _ _ => .attribute
  | .wrongPair _ _ => .value
  | .hugeRepeat => .overflow
  | .noMemory => .memory
  | _ => .type

def message : ValueFault → String
  | .notIterable type => s!"'{type}' object is not iterable"
  | .notContainer type => s!"argument of type '{type}' is not iterable"
  | .unhashable type => s!"unhashable type: '{type}'"
  | .noAttribute type name => s!"'{type}' object has no attribute '{name}'"
  | .notSubscriptable type => s!"'{type}' object is not subscriptable"
  | .cannotAdd type => s!"unsupported operand type(s) for +: 'int' and '{type}'"
  | .cannotRepeat type => s!"can't multiply sequence by non-int of type '{type}'"
  | .cannotCompare type => s!"'>' not supported between instances of 'int' and '{type}'"
  | .cannotSlice => "a limit must be a whole number"
  | .notText type => s!"expected a text, not {type}"
  | .notPair position =>
    s!"cannot convert dictionary update sequence element #{position} to a sequence"
  | .wrongPair position length =>
    s!"dictionary update sequence element #{position} has length {length}; 2 is required"
  | .badIndex sequence type => s!"{sequence} indices must be integers or slices, not {type}"
  | .badTextIndex type => s!"string indices must be integers, not '{type}'"
  | .hugeRepeat => "cannot fit 'int' into an index-sized integer"
  | .noMemory => ""

end ValueFault

namespace Value

def items (v : Value) : Except ValueFault (List Value) :=
  match v.opened with
  | .list xs => .ok xs
  | .set xs => .ok xs
  | .pair a b => .ok [a, b]
  | .str s => .ok (s.toList.map fun c => .str (String.singleton c))
  | .bytes data => .ok (data.map fun b => .int b.toNat)
  | .map entries => .ok (entries.map (·.1))
  | v => .error (.notIterable v.typeName)

/-- The items of a sequence, none if the value counts as absent. -/
def itemsOrNone (v : Value) : Except ValueFault (List Value) :=
  if v.truthy then v.items else .ok []

/-- The type because of which a value cannot be a key or a member of a set: collections that may
change cannot. -/
def unhashable? : Value → Option String
  | .list _ => some "list"
  | .map _ => some "dict"
  | .set _ => some "set"
  | .pair a b => a.unhashable?.or b.unhashable?
  | .loop _ whole => whole.unhashable?
  | _ => none

def members (v : Value) : Except ValueFault (List Value) := do
  let xs ← v.itemsOrNone
  match xs.findSome? unhashable? with
  | some type => throw (.unhashable type)
  | none => return xs

def ofText? : Option String → Value
  | none => .null
  | some s => .str s

def addTo (n : Int) : Value → Except ValueFault Value
  | .int m => .ok (.int (n + m))
  | .bool b => .ok (.int (n + ofTruth b))
  | .float x => .ok (.float (Float.ofInt n + x))
  | v => .error (.cannotAdd v.typeName)

/-- The bound of the sizes that a machine word can say. -/
def sizeBound : Int :=
  0x8000000000000000

end Value

/-- The machine that the tool runs on. -/
class Machine where
  /-- The bound of the sizes of texts that fit into memory. -/
  memoryBound : Int
  memoryBound_pos : 0 < memoryBound
  memoryBound_le : memoryBound ≤ Value.sizeBound

/-- A machine for runs on fixed inputs. -/
instance Machine.small : Machine where
  memoryBound := 0x100000000
  memoryBound_pos := by decide
  memoryBound_le := by decide

namespace Value

/-- As many blanks as a value says; none if it is negative. -/
def blanks [Machine] : Value → Except ValueFault String
  | .int n =>
    if n < -sizeBound || sizeBound ≤ n then .error .hugeRepeat
    else if Machine.memoryBound ≤ n then .error .noMemory
    else .ok (String.ofList (List.replicate n.toNat ' '))
  | .bool b => .ok (String.ofList (List.replicate (ofTruth b).toNat ' '))
  | v => .error (.cannotRepeat v.typeName)

/-- The key and the value that an item of a list of entries stands for. -/
def asEntry (position : Nat) (v : Value) : Except ValueFault (Value × Value) :=
  match v.items with
  | .error _ => .error (.notPair position)
  | .ok [key, value] =>
    match key.unhashable? with
    | some type => .error (.unhashable type)
    | none => .ok (key, value)
  | .ok parts => .error (.wrongPair position parts.length)

/-- The entries that the items of a list stand for, numbered from a position on. -/
def asEntries (position : Nat) : List Value → Except ValueFault Table
  | [] => .ok []
  | v :: rest => do
    let entry ← v.asEntry position
    return entry :: (← asEntries (position + 1) rest)

/-- The entries of a mapping, or those that a sequence of pairs lists. -/
def toEntries (v : Value) : Except ValueFault Table :=
  match v.opened with
  | .map entries => .ok entries
  | _ => do asEntries 0 (← v.items)

/-- The table that a value describes; empty if the value counts as absent. -/
def toTable (v : Value) : Except ValueFault Table := do
  if v.truthy then return Table.update [] (← v.toEntries) else return []

end Value

end RubyLint
