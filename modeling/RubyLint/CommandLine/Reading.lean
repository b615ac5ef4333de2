import RubyLint.CommandLine.Options

/-!
# Reading a command line

Every argument is first classified by itself: a switch, possibly with a value attached to it, or an
operand.  A long switch may be shortened as long as one switch remains, and short switches without
values may share one dash.  Then the arguments are read from left to right.  Only the first
uninterrupted run of operands counts as paths; further operands and unknown switches are collected
and refused at the end.
-/

namespace RubyLint.CommandLine

/-- A value attached to a switch, and whether an equals sign stands before it. -/
structure Attached where
  marked : Bool
  value : List Char
deriving DecidableEq, Repr

/-- The class of an argument. -/
inductive Word where
  | operand
  /-- The mark after which every argument is an operand. -/
  | separator
  | switch (switch : Switch) (short : Bool) (attached : Option Attached)
  | unknown
deriving DecidableEq, Repr

def splitValue (argument : List Char) : List Char × Option Attached :=
  let name := argument.takeWhile (· != '=')
  match argument.drop name.length with
  | [] => (name, none)
  | _ :: value => (name, some ⟨true, value⟩)

def isShort (spelling : List Char) : Bool :=
  (spelling.drop 1).head? != some '-'

/-- A switch that is written out, possibly with a value after an equals sign. -/
def spelledOut? (argument : List Char) : Option Word :=
  let (name, attached) := splitValue argument
  match Switch.find? (String.ofList argument), Switch.find? (String.ofList name) with
  | some switch, _ => some (.switch switch (isShort argument) none)
  | none, some switch => some (.switch switch (isShort name) attached)
  | none, none => none

/-- The spellings that an argument can stand for, with the words that they make of it. -/
def candidates (argument : List Char) : List (String × Word) :=
  if isShort argument then
    let spelling := String.ofList (argument.take 2)
    match Switch.find? spelling with
    | some switch => [(spelling, .switch switch true (some ⟨false, argument.drop 2⟩))]
    | none => []
  else
    let (name, attached) := splitValue argument
    (Switch.table.filter fun entry => name.isPrefixOf entry.1.toList).map fun entry =>
      (entry.1, .switch entry.2 false attached)

/-- Whether an argument is a negative number in decimal, possibly with a line feed after it. -/
def isNegativeNumber (argument : List Char) : Bool :=
  match argument with
  | '-' :: body =>
    let body := if body.getLast? == some '\n' then body.dropLast else body
    let fraction := (body.dropWhile Text.isDigit).drop 1
    (!body.isEmpty && body.all Text.isDigit) ||
      ((body.dropWhile Text.isDigit).head? == some '.' && !fraction.isEmpty &&
        fraction.all Text.isDigit)
  | _ => false

def classify (argument : String) : Except UsageFault Word :=
  let s := argument.toList
  if s.head? != some '-' then .ok .operand
  else
    match spelledOut? s with
    | some word => .ok word
    | none =>
      if s.length == 1 then .ok .operand
      else
        match candidates s with
        | [(_, word)] => .ok word
        | [] => .ok (if isNegativeNumber s || s.contains ' ' then .operand else .unknown)
        | several => .error (.ambiguous argument (several.map (·.1)))

def classifyAll : List String → Except UsageFault (List (String × Word))
  | [] => .ok []
  | argument :: rest =>
    if argument == "--" then
      .ok ((argument, .separator) :: rest.map fun operand => (operand, .operand))
    else do
      let word ← classify argument
      return (argument, word) :: (← classifyAll rest)

/-- The operands that count as paths. -/
inductive Operands where
  | none
  /-- The run of operands is going on. -/
  | growing (arguments : List String)
  | closed (arguments : List String)

/-- The run of operands ends, if it has begun. -/
def Operands.close : Operands → Operands
  | .growing arguments => .closed arguments
  | operands => operands

/-- The paths that the operands name; the first separator is no path. -/
def Operands.paths? : Operands → Option (List String)
  | .none => Option.none
  | .growing arguments => some (arguments.erase "--")
  | .closed arguments => some (arguments.erase "--")

/-- A reading under way. -/
structure Reading where
  options : Options := {}
  operands : Operands := .none
  /-- A switch whose value comes next. -/
  awaiting : Option Switch := none
  refused : List String := []

namespace Reading

def takeOperand (r : Reading) (argument : String) : Reading :=
  match r.operands with
  | .none => { r with operands := .growing [argument] }
  | .growing arguments => { r with operands := .growing (arguments ++ [argument]) }
  | .closed _ => { r with refused := r.refused ++ [argument] }

/-- The switches of a cluster after its first one, and what is left of it if a letter is unknown.
The switches before a fault have no effect. -/
def cluster (switch : Switch) (attached : Attached) :
    Nat → Except UsageFault (List Switch × Option String)
  | 0 => .ok ([switch], none)
  | fuel + 1 =>
    match attached.value with
    | [] => .error (.needlessValue switch "")
    | letter :: rest =>
      if attached.marked || letter == '-' then
        .error (.needlessValue switch (String.ofList attached.value))
      else
        match Switch.find? (String.ofList ['-', letter]) with
        | none => .ok ([switch], some (String.ofList ('-' :: attached.value)))
        | some next =>
          match rest with
          | [] => .ok ([switch, next], none)
          | '=' :: value => do
            let (more, left) ← cluster next ⟨true, value⟩ fuel
            return (switch :: more, left)
          | _ => do
            let (more, left) ← cluster next ⟨false, rest⟩ fuel
            return (switch :: more, left)

def takeSwitch (r : Reading) (switch : Switch) (short : Bool) (attached : Option Attached) :
    Except Refusal Reading := do
  let r := { r with operands := r.operands.close }
  match attached with
  | none =>
    if switch.takesValue then return { r with awaiting := some switch }
    else return { r with options := ← r.options.turnOn switch }
  | some attached =>
    if switch.takesValue then
      return { r with options := ← r.options.set switch (String.ofList attached.value) }
    else if short then
      let (switches, left) ←
        (cluster switch attached (attached.value.length + 1)).mapError .usage
      return { r with
        options := ← switches.foldlM Options.turnOn r.options
        refused := r.refused ++ left.toList }
    else throw (.usage (.needlessValue switch (String.ofList attached.value)))

def take (r : Reading) (argument : String) (word : Word) : Except Refusal Reading :=
  match r.awaiting, word with
  | some switch, .operand => do
    return { r with options := ← r.options.set switch argument, awaiting := none }
  | some switch, _ => .error (.usage (.missingValue switch))
  | none, .operand => .ok (r.takeOperand argument)
  | none, .separator => .ok (r.takeOperand argument)
  | none, .switch switch short attached => r.takeSwitch switch short attached
  | none, .unknown =>
    .ok { r with operands := r.operands.close, refused := r.refused ++ [argument] }

def finish (r : Reading) : Except Refusal Options :=
  match r.awaiting with
  | some switch => .error (.usage (.missingValue switch))
  | none =>
    if r.refused.isEmpty then
      match r.operands.paths? with
      | some (path :: rest) => .ok { r.options with paths := path :: rest }
      | _ => .ok r.options
    else .error (.usage (.unrecognized r.refused))

end Reading

end RubyLint.CommandLine

namespace RubyLint

def Options.ofArguments (arguments : List String) : Except Refusal Options := do
  let words ← (CommandLine.classifyAll arguments).mapError .usage
  let reading ← words.foldlM (fun r word => r.take word.1 word.2) ({} : CommandLine.Reading)
  reading.finish

end RubyLint
