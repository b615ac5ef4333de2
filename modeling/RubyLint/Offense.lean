import RubyLint.Edit.Script
import RubyLint.Value

/-!
# Offenses

A violation of a rule at a range of a file, with the edits that would correct it.  Every offense has
a message and covers at least one byte from offset 0 on.  A finding is an offense with the number
under which it was emitted, which tells apart offenses that are otherwise equal.
-/

namespace RubyLint

/-- A violation reported by a rule. -/
structure Offense where
  rule : String
  message : String
  file : String
  start : Int
  stop : Int
  severity : String
  edits : List Edit
  details : Value
deriving Inhabited

/-- Why an offense cannot be reported. -/
inductive OffenseFault where
  | noMessage (rule : String)
  | emptyRange (rule : String) (start stop : Int)
deriving DecidableEq, Repr

def OffenseFault.message : OffenseFault → String
  | .noMessage rule => s!"Offense from {rule} needs a message"
  | .emptyRange rule start stop =>
    s!"Offense from {rule} needs a non-empty range, got [{start}, {stop})"

namespace Offense

def severities : List String :=
  ["info", "warn", "error"]

def checked (o : Offense) : Except OffenseFault Offense :=
  if o.message == "" then .error (.noMessage o.rule)
  else if o.start < 0 ∨ o.stop ≤ o.start then .error (.emptyRange o.rule o.start o.stop)
  else .ok o

def correctable (o : Offense) : Bool :=
  !o.edits.isEmpty

def withEdits (o : Offense) (edits : List Edit) : Offense :=
  { o with edits }

def same (a b : Offense) : Bool :=
  a.rule == b.rule && a.message == b.message && a.file == b.file && a.start == b.start &&
    a.stop == b.stop && a.severity == b.severity && a.edits == b.edits && a.details == b.details

end Offense

/-- An offense and its number in the order of emission. -/
structure Finding where
  serial : Nat
  offense : Offense
deriving Inhabited

namespace Finding

def number (offenses : List Offense) : List Finding :=
  offenses.mapIdx fun i o => ⟨i, o⟩

abbrev Ranks := List (String × Int)

/-- The rank of a rule; rules without one share the rank after the number of ranked rules. -/
def rankOf (ranks : Ranks) (rule : String) : Int :=
  (ranks.lookup rule).getD ranks.length

/-- Findings grouped by the rank of their rule; the order within a group is kept. -/
def byRule (ranks : Ranks) (findings : List Finding) : List Finding :=
  findings.mergeSort fun a b => rankOf ranks a.offense.rule ≤ rankOf ranks b.offense.rule

/-- Whether one finding is placed before another: by start, then end, then rank. -/
def placedBefore (ranks : Ranks) (a b : Finding) : Bool :=
  a.offense.start < b.offense.start ||
    (a.offense.start == b.offense.start &&
      (a.offense.stop < b.offense.stop ||
        (a.offense.stop == b.offense.stop &&
          rankOf ranks a.offense.rule ≤ rankOf ranks b.offense.rule)))

/-- Findings by place; ties keep their order. -/
def byPlace (ranks : Ranks) (findings : List Finding) : List Finding :=
  findings.mergeSort (placedBefore ranks)

end Finding

end RubyLint
