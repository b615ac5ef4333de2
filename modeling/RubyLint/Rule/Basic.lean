import RubyLint.Offense
import RubyLint.Pattern.Match
import RubyLint.Text.Template

/-!
# Rules

A rule is visited at every node of the kinds it names and may be called once more when a document is
finished.  A call sees the document, the rule's options and severity and what the rule remembered
from its earlier calls on the same document; it answers with the offenses it reported, its new
memory and, if it failed, why.  What was reported before a failure stays reported.
-/

namespace RubyLint

/-- What is known about a rule before it runs. -/
structure RuleInfo where
  id : String
  category : String
  description : String := ""
  message : String := ""
  kinds : List String := []
  severity : String := "warn"
  autocorrect : Bool := false
  options : Table := []
  languages : List String := ["ruby"]

def RuleInfo.severityFault (info : RuleInfo) : String :=
  s!"Unknown severity '{info.severity}' for rule {info.id}"

def RuleInfo.hasKnownSeverity (info : RuleInfo) : Bool :=
  Offense.severities.contains info.severity

/-- Why a call of a rule failed. -/
inductive RuleFault where
  /-- The rule gave up with a text of its own. -/
  | raised (text : String)
  | offense (fault : OffenseFault)
  | template (fault : Template.Fault)
  | value (fault : ValueFault)
  | pattern (fault : Pattern.Fault)
  /-- The rule was called without a context of its own. -/
  | noContext (rule : String)
deriving DecidableEq, Repr

def RuleFault.cls : RuleFault → FaultClass
  | .raised _ => .runtime
  | .offense _ => .value
  | .template fault => fault.cls
  | .value fault => fault.cls
  | .pattern _ => .pattern
  | .noContext _ => .key

def RuleFault.message : RuleFault → String
  | .raised text => text
  | .offense fault => fault.message
  | .template fault => fault.message
  | .value fault => fault.message
  | .pattern fault => fault.message
  | .noContext rule => Text.quoted rule

def RuleFault.summary (fault : RuleFault) : String :=
  fault.cls.name ++ ": " ++ fault.message

/-- What a call of a rule sees.  `μ` is the type of its memory. -/
structure Context (μ : Type) where
  document : Document
  info : RuleInfo
  options : Table
  severity : String
  memory : μ

namespace Context

variable {μ : Type}

/-- The context of a rule at the start of a document: the options given override those of the rule,
and so does a severity that is not empty. -/
def start (document : Document) (info : RuleInfo) (options : Table) (severity : Option String)
    (memory : μ) : Context μ where
  document := document
  info := info
  options := Table.update info.options options
  severity := (severity.filter (· != "")).getD info.severity
  memory := memory

/-- The value of an option, or a default if it is not set at all. -/
def option (ctx : Context μ) (name : String) (default : Value) : Value :=
  (Table.lookup? ctx.options name).getD default

/-- The offense that a report makes.  Edits are dropped unless the rule corrects, and a severity
that is empty counts as none. -/
def offense (ctx : Context μ) (range : Int × Int) (message : String) (edits : List Edit)
    (severity : Option String) (details : Value) : Except OffenseFault Offense :=
  ({ rule := ctx.info.id, message, file := ctx.document.path, start := range.1, stop := range.2,
     severity := (severity.filter (· != "")).getD ctx.severity,
     edits := if ctx.info.autocorrect then edits else [], details } : Offense).checked

end Context

/-- What a call of a rule did. -/
structure Outcome (μ : Type) where
  offenses : List Offense
  memory : μ
  fault : Option RuleFault

namespace Outcome

variable {μ : Type}

def quiet (memory : μ) : Outcome μ :=
  ⟨[], memory, none⟩

def fail (memory : μ) (fault : RuleFault) : Outcome μ :=
  ⟨[], memory, some fault⟩

def report (memory : μ) : Except OffenseFault Offense → Outcome μ
  | .ok o => ⟨[o], memory, none⟩
  | .error fault => fail memory (.offense fault)

/-- Goes on with a second part of the call unless the first one failed. -/
def andThen (first : Outcome μ) (next : μ → Outcome μ) : Outcome μ :=
  match first.fault with
  | some _ => first
  | none =>
    let second := next first.memory
    { second with offenses := first.offenses ++ second.offenses }

/-- Goes on with a value unless computing it failed. -/
def withValue {α : Type} (memory : μ) (value : Except RuleFault α) (next : α → Outcome μ) :
    Outcome μ :=
  match value with
  | .error fault => fail memory fault
  | .ok a => next a

/-- One part of the call after the other, up to the first that fails. -/
def each {α : Type} (memory : μ) (items : List α) (act : μ → α → Outcome μ) : Outcome μ :=
  items.foldl (fun outcome a => outcome.andThen fun m => act m a) (quiet memory)

end Outcome

/-- A rule whose memory has type `μ`. -/
structure Rule (μ : Type) where
  info : RuleInfo
  visit : Context μ → Cursor → Outcome μ
  finish : Option (Context μ → Outcome μ) := none

end RubyLint
