import RubyLint.Rule.Basic
import RubyLint.Rule.Memory

/-!
# Scripted rules

Rules given by data: what they do at a node, and at the end of a document, is a list of actions.
-/

namespace RubyLint

/-- A value that a report fills into its message. -/
inductive Fill where
  | plain (value : Value)
  | option (name : String) (default : Value)
  | counter (name : String)
  | nodeKind
  | nodeText
  | file
  /-- The number of characters of the document. -/
  | size

/-- Where a remark points to. -/
inductive Target where
  | node
  | range (start stop : Int)

/-- What a scripted rule reports. -/
structure Remark where
  target : Target
  /-- Whether offsets count from the start of the node. -/
  relative : Bool
  edits : List Edit
  message : Option String
  severity : Option String
  details : Value
  fills : List (String × Fill)

/-- An action of a scripted rule. -/
inductive Action where
  | count (name : String)
  | fail (text : String)
  | report (remark : Remark)

namespace Action

variable [Machine]

def fillValue (ctx : Context Memory) (memory : Memory) (n : Node) : Fill → Value
  | .plain value => value
  | .option name default => ctx.option name default
  | .counter name => .int (memory.count name)
  | .nodeKind => .str n.kind
  | .nodeText => .str (ctx.document.textOf n)
  | .file => .str ctx.document.path
  | .size => .int ctx.document.text.length

/-- The message of a report: without fills it is not a template. -/
def messageOf (ctx : Context Memory) (memory : Memory) (n : Node) (r : Remark) :
    Except Template.Fault String :=
  let text := r.message.getD ctx.info.message
  if r.fills.isEmpty then .ok text
  else Template.format text (r.fills.map fun entry => (entry.1, fillValue ctx memory n entry.2))

def rangeOf (n : Node) (r : Remark) : Int × Int :=
  match r.target with
  | .node => (n.start, n.stop)
  | .range start stop => if r.relative then (start + n.start, stop + n.start) else (start, stop)

def editsOf (n : Node) (r : Remark) : List Edit :=
  if r.relative then r.edits.map fun e => ⟨e.start + n.start, e.stop + n.start, e.replacement⟩
  else r.edits

def perform (ctx : Context Memory) (n : Node) (memory : Memory) : Action → Outcome Memory
  | .count name => .quiet (memory.increment name)
  | .fail text => .fail memory (.raised text)
  | .report r =>
    .withValue memory ((messageOf ctx memory n r).mapError .template) fun message =>
      .report memory (ctx.offense (rangeOf n r) message (editsOf n r) r.severity r.details)

end Action

/-- A rule from its actions at a node and, if it has any, those at the end, where the node is the
root. -/
def Rule.scripted [Machine] (info : RuleInfo) (atNode : List Action)
    (atEnd : Option (List Action)) : Rule Memory where
  info := info
  visit ctx c := .each ctx.memory atNode (Action.perform ctx c.node)
  finish := atEnd.map fun actions ctx =>
    .each ctx.memory actions (Action.perform ctx ctx.document.root)

end RubyLint
