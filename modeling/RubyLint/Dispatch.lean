import RubyLint.Registry

/-!
# Dispatch

A dispatcher walks a document once, each node before its children, and calls at every node the rules
that listen to its kind, in the order of registration; when the walk is over, the rules that ask for
it are called once more.  Each rule has its own context on the document, so no rule sees what
another one remembers or reports, and a call that fails is recorded while the run goes on.  What
rules remember is of any one type.

Which rules listen is settled by the first document and stays so until a rule is registered through
the dispatcher.
-/

namespace RubyLint

/-- A call of a rule that failed. -/
structure Failure where
  rule : String
  file : String
  start : Int
  line : Int
  column : Int
  error : String
deriving DecidableEq, Repr

def Failure.describe (f : Failure) : String :=
  s!"{f.file}:{f.line}:{f.column}: rule '{f.rule}' failed: {f.error}"

/-- The rules that listen to each kind of node, in the order of registration. -/
abbrev Listeners (μ : Type := Memory) := List (String × List (Rule μ))

namespace Listeners

variable {μ : Type}

def add (rule : Rule μ) : Listeners μ → String → Listeners μ
  | [], kind => [(kind, [rule])]
  | (key, rules) :: rest, kind =>
    if kind == key then (key, rules ++ [rule]) :: rest else (key, rules) :: add rule rest kind

/-- The table of some rules: each is entered once under every kind that it names. -/
def ofRules (rules : List (Rule μ)) : Listeners μ :=
  rules.foldl (fun table rule => rule.info.kinds.foldl (add rule) table) []

def atKind (table : Listeners μ) (kind : String) : List (Rule μ) :=
  (table.lookup kind).getD []

theorem atKind_add (rule : Rule μ) (table : Listeners μ) (named kind : String) :
    (add rule table named).atKind kind =
      table.atKind kind ++ if named = kind then [rule] else [] := by
  induction table with
  | nil =>
      by_cases heq : named = kind
      · simp [add, atKind, heq]
      · simp [add, atKind, List.lookup_cons, heq, beq_eq_false_iff_ne.2 (Ne.symm heq)]
  | cons entry rest ih =>
      obtain ⟨key, rules⟩ := entry
      simp only [atKind] at ih
      by_cases hkind : kind = key
      · by_cases hnamed : named = key
        · simp [add, atKind, hkind, hnamed]
        · simp [add, atKind, hkind, hnamed]
      · have hmiss : (kind == key) = false := beq_eq_false_iff_ne.2 hkind
        by_cases hnamed : named = key
        · have hne : key ≠ kind := Ne.symm hkind
          simp [add, atKind, List.lookup_cons, hmiss, hnamed, hne]
        · simp [add, atKind, List.lookup_cons, hmiss, hnamed, ih]

theorem atKind_foldl_add (rule : Rule μ) (table : Listeners μ) (kinds : List String)
    (kind : String) : (kinds.foldl (add rule) table).atKind kind =
      table.atKind kind ++ List.replicate (kinds.count kind) rule := by
  induction kinds generalizing table with
  | nil => simp
  | cons named rest ih =>
      rw [List.foldl_cons, ih, atKind_add, List.append_assoc]
      by_cases heq : named = kind
      · rw [if_pos heq, heq, List.count_cons_self, List.replicate_succ, List.singleton_append]
      · rw [if_neg heq, List.count_cons_of_ne heq, List.nil_append]

/-- At a node of a kind every rule is called as often as it names the kind. -/
theorem atKind_ofRules (rules : List (Rule μ)) (kind : String) :
    (ofRules rules).atKind kind =
      rules.flatMap fun rule => List.replicate (rule.info.kinds.count kind) rule := by
  suffices ∀ table : Listeners μ, (rules.foldl (fun table rule =>
      rule.info.kinds.foldl (add rule) table) table).atKind kind = table.atKind kind ++
        rules.flatMap fun rule => List.replicate (rule.info.kinds.count kind) rule from this []
  induction rules with
  | nil => simp
  | cons rule rest ih =>
      intro table
      rw [List.foldl_cons, ih, atKind_foldl_add, List.flatMap_cons, List.append_assoc]

end Listeners

/-- Rules, the configuration that they run under and, once a document was investigated, the table of
those that listen. -/
structure Dispatcher (μ : Type := Memory) where
  registry : Registry μ
  config : Option Config
  listeners : Option (Listeners μ) := none

/-- What came of a document. -/
structure Investigation where
  offenses : List Offense
  failures : List Failure
  ranks : Finding.Ranks
  logs : List Log

namespace Investigation

/-- The findings in the order of emission. -/
def findings (i : Investigation) : List Finding :=
  Finding.number i.offenses

def ordered (i : Investigation) : List Finding :=
  Finding.byRule i.ranks i.findings

def sorted (i : Investigation) : List Finding :=
  Finding.byPlace i.ranks i.findings

end Investigation

namespace Dispatcher

variable {μ : Type}

def ofRules (rules : List (Rule μ)) (config : Option Config) :
    Except RegistryFault (Dispatcher μ) := do
  return ⟨← Registry.ofRules rules, config, none⟩

def rules (d : Dispatcher μ) : List (Rule μ) :=
  d.registry.rules

/-- Registers a rule, which listens from now on. -/
def register (d : Dispatcher μ) (rule : Rule μ) : Except RegistryFault (Dispatcher μ) := do
  return { d with registry := ← d.registry.register ⟨rule, none⟩, listeners := none }

/-- The table of the rules that listen; it is built only once. -/
def table (d : Dispatcher μ) : Listeners μ :=
  d.listeners.getD (.ofRules d.rules)

def prepare (d : Dispatcher μ) : Dispatcher μ :=
  { d with listeners := some d.table }

/-- The context of a rule at the start of a document, and the warnings of finding it. -/
def context [Inhabited μ] (config : Option Config) (document : Document) (rule : Rule μ) :
    Except ValueFault (Context μ × List Log) := do
  match config with
  | none => return (.start document rule.info [] none default, [])
  | some config =>
    let options ← config.optionsFor rule.info.id
    let (severity, logs) ← config.severityFor rule.info.id rule.info.severity
    return (.start document rule.info options (some severity) default, logs)

/-- A run under way: the context of each rule, and what came of the calls so far. -/
structure Session (μ : Type := Memory) where
  contexts : List (String × Context μ)
  offenses : List Offense
  failures : List Failure
  logs : List Log

def Session.remember (s : Session μ) (rule : String) (memory : μ) : Session μ :=
  { s with contexts := s.contexts.map fun entry =>
      if entry.1 == rule then (entry.1, { entry.2 with memory }) else entry }

/-- Records that a call at a node failed. -/
def Session.fail (s : Session μ) (document : Document) (rule : String) (n : Node)
    (fault : RuleFault) : Session μ :=
  let (line, column) := document.lines.position n.start
  { s with
    failures := s.failures ++ [⟨rule, document.path, n.start, line, column, fault.summary⟩]
    logs := s.logs ++ [.warn "commissioner"
      s!"Rule '{rule}' failed on {document.path}:{line}:{column}: {fault.message}"] }

/-- Calls a rule at a node.  The rule works in the context of its id; without one the call fails. -/
def Session.call (s : Session μ) (document : Document) (rule : String) (n : Node)
    (act : Context μ → Outcome μ) : Session μ :=
  match s.contexts.lookup rule with
  | none => s.fail document rule n (.noContext rule)
  | some ctx =>
    let outcome := act ctx
    let s := { s.remember rule outcome.memory with offenses := s.offenses ++ outcome.offenses }
    match outcome.fault with
    | none => s
    | some fault => s.fail document rule n fault

def Session.visit (listeners : Listeners μ) (document : Document) (s : Session μ)
    (c : Cursor) : Session μ :=
  (listeners.atKind c.node.kind).foldl
    (fun s rule => s.call document rule.info.id c.node fun ctx => rule.visit ctx c) s

def Session.finish (document : Document) (s : Session μ) (rule : Rule μ) : Session μ :=
  match rule.finish with
  | none => s
  | some act => s.call document rule.info.id document.root act

def start [Inhabited μ] (d : Dispatcher μ) (document : Document) :
    Except ValueFault (Session μ) := do
  let contexts ← d.rules.mapM fun rule => do
    return (rule.info.id, ← context d.config document rule)
  return ⟨contexts.map fun entry => (entry.1, entry.2.1), [], [],
    contexts.flatMap fun entry => entry.2.2⟩

def investigate [Inhabited μ] (d : Dispatcher μ) (document : Document) :
    Except ValueFault Investigation := do
  let walked := document.top.nodes.foldl (Session.visit d.table document) (← d.start document)
  let done := d.rules.foldl (Session.finish document) walked
  let ranks := d.registry.ids.mapIdx fun i id => (id, (i : Int))
  return ⟨done.offenses, done.failures, ranks, done.logs⟩

end Dispatcher

end RubyLint
