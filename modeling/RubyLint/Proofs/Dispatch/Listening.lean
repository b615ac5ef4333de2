import Mathlib.Data.List.Induction
import RubyLint.Proofs.Dispatch.Sequence
import RubyLint.Proofs.Registry

/-!
# Which rules listen

Between two documents rules may be registered through the dispatcher, and the registry may be
changed behind its back.  Which rules listen is settled by the first document after the last rule
was registered through the dispatcher, and later documents go by that, while the rules that are
called at the end are those of the registry as it is.  As long as the registry is not changed behind
the back of the dispatcher the two are the same, and a document is investigated as it would be by a
dispatcher that has not seen any.
-/

namespace RubyLint

/-- What can happen to a dispatcher and its registry. -/
inductive Operation where
  /-- A rule is registered through the dispatcher. -/
  | register (rule : Rule Memory)
  /-- A rule is registered in the registry. -/
  | enter (entry : Registered)
  /-- Rules of packages are registered in the registry. -/
  | discover (catalog : Catalog) (packages : List String)
  /-- The registry is emptied. -/
  | clear
  | investigate (document : Document)

namespace Operation

/-- Whether the registry is changed behind the back of the dispatcher. -/
def isDirect : Operation → Bool
  | .enter _ | .discover _ _ | .clear => true
  | .register _ | .investigate _ => false

def isInvestigation : Operation → Bool
  | .investigate _ => true
  | _ => false

/-- Whether the registry is emptied. -/
def isClear : Operation → Bool
  | .clear => true
  | _ => false

end Operation

namespace Dispatcher

/-- What a dispatcher becomes.  A rule whose id is taken is not registered. -/
def perform (d : Dispatcher) : Operation → Dispatcher
  | .register rule =>
    match d.register rule with
    | .ok d' => d'
    | .error _ => d
  | .enter entry =>
    match d.registry.register entry with
    | .ok registry => { d with registry }
    | .error _ => d
  | .discover catalog packages => { d with registry := (d.registry.discover catalog packages).1 }
  | .clear => { d with registry := .empty }
  | .investigate _ => d.prepare

def performAll (d : Dispatcher) (operations : List Operation) : Dispatcher :=
  operations.foldl perform d

/-- A dispatcher of the rules of a registry that has not seen any document. -/
def ofRegistry (registry : Registry) (config : Option Config) : Dispatcher :=
  ⟨registry, config, none⟩

variable {d d' : Dispatcher} {op : Operation} {ops earlier later : List Operation}
variable {document : Document} {config : Option Config} {registry : Registry}
variable {rule : Rule Memory}

theorem performAll_concat (d : Dispatcher) (ops : List Operation) (op : Operation) :
    d.performAll (ops ++ [op]) = (d.performAll ops).perform op := by
  rw [performAll, List.foldl_concat]
  rfl

theorem performAll_append (d : Dispatcher) (earlier later : List Operation) :
    d.performAll (earlier ++ later) = (d.performAll earlier).performAll later :=
  List.foldl_append

/-! ## What one operation does -/

theorem register_spec (h : d.register rule = .ok d') :
    d.registry.Grows d'.registry ∧ d'.config = d.config ∧ d'.listeners = none := by
  obtain ⟨registry, hregistry, h⟩ := bind_eq_ok h
  obtain rfl := Except.ok.inj h
  exact ⟨Registry.register_grows hregistry, rfl, rfl⟩

theorem perform_config (d : Dispatcher) (op : Operation) : (d.perform op).config = d.config := by
  rw [perform.eq_def]
  split
  next =>
    split
    next hregister => exact (register_spec hregister).2.1
    next => rfl
  next =>
    split
    next => rfl
    next => rfl
  next => rfl
  next => rfl
  next => rfl

/-- Every operation but one adds rules after those that are there. -/
theorem perform_grows (d : Dispatcher) (hop : op.isClear = false) :
    d.registry.Grows (d.perform op).registry := by
  rw [perform.eq_def]
  split
  next =>
    split
    next hregister => exact (register_spec hregister).1
    next => exact .refl _
  next =>
    split
    next hregister => exact Registry.register_grows hregister
    next => exact .refl _
  next catalog packages => exact Registry.discover_grows catalog d.registry packages
  next => nomatch hop
  next => exact .refl _

theorem perform_nodup (h : d.registry.ids.Nodup) (op : Operation) :
    (d.perform op).registry.ids.Nodup := by
  cases hop : op.isClear with
  | false => exact (d.perform_grows hop).nodup h
  | true =>
      cases op with
      | clear => exact List.nodup_nil
      | _ => nomatch hop

/-- Whether an operation registers a rule through the dispatcher. -/
def Registers (d : Dispatcher) (op : Operation) : Prop :=
  ∃ rule d', op = .register rule ∧ d.register rule = .ok d'

/-- Only a document settles which rules listen, and only a rule that is registered through the
dispatcher unsettles it. -/
theorem perform_listeners (d : Dispatcher) (op : Operation) :
    (d.Registers op ∧ (d.perform op).listeners = none) ∨
    (¬d.Registers op ∧ op.isInvestigation = true ∧ (d.perform op).listeners = some d.table) ∨
    (¬d.Registers op ∧ op.isInvestigation = false ∧
      (d.perform op).listeners = d.listeners) := by
  cases op with
  | register rule =>
      rw [perform]
      cases hregister : d.register rule with
      | ok d' => exact .inl ⟨⟨rule, d', rfl, hregister⟩, (register_spec hregister).2.2⟩
      | error fault =>
          refine .inr (.inr ⟨?_, rfl, rfl⟩)
          rintro ⟨_, d', ⟨⟩, hregistered⟩
          nomatch hregister.symm.trans hregistered
  | enter entry =>
      rw [perform]
      cases d.registry.register entry <;> exact .inr (.inr ⟨nofun, rfl, rfl⟩)
  | discover catalog packages => exact .inr (.inr ⟨nofun, rfl, rfl⟩)
  | clear => exact .inr (.inr ⟨nofun, rfl, rfl⟩)
  | investigate document => exact .inr (.inl ⟨nofun, rfl, rfl⟩)

/-- The registry stays as it is, unless a rule is registered or it is changed directly. -/
theorem perform_registry (hregisters : ¬d.Registers op) (hdirect : op.isDirect = false) :
    (d.perform op).registry = d.registry := by
  cases op with
  | register rule =>
      rw [perform]
      cases hregister : d.register rule with
      | ok d' => exact absurd ⟨rule, d', rfl, hregister⟩ hregisters
      | error fault => rfl
  | investigate document => rfl
  | enter entry => nomatch hdirect
  | discover catalog packages => nomatch hdirect
  | clear => nomatch hdirect

/-! ## What several operations do -/

theorem performAll_config (d : Dispatcher) (ops : List Operation) :
    (d.performAll ops).config = d.config := by
  induction ops using List.reverseRecOn with
  | nil => rfl
  | append_singleton ops op ih => rw [performAll_concat, perform_config, ih]

theorem performAll_nodup (h : d.registry.ids.Nodup) (ops : List Operation) :
    (d.performAll ops).registry.ids.Nodup := by
  induction ops using List.reverseRecOn with
  | nil => exact h
  | append_singleton ops op ih =>
      rw [performAll_concat]
      exact perform_nodup ih op

/-- Operations none of which registers a rule through the dispatcher. -/
def Quiet (d : Dispatcher) : List Operation → Prop
  | [] => True
  | op :: rest => ¬d.Registers op ∧ (d.perform op).Quiet rest

theorem quiet_concat (hquiet : d.Quiet ops) (hregisters : ¬(d.performAll ops).Registers op) :
    d.Quiet (ops ++ [op]) := by
  induction ops generalizing d with
  | nil => exact ⟨hregisters, trivial⟩
  | cons first rest ih => exact ⟨hquiet.1, ih hquiet.2 hregisters⟩

theorem Quiet.registry_eq (hquiet : d.Quiet ops) (hdirect : ∀ op ∈ ops, op.isDirect = false) :
    (d.performAll ops).registry = d.registry := by
  induction ops generalizing d with
  | nil => rfl
  | cons op rest ih =>
      rw [List.forall_mem_cons] at hdirect
      exact (ih hquiet.2 hdirect.2).trans (perform_registry hquiet.1 hdirect.1)

theorem performAll_grows (d : Dispatcher) (hclear : ∀ op ∈ ops, op.isClear = false) :
    d.registry.Grows (d.performAll ops).registry := by
  induction ops generalizing d with
  | nil => exact .refl _
  | cons op rest ih =>
      rw [List.forall_mem_cons] at hclear
      exact (perform_grows d hclear.1).trans (ih _ hclear.2)

/-- The moment at which it was settled which rules listen. -/
structure Settles (d : Dispatcher) (ops earlier later : List Operation) : Prop where
  split : ops = earlier ++ later
  /-- Up to that moment no document was investigated since a rule was last registered through the
  dispatcher. -/
  unsettled : ∃ before idle, earlier = before ++ idle ∧
    (before = [] ∨ ∃ ops op, before = ops ++ [op] ∧ (d.performAll ops).Registers op) ∧
    ∀ op ∈ idle, op.isInvestigation = false
  /-- At that moment a document was investigated, unless it is still to come. -/
  first : ∀ op ∈ later.head?, op.isInvestigation = true
  /-- Since then no rule was registered through the dispatcher. -/
  quiet : (d.performAll earlier).Quiet later

/-- An operation that registers nothing through the dispatcher changes nothing about what was
settled. -/
theorem Settles.concat_later (h : Settles d ops earlier later)
    (hregisters : ¬(d.performAll ops).Registers op)
    (hfirst : later = [] → op.isInvestigation = true) :
    Settles d (ops ++ [op]) earlier (later ++ [op]) := by
  obtain ⟨rfl, hunsettled, hhead, hquiet⟩ := h
  rw [performAll_append] at hregisters
  refine ⟨List.append_assoc _ _ _, hunsettled, ?_, quiet_concat hquiet hregisters⟩
  cases later with
  | nil => simpa using hfirst
  | cons first rest => exact hhead

/-- What happens before a document is investigated leaves everything to be settled. -/
theorem Settles.concat_earlier (h : Settles d ops earlier [])
    (hidle : op.isInvestigation = false) : Settles d (ops ++ [op]) (earlier ++ [op]) [] := by
  obtain ⟨rfl, ⟨before, idle, rfl, hbefore, hidles⟩, -, -⟩ := h
  refine ⟨by simp, ⟨before, idle ++ [op], by simp, hbefore, ?_⟩, nofun, trivial⟩
  rw [List.forall_mem_append]
  exact ⟨hidles, by simpa using hidle⟩

/-- A rule that is registered through the dispatcher unsettles which rules listen. -/
theorem Settles.of_registers (h : (d.performAll ops).Registers op) :
    Settles d (ops ++ [op]) (ops ++ [op]) [] :=
  ⟨by simp, ⟨ops ++ [op], [], by simp, .inr ⟨ops, op, rfl, h⟩, nofun⟩, nofun, trivial⟩

/-- What a dispatcher keeps of the moment at which it was settled which rules listen. -/
def Keeps (d : Dispatcher) (ops earlier later : List Operation) : Prop :=
  (d.performAll ops).listeners =
    if later = [] then none else some (.ofRules (d.performAll earlier).rules)

/-- The rules that listen are those that were registered at that moment. -/
theorem Settles.table_eq (h : Settles d ops earlier later) (hkeeps : d.Keeps ops earlier later) :
    (d.performAll ops).table = .ofRules (d.performAll earlier).rules := by
  rw [table, hkeeps]
  by_cases hlater : later = []
  · rw [if_pos hlater, h.split, hlater, List.append_nil]
    rfl
  · rw [if_neg hlater]
    rfl

theorem exists_settles (hd : d.listeners = none) (ops : List Operation) :
    ∃ earlier later, Settles d ops earlier later ∧ d.Keeps ops earlier later := by
  induction ops using List.reverseRecOn with
  | nil => exact ⟨[], [], ⟨rfl, ⟨[], [], rfl, .inl rfl, nofun⟩, nofun, trivial⟩, hd⟩
  | append_singleton ops op ih =>
      obtain ⟨earlier, later, h, hkeeps⟩ := ih
      rcases perform_listeners (d.performAll ops) op with
        ⟨hregisters, hop⟩ | ⟨hregisters, hinvestigation, hop⟩ | ⟨hregisters, hidle, hop⟩
      · refine ⟨ops ++ [op], [], .of_registers hregisters, ?_⟩
        rw [Keeps, performAll_concat, hop, if_pos rfl]
      · refine ⟨earlier, later ++ [op], h.concat_later hregisters fun _ => hinvestigation, ?_⟩
        rw [Keeps, performAll_concat, hop, if_neg (by simp), h.table_eq hkeeps]
      · by_cases hlater : later = []
        · subst hlater
          refine ⟨earlier ++ [op], [], h.concat_earlier hidle, ?_⟩
          rw [Keeps, performAll_concat, hop, hkeeps, if_pos rfl, if_pos rfl]
        · refine ⟨earlier, later ++ [op], h.concat_later hregisters (absurd · hlater), ?_⟩
          rw [Keeps, performAll_concat, hop, hkeeps, if_neg hlater, if_neg (by simp)]

/-! ## Investigating with rules that were settled before -/

/-- The callbacks on a document: those at the nodes of the rules that were settled, and those at
the end of the rules that are registered. -/
def heard {μ : Type} (settled rules : List (Rule μ)) (document : Document) : List (Callback μ) :=
  document.top.preorder.flatMap (visits settled) ++ finishes rules document

/-- The callbacks made in a run: at the nodes of the rules that were settled, and at the end of
those that are registered.  What they reported and where they failed is all that was reported and
all that failed. -/
structure Heard {μ : Type} [Inhabited μ] (settled : List (Rule μ)) (d : Dispatcher μ)
    (document : Document) (made : List (Made μ)) : Prop where
  calls : made.map (·.call) = heard settled d.rules document
  course : ∃ settings,
    (∀ rule, ∃ logs, context d.config document rule = .ok (settings rule, logs)) ∧
    made = Dispatcher.course settings (fun _ => default) (heard settled d.rules document)
  investigation : ∃ i, d.investigate document = .ok i ∧
    i.offenses = made.flatMap (·.outcome.offenses) ∧
    i.failures = made.filterMap (Made.failure? document)

/-- A run in which all rules that listen are registered. -/
theorem exists_heard {μ : Type} [Inhabited μ] {d : Dispatcher μ} {settled : List (Rule μ)}
    (htable : d.table = .ofRules settled) (hsettled : ∀ rule ∈ settled, rule ∈ d.rules)
    (hids : (d.rules.map (·.info.id)).Nodup) (hconfig : ∀ c ∈ d.config, c.Tabular)
    (document : Document) : ∃ made, Heard settled d document made := by
  choose settings logs hcontext hinfo using
    fun rule : Rule μ => exists_context_of_tabular hconfig document rule
  have hholds : (opening settings logs d.rules).Holds d.rules settings fun _ => default :=
    opening_holds logs hids fun rule => context_memory (hcontext rule)
  have hregistered : ∀ k ∈ heard settled d.rules document, k.rule ∈ d.rules := by
    intro k hk
    rcases List.mem_append.1 hk with hk | hk
    · obtain ⟨c, -, hk⟩ := List.mem_flatMap.1 hk
      exact hsettled _ (rule_of_mem_visits hk)
    · exact rule_of_mem_finishes hk
  have hdue : (heard settled d.rules document).map Callback.due =
      (document.top.nodes.flatMap fun c => settled.flatMap (atPlace c)) ++
        d.rules.flatMap (atEnd document) := by
    rw [heard, List.map_append, List.map_flatMap, map_due_finishes, Cursor.nodes_eq_preorder]
    simp only [map_due_visits]
  have hstart : d.start document = .ok (opening settings logs d.rules) := by
    rw [← start_fresh hcontext, start, start, fresh_rules]
    rfl
  obtain ⟨hoffenses, hfailures⟩ := hholds.foldl_make document hregistered
  refine ⟨_, map_call_course settings _ _, ⟨settings, fun rule => ⟨_, hcontext rule⟩, rfl⟩, ?_⟩
  rw [investigate, hstart, htable]
  simp only [bind, Except.bind, pure, Except.pure, foldl_visit_make, foldl_finish_make,
    ← List.foldl_append, ← hdue]
  exact ⟨_, rfl, hoffenses, hfailures⟩

/-- Which rules listen is settled by the first document after the last rule was registered through
the dispatcher: they are those that are registered at that moment.  If these are still the rules of
the registry, and so if it was not changed directly since then, a document is investigated as by a
dispatcher over the same registry that has not seen any.  If it was not emptied since then, every
failure is one of a callback. -/
theorem investigate_settled (registry : Registry) (config : Option Config) (ops : List Operation)
    (d : Dispatcher) (hd : d = (ofRegistry registry config).performAll ops)
    (hids : registry.ids.Nodup) :
    ∃ earlier later settled, Settles (ofRegistry registry config) ops earlier later ∧
      settled = (ofRegistry registry config).performAll earlier ∧
      (∀ kind, d.table.atKind kind = settled.rules.flatMap fun rule =>
        List.replicate (rule.info.kinds.count kind) rule) ∧
      (d.rules = settled.rules → ∀ document,
        d.investigate document = (ofRegistry d.registry config).investigate document) ∧
      ((∀ op ∈ later, op.isDirect = false) → d.rules = settled.rules) ∧
      ((∀ op ∈ later, op.isClear = false) → (∀ c ∈ config, c.Tabular) →
        ∀ document, ∃ made, Heard settled.rules d document made) := by
  obtain ⟨earlier, later, h, hkeeps⟩ := exists_settles (d := ofRegistry registry config) rfl ops
  have htable := h.table_eq hkeeps
  have hconfig := performAll_config (ofRegistry registry config) ops
  have hnodup := performAll_nodup (d := ofRegistry registry config) hids ops
  have hafter : d = ((ofRegistry registry config).performAll earlier).performAll later := by
    rw [hd, ← performAll_append, ← h.split]
  rw [← hd] at htable hconfig hnodup
  refine ⟨earlier, later, _, h, rfl, ?_, ?_, ?_, ?_⟩
  · intro kind
    rw [htable, Listeners.atKind_ofRules]
  · intro hrules document
    rw [← hrules] at htable
    obtain rfl : d.config = config := hconfig
    have hfresh : (ofRegistry d.registry d.config).table = .ofRules d.rules := rfl
    rw [investigate, investigate, htable, hfresh]
    rfl
  · intro hdirect
    rw [hafter, rules, h.quiet.registry_eq hdirect, rules]
  · intro hclear htabular document
    have hgrows := ((ofRegistry registry config).performAll earlier).performAll_grows hclear
    rw [← hafter] at hgrows
    refine exists_heard htable (fun rule hrule => hgrows.rules.subset hrule) ?_ ?_ document
    · rw [rules, Registry.rules, List.map_map]
      exact hnodup
    · rw [hconfig]
      exact htabular

/-! ## A rule that is registered after a document -/

/-- A rule that is registered through the dispatcher listens from the next document on. -/
theorem investigate_settled_register :
    ∃ made, Heard [observer] ((ofRegistry .empty (some .standard)).performAll
        [.investigate pair, .register observer]) pair made ∧
      made.map (fun k => (k.call.rule.info.id, k.call.node.kind)) =
        [("observer", "identifier"), ("observer", "identifier"), ("observer", "program")] := by
  obtain ⟨earlier, later, settled, h, -, -, -, hsame, hheard⟩ := investigate_settled .empty
    (some .standard) [.investigate pair, .register observer] _ rfl List.nodup_nil
  have hlater : ∀ op ∈ later, op.isDirect = false ∧ op.isClear = false := by
    intro op hop
    have hops : op ∈ [Operation.investigate pair, .register observer] := by
      rw [h.split]
      exact List.mem_append_right _ hop
    simp only [List.mem_cons, List.not_mem_nil, or_false] at hops
    rcases hops with rfl | rfl
    · exact ⟨rfl, rfl⟩
    · exact ⟨rfl, rfl⟩
  obtain ⟨made, hmade⟩ := hheard (fun op hop => (hlater op hop).2)
    (by simpa using Config.standard_tabular) pair
  rw [← hsame fun op hop => (hlater op hop).1] at hmade
  have hrules : ((ofRegistry .empty (some .standard)).performAll
      [.investigate pair, .register observer]).rules = [observer] := rfl
  rw [hrules] at hmade
  have hcalls := congrArg (List.map fun k => (k.rule.info.id, k.node.kind)) hmade.calls
  rw [List.map_map] at hcalls
  refine ⟨made, hmade, hcalls.trans ?_⟩
  rw [hrules]
  decide +kernel

/-- What a dispatcher finds in a document: the rules and offsets of what is reported, and the rules
that fail. -/
def found (d : Dispatcher) (document : Document) : Option (List (String × Int) × List String) :=
  (d.investigate document).toOption.map fun i =>
    (i.offenses.map fun o => (o.rule, o.start), i.failures.map (·.rule))

/-- A rule that is registered directly after a document is called at the end of the next one, but
not at its nodes.  A rule that was settled before the registry was emptied is called at the nodes of
the next document, and fails there. -/
theorem investigate_settled_enter :
    found ((ofRegistry .empty (some .standard)).performAll
        [.investigate pair, .enter ⟨observer, none⟩]) pair = some ([("observer", 0)], []) ∧
    found (ofRegistry ((ofRegistry .empty (some .standard)).performAll
        [.investigate pair, .enter ⟨observer, none⟩]).registry (some .standard)) pair =
      some ([("observer", 0), ("observer", 2), ("observer", 0)], []) ∧
    found ((ofRegistry .empty (some .standard)).performAll
        [.enter ⟨observer, none⟩, .investigate pair, .clear]) pair =
      some ([], ["observer", "observer"]) :=
  ⟨by decide +kernel, by decide +kernel, by decide +kernel⟩

end Dispatcher

end RubyLint
