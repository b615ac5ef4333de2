import RubyLint.Proofs.Dispatch.Independence
import RubyLint.Proofs.Dispatch.Trace
import RubyLint.Proofs.Tree.Preorder

/-!
# The order of the callbacks

A run calls back at every node of the document in pre-order, at a node each rule in the order of
registration, and at the end each rule that asks for it.  Which callbacks there are is settled by
the document and the rules alone: what a callback reports is kept and what it fails at is recorded,
but neither takes a later callback away or adds one.
-/

namespace RubyLint.Dispatcher

variable {μ : Type}

/-- A callback: the rule, the node that it is about, and what the rule does. -/
structure Callback (μ : Type) where
  rule : Rule μ
  node : Node
  act : Context μ → Outcome μ

/-- The callbacks at a node: each rule in order, as often as it names the kind of the node. -/
def visits (rules : List (Rule μ)) (c : Cursor) : List (Callback μ) :=
  rules.flatMap fun rule =>
    List.replicate (rule.info.kinds.count c.node.kind) ⟨rule, c.node, fun ctx => rule.visit ctx c⟩

/-- The callbacks at the end of a document: each rule in order that asks for it. -/
def finishes (rules : List (Rule μ)) (document : Document) : List (Callback μ) :=
  rules.flatMap fun rule => rule.finish.toList.map fun act => ⟨rule, document.root, act⟩

def callbacks (rules : List (Rule μ)) (document : Document) : List (Callback μ) :=
  document.top.preorder.flatMap (visits rules) ++ finishes rules document

/-- A callback that was made, and what came of it. -/
structure Made (μ : Type) where
  call : Callback μ
  outcome : Outcome μ

/-- The failure that a callback leaves, at the line and column of its node. -/
def Made.failure? (document : Document) (k : Made μ) : Option Failure :=
  k.outcome.fault.map fun fault =>
    ⟨k.call.rule.info.id, document.path, k.call.node.start, document.firstLine k.call.node,
      document.column k.call.node, fault.summary⟩

/-- Makes callbacks one after the other.  A rule finds in its memory what its own last callback
left there. -/
def course (settings : Rule μ → Context μ) (memory : String → μ) :
    List (Callback μ) → List (Made μ)
  | [] => []
  | k :: rest =>
    let outcome := k.act { settings k.rule with memory := memory k.rule.info.id }
    ⟨k, outcome⟩ ::
      course settings (Function.update memory k.rule.info.id outcome.memory) rest

/-- What decides when a rule is called back: its id, the kinds that it names and whether it asks for
the end of a document. -/
def interest (rule : Rule μ) : String × List String × Bool :=
  (rule.info.id, rule.info.kinds, rule.finish.isSome)

def Callback.site (k : Callback μ) : String × Node :=
  (k.rule.info.id, k.node)

def Callback.due (k : Callback μ) : Due μ :=
  ⟨k.rule.info.id, k.node, k.act⟩

variable {document : Document} {rules others : List (Rule μ)} {settings : Rule μ → Context μ}
variable {memory : String → μ} {s : Session μ} {k : Callback μ}

/-! ## Which callbacks there are -/

theorem map_due_visits (rules : List (Rule μ)) (c : Cursor) :
    (visits rules c).map Callback.due = rules.flatMap (atPlace c) := by
  simp only [visits, List.map_flatMap, List.map_replicate]
  rfl

theorem map_due_finishes (rules : List (Rule μ)) (document : Document) :
    (finishes rules document).map Callback.due = rules.flatMap (atEnd document) := by
  simp only [finishes, List.map_flatMap, List.map_map]
  rfl

theorem map_due_callbacks (rules : List (Rule μ)) (document : Document) :
    (callbacks rules document).map Callback.due = due rules document := by
  rw [callbacks, List.map_append, List.map_flatMap, map_due_finishes, due,
    Cursor.nodes_eq_preorder]
  simp only [map_due_visits]

theorem rule_of_mem_visits {c : Cursor} (hk : k ∈ visits rules c) : k.rule ∈ rules := by
  obtain ⟨rule, hrule, hk⟩ := List.mem_flatMap.1 hk
  rwa [List.eq_of_mem_replicate hk]

theorem rule_of_mem_finishes (hk : k ∈ finishes rules document) : k.rule ∈ rules := by
  obtain ⟨rule, hrule, hk⟩ := List.mem_flatMap.1 hk
  obtain ⟨act, -, rfl⟩ := List.mem_map.1 hk
  exact hrule

theorem rule_of_mem_callbacks (hk : k ∈ callbacks rules document) : k.rule ∈ rules := by
  rcases List.mem_append.1 hk with hk | hk
  · obtain ⟨c, -, hk⟩ := List.mem_flatMap.1 hk
    exact rule_of_mem_visits hk
  · exact rule_of_mem_finishes hk

/-- Rules of the same interest are called back for the same rules at the same nodes. -/
theorem map_site_callbacks (document : Document)
    (h : others.map interest = rules.map interest) :
    (callbacks others document).map Callback.site =
      (callbacks rules document).map Callback.site := by
  -- The callbacks of a rule at a place read nothing of the rule but its interest.
  have hflat : ∀ (sites : Rule μ → List (String × Node))
      (read : String × List String × Bool → List (String × Node)),
      (∀ rule, sites rule = read (interest rule)) → others.flatMap sites = rules.flatMap sites := by
    intro sites read hread
    calc
      others.flatMap sites = (others.map interest).flatMap read := by
        rw [List.flatMap_map, ← funext hread]
      _ = (rules.map interest).flatMap read := by rw [h]
      _ = rules.flatMap sites := by rw [List.flatMap_map, ← funext hread]
  have hvisits : ∀ c, (visits others c).map Callback.site = (visits rules c).map Callback.site := by
    intro c
    simp only [visits, List.map_flatMap, List.map_replicate]
    exact hflat _ (fun i => List.replicate (i.2.1.count c.node.kind) (i.1, c.node)) fun _ => rfl
  have hfinishes :
      (finishes others document).map Callback.site =
        (finishes rules document).map Callback.site := by
    simp only [finishes, List.map_flatMap, List.map_map]
    refine hflat _ (fun i => if i.2.2 then [(i.1, document.root)] else []) fun rule => ?_
    rw [interest]
    cases rule.finish <;> rfl
  rw [callbacks, callbacks, List.map_append, List.map_append, List.map_flatMap, List.map_flatMap,
    hfinishes]
  simp only [hvisits]

/-! ## Making them -/

theorem map_call_course (settings : Rule μ → Context μ) (memory : String → μ)
    (calls : List (Callback μ)) : (course settings memory calls).map (·.call) = calls := by
  induction calls generalizing memory with
  | nil => rfl
  | cons k rest ih => rw [course, List.map_cons, ih]

/-- Every rule has its own context in a session, with what it remembers. -/
def Session.Holds (rules : List (Rule μ)) (settings : Rule μ → Context μ) (memory : String → μ)
    (s : Session μ) : Prop :=
  ∀ rule ∈ rules, s.contexts.lookup rule.info.id =
    some { settings rule with memory := memory rule.info.id }

/-- One callback adds what it reports and what it fails at, and changes the memory of its rule. -/
theorem Session.Holds.make (h : s.Holds rules settings memory) (hk : k.rule ∈ rules)
    (document : Document) :
    let outcome := k.act { settings k.rule with memory := memory k.rule.info.id }
    (s.make document k.due).Holds rules settings
        (Function.update memory k.rule.info.id outcome.memory) ∧
      (s.make document k.due).offenses = s.offenses ++ outcome.offenses ∧
      (s.make document k.due).failures =
        s.failures ++ (Made.failure? document ⟨k, outcome⟩).toList := by
  intro outcome
  have hlookup : s.contexts.lookup k.due.rule =
      some { settings k.rule with memory := memory k.rule.info.id } := h _ hk
  refine ⟨?_, ?_, ?_⟩
  · intro rule hrule
    have hbefore := h rule hrule
    rw [Session.make_lookup, Session.contextAfter, hbefore, Option.map_some]
    by_cases heq : rule.info.id = k.rule.info.id
    · -- The rule works in the context under its id, so it is the context that agrees.
      rw [heq] at hbefore
      have hcontext := Option.some.inj (hbefore.symm.trans hlookup)
      simp only [Callback.due, heq, if_true, Function.update_self, hcontext, outcome]
    · simp only [Callback.due, heq, if_false, Function.update_of_ne, ne_eq, not_false_eq_true]
  · rw [Session.make_offenses, Session.reports, hlookup]
    rfl
  · rw [Session.make_failures, Session.fault?, hlookup, Made.failure?]
    dsimp only [Callback.due]
    cases outcome.fault <;> rfl

/-- Making callbacks one after the other goes through their course. -/
theorem Session.Holds.foldl_make (h : s.Holds rules settings memory) (document : Document)
    {calls : List (Callback μ)} (hcalls : ∀ k ∈ calls, k.rule ∈ rules) :
    let done := (calls.map Callback.due).foldl (Session.make document) s
    done.offenses =
        s.offenses ++ (course settings memory calls).flatMap (·.outcome.offenses) ∧
      done.failures =
        s.failures ++ (course settings memory calls).filterMap (Made.failure? document) := by
  induction calls generalizing s memory with
  | nil => simp [course]
  | cons k rest ih =>
      obtain ⟨hholds, hoffenses, hfailures⟩ := h.make (hcalls k List.mem_cons_self) document
      obtain ⟨hrest, hrest'⟩ := ih hholds fun k' hk' => hcalls k' (List.mem_cons_of_mem k hk')
      refine ⟨?_, ?_⟩
      · rw [List.map_cons, List.foldl_cons, hrest, hoffenses, course, List.flatMap_cons,
          List.append_assoc]
      · rw [List.map_cons, List.foldl_cons, hrest', hfailures, course, List.append_assoc]
        cases hfailure : Made.failure? document ⟨k, _⟩ <;>
          simp [hfailure]

theorem opening_holds [Inhabited μ] (logs : Rule μ → List Log)
    (hids : (rules.map (·.info.id)).Nodup) (hmemory : ∀ rule, (settings rule).memory = default) :
    (opening settings logs rules).Holds rules settings fun _ => default := by
  intro rule hrule
  rw [lookup_opening settings logs hids hrule, ← hmemory rule]

/-! ## Whole runs -/

/-- The callbacks made in a run of a fresh dispatcher: all callbacks in their order, each in the
context that the earlier ones left; what they reported and where they failed, in the same order, is
all that was reported and all that failed. -/
structure CalledBack [Inhabited μ] (rules : List (Rule μ)) (config : Option Config)
    (document : Document) (made : List (Made μ)) : Prop where
  calls : made.map (·.call) = callbacks rules document
  course : ∃ settings, (∀ rule, ∃ logs, context config document rule = .ok (settings rule, logs)) ∧
    made = course settings (fun _ => default) (callbacks rules document)
  investigation : ∃ d i, ofRules rules config = .ok d ∧ d.investigate document = .ok i ∧
    i.offenses = made.flatMap (·.outcome.offenses) ∧
    i.failures = made.filterMap (Made.failure? document)

theorem exists_calledBack [Inhabited μ] {config : Option Config}
    (hids : (rules.map (·.info.id)).Nodup) (hconfig : ∀ c ∈ config, c.Tabular) :
    ∃ made, CalledBack rules config document made := by
  choose settings logs hcontext hinfo using
    fun rule : Rule μ => exists_context_of_tabular hconfig document rule
  have hholds : (opening settings logs rules).Holds rules settings fun _ => default :=
    opening_holds logs hids fun rule => context_memory (hcontext rule)
  obtain ⟨hoffenses, hfailures⟩ := hholds.foldl_make document fun _ => rule_of_mem_callbacks
  rw [map_due_callbacks] at hoffenses hfailures
  exact ⟨_, map_call_course settings _ _, ⟨settings, fun rule => ⟨_, hcontext rule⟩, rfl⟩,
    _, _, ofRules_eq config hids, investigate_fresh hcontext, hoffenses, hfailures⟩

theorem CalledBack.map_site [Inhabited μ] {config : Option Config} {made : List (Made μ)}
    (h : CalledBack rules config document made) :
    made.map (·.call.site) = (callbacks rules document).map Callback.site := by
  rw [← h.calls, List.map_map]
  rfl

theorem map_id_eq (rules : List (Rule μ)) :
    rules.map (·.info.id) = (rules.map interest).map (·.1) := by
  rw [List.map_map]
  rfl

/-- A run of rules with different ids calls back at every node in pre-order and then at the end of
the document, whatever the callbacks report and whatever they fail at: rules of the same interest
that do something else are called back for the same rules at the same nodes. -/
theorem investigate_callbacks [Inhabited μ] (rules : List (Rule μ)) (config : Option Config)
    (document : Document) (hids : (rules.map (·.info.id)).Nodup)
    (hconfig : ∀ c ∈ config, c.Tabular) :
    ∃ made, CalledBack rules config document made ∧
      ∀ others : List (Rule μ), others.map interest = rules.map interest →
        ∃ made', CalledBack others config document made' ∧
          made'.map (·.call.site) = made.map (·.call.site) := by
  obtain ⟨made, hmade⟩ := exists_calledBack hids hconfig
  refine ⟨made, hmade, ?_⟩
  intro others hothers
  have hids' : (others.map (·.info.id)).Nodup := by
    rw [map_id_eq, hothers, ← map_id_eq]
    exact hids
  obtain ⟨made', hmade'⟩ := exists_calledBack hids' hconfig
  refine ⟨made', hmade', ?_⟩
  rw [hmade'.map_site, hmade.map_site, map_site_callbacks document hothers]

/-- A rule that fails is called back as often as before it failed, between the callbacks of the
others, and each time leaves a failure at its node. -/
theorem investigate_callbacks_crasher :
    (callbacks [crasher, observer] pair).map (fun k => (k.rule.info.id, k.node.kind)) =
      [("crasher", "identifier"), ("observer", "identifier"), ("crasher", "identifier"),
        ("observer", "identifier"), ("observer", "program")] ∧
    ∃ made, CalledBack [crasher, observer] (some .standard) pair made ∧
      (made.filterMap (Made.failure? pair)).map (fun f => (f.rule, f.line, f.column)) =
        [("crasher", 1, 0), ("crasher", 1, 2)] := by
  obtain ⟨made, hmade, -⟩ := investigate_callbacks [crasher, observer] (some .standard) pair
    (by decide) (by simpa using Config.standard_tabular)
  obtain ⟨d, i, hd, hi, -, hfailures⟩ := hmade.investigation
  refine ⟨by decide +kernel, made, hmade, ?_⟩
  have hrun : ((ofRules [crasher, observer] (some .standard)).toOption.bind fun d =>
      (d.investigate pair).toOption.map fun i =>
        i.failures.map fun f => (f.rule, f.line, f.column)) =
      some [("crasher", 1, 0), ("crasher", 1, 2)] := by
    decide +kernel
  rw [hd, Except.toOption, Option.bind_some, hi] at hrun
  rw [← hfailures]
  exact Option.some.inj hrun

end RubyLint.Dispatcher
