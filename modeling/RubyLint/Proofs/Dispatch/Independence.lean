import RubyLint.Proofs.Config
import RubyLint.Proofs.Lookup
import RubyLint.Proofs.Offense
import RubyLint.Proofs.Registry
import RubyLint.Proofs.Rule.Reporting

/-!
# Independence of rules

A run makes one call after the other, each in the context of its own rule.  What a rule reports,
where it fails and what it remembers depends on its own calls alone; so in a run with other rules it
reports and fails exactly as in a run of its own, whatever the others report, remember or fail at.
-/

namespace RubyLint.Dispatcher

variable {μ : Type}

/-- A call that is due: the rule, the node at which a failure is recorded, and what the call
does. -/
structure Due (μ : Type) where
  rule : String
  node : Node
  act : Context μ → Outcome μ

def atPlace (c : Cursor) (rule : Rule μ) : List (Due μ) :=
  List.replicate (rule.info.kinds.count c.node.kind)
    ⟨rule.info.id, c.node, fun ctx => rule.visit ctx c⟩

def atEnd (document : Document) (rule : Rule μ) : List (Due μ) :=
  rule.finish.toList.map fun act => ⟨rule.info.id, document.root, act⟩

/-- The calls that are due on a document: at each place those of the rules in order, and those at
the end. -/
def due (rules : List (Rule μ)) (document : Document) : List (Due μ) :=
  document.top.nodes.flatMap (fun c => rules.flatMap (atPlace c)) ++ rules.flatMap (atEnd document)

def Session.make (document : Document) (s : Session μ) (k : Due μ) : Session μ :=
  s.call document k.rule k.node k.act

variable {document : Document} {rules : List (Rule μ)} {r : Rule μ} {id : String} {s t : Session μ}
variable {k : Due μ}

/-! ## The calls of a rule among those of all rules -/

theorem rule_of_mem_atPlace {c : Cursor} (h : k ∈ atPlace c r) : k.rule = r.info.id := by
  rw [List.eq_of_mem_replicate h]

theorem rule_of_mem_atEnd (h : k ∈ atEnd document r) : k.rule = r.info.id := by
  obtain ⟨act, -, rfl⟩ := List.mem_map.1 h
  rfl

/-- The calls of a rule among those of all rules are the calls of that rule alone. -/
theorem filter_due (document : Document) (hids : (rules.map (·.info.id)).Nodup) (hr : r ∈ rules) :
    (due rules document).filter (·.rule == r.info.id) = due [r] document := by
  have hplace : ∀ c ∈ document.top.nodes,
      (rules.flatMap (atPlace c)).filter (·.rule == r.info.id) = [r].flatMap (atPlace c) := by
    intro c _
    rw [List.flatMap_singleton]
    exact filter_flatMap_name (fun _ _ => rule_of_mem_atPlace) hids hr
  have hend : (rules.flatMap (atEnd document)).filter (·.rule == r.info.id) =
      [r].flatMap (atEnd document) := by
    rw [List.flatMap_singleton]
    exact filter_flatMap_name (fun _ _ => rule_of_mem_atEnd) hids hr
  rw [due, due, List.filter_append, List.filter_flatMap, List.flatMap_congr hplace, hend]

/-! ## One call -/

def failureAt (document : Document) (rule : String) (n : Node) (fault : RuleFault) : Failure :=
  ⟨rule, document.path, n.start, (document.lines.position n.start).1,
    (document.lines.position n.start).2, fault.summary⟩

def Session.reports (s : Session μ) (k : Due μ) : List Offense :=
  ((s.contexts.lookup k.rule).map fun ctx => (k.act ctx).offenses).getD []

/-- What is reported by a call is reported through the context of its rule. -/
theorem Session.mem_reports_iff {s : Session μ} {k : Due μ} {o : Offense} :
    o ∈ s.reports k ↔ ∃ ctx, s.contexts.lookup k.rule = some ctx ∧ o ∈ (k.act ctx).offenses := by
  rw [Session.reports]
  cases s.contexts.lookup k.rule <;> simp

/-- Why a call fails, if it does. -/
def Session.fault? (s : Session μ) (k : Due μ) : Option RuleFault :=
  match s.contexts.lookup k.rule with
  | none => some (.noContext k.rule)
  | some ctx => (k.act ctx).fault

def Session.contextAfter (s : Session μ) (k : Due μ) (id : String) : Option (Context μ) :=
  (s.contexts.lookup id).map fun ctx =>
    if id = k.rule then { ctx with memory := (k.act ctx).memory } else ctx

theorem Session.make_offenses (document : Document) (s : Session μ) (k : Due μ) :
    (s.make document k).offenses = s.offenses ++ s.reports k := by
  rw [Session.make, Session.call, Session.reports]
  cases s.contexts.lookup k.rule with
  | none => simp [Session.fail]
  | some ctx =>
      dsimp only
      cases (k.act ctx).fault <;> rfl

theorem Session.make_failures (document : Document) (s : Session μ) (k : Due μ) :
    (s.make document k).failures =
      s.failures ++ (s.fault? k).toList.map (failureAt document k.rule k.node) := by
  rw [Session.make, Session.call, Session.fault?]
  cases s.contexts.lookup k.rule with
  | none => rfl
  | some ctx =>
      dsimp only
      cases (k.act ctx).fault with
      | none => simp [Session.remember]
      | some fault => rfl

theorem lookup_remember (s : Session μ) (rule id : String) (memory : μ) :
    (s.remember rule memory).contexts.lookup id =
      (s.contexts.lookup id).map fun ctx => if id = rule then { ctx with memory } else ctx := by
  rw [Session.remember]
  induction s.contexts with
  | nil => rfl
  | cons entry rest ih =>
      obtain ⟨key, ctx⟩ := entry
      rw [List.map_cons, List.lookup_cons]
      by_cases hid : id = key
      · by_cases hrule : key = rule <;> simp [hid, hrule]
      · have hne : (id == key) = false := by simpa using hid
        have hne' :
            (id == (if key == rule then (key, { ctx with memory }) else (key, ctx)).1) = false := by
          split <;> exact hne
        rw [List.lookup_cons, hne, hne']
        exact ih

theorem Session.make_lookup (document : Document) (s : Session μ) (k : Due μ) (id : String) :
    (s.make document k).contexts.lookup id = s.contextAfter k id := by
  rw [Session.contextAfter]
  cases hlookup : s.contexts.lookup k.rule with
  | none =>
      rw [Session.make, Session.call, hlookup]
      by_cases hid : id = k.rule
      · simp [Session.fail, hid, hlookup]
      · simp [Session.fail, hid]
  | some ctx =>
      have hcontexts : (s.make document k).contexts =
          (s.remember k.rule (k.act ctx).memory).contexts := by
        rw [Session.make, Session.call, hlookup]
        dsimp only
        cases (k.act ctx).fault <;> rfl
      rw [hcontexts, lookup_remember]
      by_cases hid : id = k.rule
      · simp [hid, hlookup]
      · simp [hid]

/-- A call leaves the contexts under the ids of their rules. -/
def Session.Labelled (s : Session μ) : Prop :=
  ∀ id ctx, s.contexts.lookup id = some ctx → ctx.info.id = id

theorem Session.Labelled.make (h : s.Labelled) (document : Document) (k : Due μ) :
    (s.make document k).Labelled := by
  intro id ctx hctx
  rw [Session.make_lookup, Session.contextAfter, Option.map_eq_some_iff] at hctx
  obtain ⟨before, hbefore, rfl⟩ := hctx
  have hid := h id before hbefore
  split <;> exact hid

/-! ## Two runs -/

/-- A run and a run of one of its rules agree on that rule: it has the same context in both, and
what it reported and where it failed in the one is all that was reported and all that failed in the
other. -/
structure Session.Agrees (id : String) (s t : Session μ) : Prop where
  labelled : s.Labelled
  context : s.contexts.lookup id = t.contexts.lookup id
  offenses : s.offenses.filter (·.rule == id) = t.offenses
  failures : s.failures.filter (·.rule == id) = t.failures

/-- A call that reports through its context alone. -/
def Due.Reporting (k : Due μ) : Prop :=
  ∀ ctx, (k.act ctx).Reported ctx

theorem Session.Labelled.rule_of_reports (h : s.Labelled) (hk : k.Reporting) :
    ∀ o ∈ s.reports k, o.rule = k.rule := by
  intro o ho
  obtain ⟨ctx, hlookup, ho⟩ := Session.mem_reports_iff.1 ho
  rw [(hk ctx o ho).rule, h _ _ hlookup]

/-- A call of another rule changes nothing for the rule. -/
theorem Session.Agrees.make_other (h : s.Agrees id t) (hk : k.Reporting) (hne : k.rule ≠ id) :
    (s.make document k).Agrees id t where
  labelled := h.labelled.make document k
  context := by
    rw [Session.make_lookup, Session.contextAfter, ← h.context]
    simp [hne.symm]
  offenses := by
    have hnone : (s.reports k).filter (·.rule == id) = [] := by
      rw [List.filter_eq_nil_iff]
      intro o ho
      rw [h.labelled.rule_of_reports hk o ho, beq_iff_eq]
      exact hne
    rw [Session.make_offenses, List.filter_append, hnone, List.append_nil, h.offenses]
  failures := by
    have hnone : ((s.fault? k).toList.map (failureAt document k.rule k.node)).filter
        (·.rule == id) = [] := by
      rw [List.filter_eq_nil_iff]
      intro f hf
      obtain ⟨fault, -, rfl⟩ := List.mem_map.1 hf
      rw [beq_iff_eq]
      exact hne
    rw [Session.make_failures, List.filter_append, hnone, List.append_nil, h.failures]

/-- A call of the rule itself has the same outcome in both runs. -/
theorem Session.Agrees.make_own (h : s.Agrees id t) (hk : k.Reporting) (heq : k.rule = id) :
    (s.make document k).Agrees id (t.make document k) where
  labelled := h.labelled.make document k
  context := by
    rw [Session.make_lookup, Session.make_lookup, Session.contextAfter, Session.contextAfter,
      h.context]
  offenses := by
    have hall : (s.reports k).filter (·.rule == id) = s.reports k := by
      rw [List.filter_eq_self]
      intro o ho
      rw [h.labelled.rule_of_reports hk o ho, heq, beq_self_eq_true]
    have hsame : s.reports k = t.reports k := by
      rw [Session.reports, Session.reports, heq, h.context]
    rw [Session.make_offenses, Session.make_offenses, List.filter_append, hall, hsame, h.offenses]
  failures := by
    have hall : ((s.fault? k).toList.map (failureAt document k.rule k.node)).filter
        (·.rule == id) = (s.fault? k).toList.map (failureAt document k.rule k.node) := by
      rw [List.filter_eq_self]
      intro f hf
      obtain ⟨fault, -, rfl⟩ := List.mem_map.1 hf
      exact beq_iff_eq.2 heq
    have hsame : s.fault? k = t.fault? k := by
      rw [Session.fault?, Session.fault?, heq, h.context]
    rw [Session.make_failures, Session.make_failures, List.filter_append, hall, hsame, h.failures]

/-- Making all calls in the one run and those of the rule in the other keeps the two in
agreement. -/
theorem Session.Agrees.foldl_make (h : s.Agrees id t) {calls : List (Due μ)}
    (hcalls : ∀ k ∈ calls, k.Reporting) :
    (calls.foldl (Session.make document) s).Agrees id
      ((calls.filter (·.rule == id)).foldl (Session.make document) t) := by
  induction calls generalizing s t with
  | nil => exact h
  | cons k rest ih =>
      have hk := hcalls k List.mem_cons_self
      have hrest := fun k' hk' => hcalls k' (List.mem_cons_of_mem k hk')
      by_cases heq : k.rule = id
      · rw [List.filter_cons, if_pos (beq_iff_eq.2 heq)]
        exact ih (h.make_own hk heq) hrest
      · rw [List.filter_cons, if_neg (by simpa using heq)]
        exact ih (h.make_other hk heq) hrest

/-! ## Whole runs -/

theorem due_reporting (hrules : ∀ rule ∈ rules, rule.Reporting) :
    ∀ k ∈ due rules document, k.Reporting := by
  intro k hk
  rcases List.mem_append.1 hk with hk | hk
  · obtain ⟨c, -, hk⟩ := List.mem_flatMap.1 hk
    obtain ⟨rule, hrule, hk⟩ := List.mem_flatMap.1 hk
    rw [List.eq_of_mem_replicate hk]
    exact fun ctx => (hrules rule hrule).visit ctx c
  · obtain ⟨rule, hrule, hk⟩ := List.mem_flatMap.1 hk
    obtain ⟨act, hact, rfl⟩ := List.mem_map.1 hk
    exact (hrules rule hrule).finish act (Option.mem_toList.1 hact)

theorem foldl_visit_make (rules : List (Rule μ)) (document : Document) (places : List Cursor)
    (s : Session μ) : places.foldl (Session.visit (.ofRules rules) document) s =
      (places.flatMap fun c => rules.flatMap (atPlace c)).foldl (Session.make document) s := by
  rw [List.foldl_flatMap]
  congr 1
  funext s c
  have hcalls : rules.flatMap (atPlace c) =
      ((Listeners.ofRules rules).atKind c.node.kind).map fun rule =>
        ⟨rule.info.id, c.node, fun ctx => rule.visit ctx c⟩ := by
    simp only [Listeners.atKind_ofRules, List.map_flatMap, List.map_replicate]
    rfl
  rw [hcalls, List.foldl_map]
  rfl

theorem foldl_finish_make (rules : List (Rule μ)) (document : Document) (s : Session μ) :
    rules.foldl (Session.finish document) s =
      (rules.flatMap (atEnd document)).foldl (Session.make document) s := by
  rw [List.foldl_flatMap]
  congr 1
  funext s rule
  rw [Session.finish, atEnd]
  cases rule.finish <;> rfl

theorem registry_ofRules (r : Registry μ) (rules : List (Rule μ))
    (hids : (r.ids ++ rules.map (·.info.id)).Nodup) :
    rules.foldlM (fun r rule => r.register ⟨rule, none⟩) r =
      .ok (.ofEntries (r.entries ++ rules.map fun rule => ⟨rule, none⟩)) := by
  induction rules generalizing r with
  | nil =>
      rw [List.map_nil, List.append_nil, r.ofEntries_entries]
      rfl
  | cons rule rest ih =>
      have hfresh : ¬r.contains (Registered.mk rule none).id = true := by
        rw [Registry.contains_iff]
        exact fun hid => (List.nodup_append.1 hids).2.2 _ hid _ List.mem_cons_self rfl
      obtain ⟨r', hregister, hentries⟩ := Registry.register_of_not_contains hfresh
      have hrest := ih r' (by simpa [Registry.ids, Registered.id, hentries] using hids)
      rw [hentries, List.append_assoc] at hrest
      rw [List.foldlM_cons, hregister]
      exact hrest

def fresh (rules : List (Rule μ)) (config : Option Config) : Dispatcher μ :=
  ⟨.ofEntries (rules.map fun rule => ⟨rule, none⟩), config, none⟩

theorem fresh_rules (rules : List (Rule μ)) (config : Option Config) :
    (fresh rules config).rules = rules := by
  simp [fresh, Dispatcher.rules, Registry.rules_ofEntries, Function.comp_def]

theorem fresh_ids (rules : List (Rule μ)) (config : Option Config) :
    (fresh rules config).registry.ids = rules.map (·.info.id) := by
  simp [fresh, Registry.ids, Registry.ofEntries, Registered.id]

theorem ofRules_eq (config : Option Config) (hids : (rules.map (·.info.id)).Nodup) :
    ofRules rules config = .ok (fresh rules config) := by
  have hregistry :=
    registry_ofRules .empty rules (by simpa [Registry.empty, Registry.ids] using hids)
  rw [ofRules, Registry.ofRules, hregistry]
  rfl

/-- The session in which the rules start on a document, given the context of each. -/
def opening (settings : Rule μ → Context μ) (logs : Rule μ → List Log) (rules : List (Rule μ)) :
    Session μ :=
  ⟨rules.map fun rule => (rule.info.id, settings rule), [], [], rules.flatMap logs⟩

def closing (document : Document) (settings : Rule μ → Context μ) (logs : Rule μ → List Log)
    (rules : List (Rule μ)) : Session μ :=
  (due rules document).foldl (Session.make document) (opening settings logs rules)

variable {config : Option Config} {settings : Rule μ → Context μ} {logs : Rule μ → List Log}

theorem start_fresh [Inhabited μ]
    (hcontext : ∀ rule, context config document rule = .ok (settings rule, logs rule)) :
    (fresh rules config).start document = .ok (opening settings logs rules) := by
  have hentries : (fun rule : Rule μ => do
      return (rule.info.id, ← context config document rule) : Rule μ → Except ValueFault _) =
      fun rule => pure (rule.info.id, settings rule, logs rule) := by
    funext rule
    rw [hcontext]
    rfl
  rw [start, fresh_rules]
  simp only [fresh, hentries, List.mapM_pure, pure_bind, opening, List.map_map, List.flatMap_map]
  rfl

/-- A run of fresh rules makes the calls that are due, one after the other. -/
theorem investigate_fresh [Inhabited μ]
    (hcontext : ∀ rule, context config document rule = .ok (settings rule, logs rule)) :
    (fresh rules config).investigate document =
      .ok ⟨(closing document settings logs rules).offenses,
        (closing document settings logs rules).failures,
        Finding.ranksOf (rules.map (·.info.id)), (closing document settings logs rules).logs⟩ := by
  have htable : (fresh rules config).table = .ofRules (fresh rules config).rules := rfl
  rw [investigate, start_fresh hcontext, htable, fresh_rules, fresh_ids]
  simp only [bind, Except.bind, pure, Except.pure, foldl_visit_make, foldl_finish_make,
    ← List.foldl_append, ← due.eq_def, ← closing.eq_def, ← Finding.ranksOf.eq_def]

theorem lookup_opening (settings : Rule μ → Context μ) (logs : Rule μ → List Log)
    (hids : (rules.map (·.info.id)).Nodup) (hr : r ∈ rules) :
    (opening settings logs rules).contexts.lookup r.info.id = some (settings r) := by
  rw [opening]
  induction rules with
  | nil => simp at hr
  | cons rule rest ih =>
      obtain ⟨hrule, hids⟩ := List.nodup_cons.1 hids
      rw [List.map_cons, List.lookup_cons]
      rcases List.mem_cons.1 hr with rfl | hr
      · simp
      · have hne : (r.info.id == rule.info.id) = false := by
          rw [beq_eq_false_iff_ne]
          exact fun heq => hrule (List.mem_map.2 ⟨r, hr, heq⟩)
        rw [hne]
        exact ih hids hr

theorem opening_labelled (hinfo : ∀ rule, (settings rule).info = rule.info)
    (rules : List (Rule μ)) : (opening settings logs rules).Labelled := by
  intro id ctx hctx
  rw [opening] at hctx
  induction rules with
  | nil => simp at hctx
  | cons rule rest ih =>
      rw [List.map_cons, List.lookup_cons] at hctx
      split at hctx
      next heq =>
        obtain rfl := Option.some.inj hctx
        rw [hinfo, eq_of_beq heq]
      next => exact ih hctx

/-- At the end of a run of some rules and of a run of one of them the two agree on that rule. -/
theorem closing_agrees (hids : (rules.map (·.info.id)).Nodup)
    (hrules : ∀ rule ∈ rules, rule.Reporting)
    (hinfo : ∀ rule, (settings rule).info = rule.info) (hr : r ∈ rules) :
    (closing document settings logs rules).Agrees r.info.id
      (closing document settings logs [r]) := by
  have hcontext : (opening settings logs rules).contexts.lookup r.info.id =
      (opening settings logs [r]).contexts.lookup r.info.id := by
    rw [lookup_opening settings logs hids hr,
      lookup_opening settings logs (by simp) List.mem_cons_self]
  have hopening : (opening settings logs rules).Agrees r.info.id (opening settings logs [r]) :=
    ⟨opening_labelled hinfo rules, hcontext, rfl, rfl⟩
  rw [closing, closing, ← filter_due document hids hr]
  exact hopening.foldl_make (due_reporting hrules)

theorem rule_of_mem_due (hk : k ∈ due rules document) : k.rule ∈ rules.map (·.info.id) := by
  rcases List.mem_append.1 hk with hk | hk
  · obtain ⟨c, -, hk⟩ := List.mem_flatMap.1 hk
    obtain ⟨rule, hrule, hk⟩ := List.mem_flatMap.1 hk
    exact List.mem_map.2 ⟨rule, hrule, (rule_of_mem_atPlace hk).symm⟩
  · obtain ⟨rule, hrule, hk⟩ := List.mem_flatMap.1 hk
    exact List.mem_map.2 ⟨rule, hrule, (rule_of_mem_atEnd hk).symm⟩

/-- Only the rules of a run report in it. -/
theorem rule_of_mem_closing (hrules : ∀ rule ∈ rules, rule.Reporting)
    (hinfo : ∀ rule, (settings rule).info = rule.info) {o : Offense}
    (ho : o ∈ (closing document settings logs rules).offenses) :
    o.rule ∈ rules.map (·.info.id) := by
  by_contra hrule
  -- An id that no rule has makes no call, so nothing was reported under it.
  have hopening : (opening settings logs rules).Agrees o.rule (opening settings logs rules) :=
    ⟨opening_labelled hinfo rules, rfl, rfl, rfl⟩
  have hnone : (due rules document).filter (·.rule == o.rule) = [] := by
    rw [List.filter_eq_nil_iff]
    intro k hk
    rw [beq_iff_eq]
    exact fun heq => hrule (heq ▸ rule_of_mem_due hk)
  have hclosing : (closing document settings logs rules).Agrees o.rule
      (((due rules document).filter (·.rule == o.rule)).foldl (Session.make document)
        (opening settings logs rules)) := hopening.foldl_make (due_reporting hrules)
  have hoffenses := hclosing.offenses
  rw [hnone, List.foldl_nil] at hoffenses
  have hmem : o ∈ (closing document settings logs rules).offenses.filter (·.rule == o.rule) :=
    List.mem_filter.2 ⟨ho, beq_self_eq_true _⟩
  rw [hoffenses] at hmem
  simp [opening] at hmem

end RubyLint.Dispatcher

namespace RubyLint

/-- What came of a document as far as one rule is concerned: its offenses and its failures. -/
def Investigation.about (i : Investigation) (rule : String) : List Offense × List Failure :=
  (i.offenses.filter (·.rule == rule), i.failures.filter (·.rule == rule))

namespace Dispatcher

variable {μ : Type} {document : Document} {rules : List (Rule μ)}
variable {settings : Rule μ → Context μ} {logs : Rule μ → List Log}

def outcome (document : Document) (settings : Rule μ → Context μ) (logs : Rule μ → List Log)
    (rules : List (Rule μ)) : Investigation :=
  ⟨(closing document settings logs rules).offenses, (closing document settings logs rules).failures,
    Finding.ranksOf (rules.map (·.info.id)), (closing document settings logs rules).logs⟩

theorem outcome_about (hids : (rules.map (·.info.id)).Nodup)
    (hrules : ∀ rule ∈ rules, rule.Reporting) (hinfo : ∀ rule, (settings rule).info = rule.info)
    {r : Rule μ} (hr : r ∈ rules) : (outcome document settings logs rules).about r.info.id =
      ((outcome document settings logs [r]).offenses,
        (outcome document settings logs [r]).failures) :=
  have h := closing_agrees hids hrules hinfo hr
  Prod.ext h.offenses h.failures

theorem outcome_ordered (hids : (rules.map (·.info.id)).Nodup)
    (hrules : ∀ rule ∈ rules, rule.Reporting) (hinfo : ∀ rule, (settings rule).info = rule.info) :
    (outcome document settings logs rules).ordered.map (·.offense) =
      rules.flatMap fun rule => (outcome document settings logs [rule]).offenses := by
  have hmem : ∀ f ∈ (outcome document settings logs rules).findings,
      f.offense.rule ∈ rules.map (·.info.id) := by
    intro f hf
    have ho : f.offense ∈ (closing document settings logs rules).offenses := by
      rw [← Finding.map_offense_number (closing document settings logs rules).offenses]
      exact List.mem_map_of_mem hf
    exact rule_of_mem_closing hrules hinfo ho
  have hsorted : (outcome document settings logs rules).ordered = _ :=
    Finding.byRule_ranksOf hids hmem
  rw [hsorted, List.map_flatMap, List.flatMap_map]
  refine List.flatMap_congr fun rule hrule => ?_
  have hagrees : (closing document settings logs rules).Agrees rule.info.id
      (closing document settings logs [rule]) := closing_agrees hids hrules hinfo hrule
  have hfilter : ((outcome document settings logs rules).findings.filter
      (·.offense.rule == rule.info.id)).map (·.offense) =
        (closing document settings logs rules).offenses.filter (·.rule == rule.info.id) := by
    conv_rhs => rw [← Finding.map_offense_number (closing document settings logs rules).offenses]
    rw [List.filter_map]
    rfl
  rw [hfilter, hagrees.offenses]
  rfl

/-- A rule reports and fails in a run with other rules exactly as in a run of its own, so it does
the same in all runs that it takes part in; and the offenses rule by rule are those of the runs of
the single rules, one behind the other. -/
theorem investigate_alone [Inhabited μ] (rules : List (Rule μ)) (config : Option Config)
    (document : Document) (hids : (rules.map (·.info.id)).Nodup)
    (hrules : ∀ rule ∈ rules, rule.Reporting) (hconfig : ∀ c ∈ config, c.Tabular) :
    ∃ d i, ofRules rules config = .ok d ∧ d.investigate document = .ok i ∧
      (∃ alone : Rule μ → Investigation,
        (∀ rule ∈ rules, ∃ single, ofRules [rule] config = .ok single ∧
          single.investigate document = .ok (alone rule) ∧
          i.about rule.info.id = ((alone rule).offenses, (alone rule).failures)) ∧
        i.ordered.map (·.offense) = rules.flatMap fun rule => (alone rule).offenses) ∧
      ∀ others : List (Rule μ), (others.map (·.info.id)).Nodup → (∀ rule ∈ others, rule.Reporting) →
        ∃ d' i', ofRules others config = .ok d' ∧ d'.investigate document = .ok i' ∧
          ∀ rule ∈ rules, rule ∈ others → i'.about rule.info.id = i.about rule.info.id := by
  choose settings logs hcontext hinfo using
    fun rule : Rule μ => exists_context_of_tabular hconfig document rule
  refine ⟨_, outcome document settings logs rules, ofRules_eq config hids,
    investigate_fresh hcontext, ⟨fun rule => outcome document settings logs [rule], ?_,
      outcome_ordered hids hrules hinfo⟩, ?_⟩
  · intro rule hrule
    exact ⟨_, ofRules_eq config (by simp), investigate_fresh hcontext,
      outcome_about hids hrules hinfo hrule⟩
  · intro others hids' hothers
    refine ⟨_, outcome document settings logs others, ofRules_eq config hids',
      investigate_fresh hcontext, fun rule hrule hrule' => ?_⟩
    rw [outcome_about hids' hothers hinfo hrule', outcome_about hids hrules hinfo hrule]

def remark : Action :=
  .report ⟨.node, false, [], some "seen", none, .null, []⟩

/-- A rule that reports every identifier and, at the end, the document. -/
def observer : Rule Memory :=
  .scripted { id := "observer", category := "test", kinds := ["identifier"] } [remark]
    (some [remark])

/-- A rule that fails at every identifier after it reported it, and would report it again. -/
def crasher : Rule Memory :=
  .scripted { id := "crasher", category := "test", kinds := ["identifier"] }
    [remark, .fail "boom", remark] none

def pair : Document :=
  ⟨Source.ofText "a.rb" "x y", ⟨"program", 0, 3, true, none,
    [⟨"identifier", 0, 1, true, none, []⟩, ⟨"identifier", 2, 3, true, none, []⟩]⟩, []⟩

/-- What is reported and what fails in a run: the rules and the offsets. -/
def summary (rules : List (Rule Memory)) (config : Option Config) (document : Document) :
    Option (List (String × Int) × List (String × Int)) := do
  let d ← (ofRules rules config).toOption
  let i ← (d.investigate document).toOption
  return (i.offenses.map fun o => (o.rule, o.start), i.failures.map fun f => (f.rule, f.start))

/-- The calls of a rule that fails stand between those of one that does not, without effect on
it. -/
theorem investigate_alone_crasher :
    summary [crasher, observer] (some .standard) pair =
      some ([("crasher", 0), ("observer", 0), ("crasher", 2), ("observer", 2), ("observer", 0)],
        [("crasher", 0), ("crasher", 2)]) ∧
    summary [observer] (some .standard) pair =
      some ([("observer", 0), ("observer", 2), ("observer", 0)], []) ∧
    ∃ d i, ofRules [crasher, observer] (some .standard) = .ok d ∧ d.investigate pair = .ok i ∧
      ∃ alone : Rule Memory → Investigation, (∀ rule ∈ [crasher, observer], ∃ single,
        ofRules [rule] (some .standard) = .ok single ∧ single.investigate pair = .ok (alone rule) ∧
          i.about rule.info.id = ((alone rule).offenses, (alone rule).failures)) ∧
        i.ordered.map (·.offense) = (alone crasher).offenses ++ (alone observer).offenses := by
  have hrules : ∀ rule ∈ [crasher, observer], rule.Reporting := by
    simp only [List.forall_mem_cons]
    exact ⟨Rule.scripted_reporting _ _ _, Rule.scripted_reporting _ _ _, by simp⟩
  obtain ⟨d, i, hd, hi, ⟨alone, halone, hordered⟩, -⟩ := investigate_alone [crasher, observer]
    (some .standard) pair (by decide) hrules (by simpa using Config.standard_tabular)
  exact ⟨by decide +kernel, by decide +kernel, d, i, hd, hi, alone, halone, by simpa using hordered⟩

end Dispatcher

end RubyLint
