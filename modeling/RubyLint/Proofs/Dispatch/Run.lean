import RubyLint.Proofs.Dispatch.Independence

/-!
# What calls keep

What holds when a run starts and is kept by every call holds when the run ends.  So every failure
that a run records is the failure of a call at a node, and rules that report plainly, with
severities that are known, report what a report can show.
-/

namespace RubyLint

open Outcome

variable {μ : Type} {document : Document}

/-- An offense that a report can show: it is a checked one, its severity is known, its edits do not
start or end before the text, and its details are a mapping, if it has any. -/
structure Offense.Reportable (o : Offense) : Prop where
  checked : o.checked = .ok o
  severity : o.severity ∈ severities
  edits : ∀ e ∈ o.edits, e.NonNegative
  details : o.details = .null ∨ ∃ entries, o.details = .map entries

/-- A plain report in a context whose severity is known can be shown. -/
theorem Context.Plain.reportable {ctx : Context μ} {o : Offense} (h : ctx.Plain o)
    (hseverity : ctx.severity ∈ Offense.severities) : o.Reportable := by
  obtain ⟨range, message, edits, h, hedits⟩ := h
  obtain rfl := Offense.eq_of_checked h
  refine ⟨h, hseverity, fun e he => ?_, .inl rfl⟩
  dsimp only at he
  split at he
  · exact hedits e he
  · simp at he

namespace Dispatcher

/-- What holds when a run starts and is kept by the calls of its rules holds when the run ends. -/
theorem investigate_keeps [Inhabited μ] {d : Dispatcher μ} {i : Investigation}
    (Made : Due μ → Prop) (h : d.investigate document = .ok i)
    (hvisit : ∀ c, ∀ rule ∈ d.table.atKind c.node.kind,
      Made ⟨rule.info.id, c.node, fun ctx => rule.visit ctx c⟩)
    (hfinish : ∀ rule ∈ d.rules, ∀ act ∈ rule.finish, Made ⟨rule.info.id, document.root, act⟩)
    {Inv : Session μ → Prop} (hstart : ∀ s, d.start document = .ok s → Inv s)
    (hmake : ∀ s k, Made k → Inv s → Inv (s.make document k)) :
    ∃ s, Inv s ∧ i.offenses = s.offenses ∧ i.failures = s.failures := by
  obtain ⟨s, hs, h⟩ := bind_eq_ok h
  obtain rfl := Except.ok.inj h
  refine ⟨_, ?_, rfl, rfl⟩
  have hwalked : Inv (document.top.nodes.foldl (Session.visit d.table document) s) :=
    List.foldlRecOn _ _ (hstart s hs) fun s hs c _ =>
      List.foldlRecOn _ _ hs fun s hs rule hrule => hmake s _ (hvisit c rule hrule) hs
  refine List.foldlRecOn _ _ hwalked fun s hs rule hrule => ?_
  rw [Session.finish]
  split
  next => exact hs
  next act hact => exact hmake s _ (hfinish rule hrule act hact) hs

/-- What was recorded are failures of calls at nodes of a document. -/
def Session.Recorded (document : Document) (s : Session μ) : Prop :=
  ∀ f ∈ s.failures, ∃ rule n fault, f = failureAt document rule n fault

theorem Session.Recorded.make {s : Session μ} (h : s.Recorded document) (k : Due μ) :
    (s.make document k).Recorded document := by
  intro f hf
  rw [Session.make_failures, List.mem_append] at hf
  rcases hf with hf | hf
  · exact h f hf
  · obtain ⟨fault, -, rfl⟩ := List.mem_map.1 hf
    exact ⟨_, _, _, rfl⟩

theorem start_recorded [Inhabited μ] {d : Dispatcher μ} {s : Session μ}
    (h : d.start document = .ok s) : s.Recorded document := by
  obtain ⟨entries, -, h⟩ := bind_eq_ok h
  obtain rfl := Except.ok.inj h
  exact nofun

/-- Every failure that a run records is the failure of a call at a node. -/
theorem exists_failureAt [Inhabited μ] {d : Dispatcher μ} {i : Investigation}
    (h : d.investigate document = .ok i) :
    ∀ f ∈ i.failures, ∃ rule n fault, f = failureAt document rule n fault := by
  obtain ⟨s, hs, -, hfailures⟩ := investigate_keeps (fun _ => True) h
    (fun _ _ _ => trivial) (fun _ _ _ _ => trivial) (fun _ hs => start_recorded hs)
    (fun _ k _ hs => Session.Recorded.make hs k)
  exact hfailures ▸ hs

/-! ## Reports of plain rules -/

/-- A rule whose own severity is known runs with a severity that is known, whatever the
configuration says. -/
theorem severity_of_context [Inhabited μ] {config : Option Config} {rule : Rule μ} {ctx : Context μ}
    {logs : List Log} (hrule : rule.info.severity ∈ Offense.severities)
    (h : context config document rule = .ok (ctx, logs)) : ctx.severity ∈ Offense.severities := by
  cases config with
  | none =>
      obtain ⟨rfl, -⟩ := Prod.mk.inj (Except.ok.inj h)
      exact hrule
  | some config =>
      obtain ⟨options, -, h⟩ := bind_eq_ok h
      obtain ⟨⟨severity, found⟩, hseverity, h⟩ := bind_eq_ok h
      obtain ⟨rfl, -⟩ := Prod.mk.inj (Except.ok.inj h)
      have hknown : severity ∈ Offense.severities := by
        rcases Config.severityFor_eq_ok hseverity with hknown | rfl
        · exact hknown
        · exact hrule
      simp only [Context.start, Option.filter_some]
      split
      · exact hknown
      · exact hrule

/-- The contexts of a run have severities that are known, and what was reported can be shown. -/
structure Session.Showable (s : Session μ) : Prop where
  severity : ∀ id ctx, s.contexts.lookup id = some ctx → ctx.severity ∈ Offense.severities
  offenses : ∀ o ∈ s.offenses, o.Reportable

theorem Session.Showable.make {s : Session μ} {k : Due μ} (h : s.Showable)
    (hk : ∀ ctx, (k.act ctx).Every ctx.Plain) : (s.make document k).Showable where
  severity id ctx hctx := by
    rw [Session.make_lookup, Session.contextAfter, Option.map_eq_some_iff] at hctx
    obtain ⟨before, hbefore, rfl⟩ := hctx
    have hseverity := h.severity id before hbefore
    split <;> exact hseverity
  offenses o ho := by
    rw [Session.make_offenses, List.mem_append] at ho
    rcases ho with ho | ho
    · exact h.offenses o ho
    · obtain ⟨ctx, hlookup, ho⟩ := Session.mem_reports_iff.1 ho
      exact (hk ctx o ho).reportable (h.severity _ _ hlookup)

theorem start_showable [Inhabited μ] {d : Dispatcher μ} {s : Session μ}
    (h : d.start document = .ok s)
    (hseverity : ∀ rule ∈ d.rules, rule.info.severity ∈ Offense.severities) : s.Showable := by
  obtain ⟨entries, hentries, h⟩ := bind_eq_ok h
  obtain rfl := Except.ok.inj h
  refine ⟨fun id ctx hctx => ?_, by simp⟩
  obtain ⟨front, back, hcontexts, -⟩ := List.lookup_eq_some_iff.1 hctx
  dsimp only at hcontexts
  have hmem : (id, ctx) ∈ entries.map fun entry => (entry.1, entry.2.1) := by simp [hcontexts]
  obtain ⟨entry, hentry, heq⟩ := List.mem_map.1 hmem
  obtain ⟨rule, hrule, hmake⟩ := (mem_of_mapM_eq_ok hentries).2 entry hentry
  obtain ⟨⟨ctx', logs⟩, hcontext, hmake⟩ := bind_eq_ok hmake
  obtain rfl := Except.ok.inj hmake
  obtain ⟨-, rfl⟩ := Prod.mk.inj heq
  exact severity_of_context (hseverity rule hrule) hcontext

/-- Whatever rules that report plainly report can be shown, if their severities are known. -/
theorem reportable_of_plain [Inhabited μ] {d : Dispatcher μ} {i : Investigation}
    (h : d.investigate document = .ok i) (htable : d.table = .ofRules d.rules)
    (hplain : ∀ rule ∈ d.rules, rule.Plain)
    (hseverity : ∀ rule ∈ d.rules, rule.info.severity ∈ Offense.severities) :
    ∀ o ∈ i.offenses, o.Reportable := by
  have hvisit : ∀ c : Cursor, ∀ rule ∈ d.table.atKind c.node.kind,
      ∀ ctx, (rule.visit ctx c).Every ctx.Plain := by
    intro c rule hrule ctx
    rw [htable, Listeners.atKind_ofRules] at hrule
    obtain ⟨rule', hrule', hrule⟩ := List.mem_flatMap.1 hrule
    exact List.eq_of_mem_replicate hrule ▸ (hplain rule' hrule').visit ctx c
  obtain ⟨s, hs, hoffenses, -⟩ := investigate_keeps
    (fun k => ∀ ctx, (k.act ctx).Every ctx.Plain) h hvisit
    (fun rule hrule act hact => by simp [(hplain rule hrule).finish] at hact)
    (fun s hs => start_showable hs hseverity) (fun s k hk hs => hs.make hk)
  rw [hoffenses]
  exact hs.offenses

end Dispatcher

end RubyLint
