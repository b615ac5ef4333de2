import Mathlib.Data.List.Forall2
import RubyLint.Rule.Basic

/-!
# Outcomes of calls

How the outcome of a call is put together from its parts, and when a report is accepted.
-/

namespace RubyLint

variable {μ α : Type}

/-- A report with a message and a range of at least one byte is accepted, with its edits if the rule
corrects. -/
theorem Context.exists_offense (ctx : Context μ) (range : Int × Int) {message : String}
    (edits : List Edit) (severity : Option String) (details : Value) (hmessage : message ≠ "")
    (hstart : 0 ≤ range.1) (hstop : range.1 < range.2) :
    ∃ o, ctx.offense range message edits severity details = .ok o ∧
      o.edits = if ctx.info.autocorrect then edits else [] := by
  have hrange : ¬(range.1 < 0 ∨ range.2 ≤ range.1) := by omega
  have hempty : (message == "") = false := by simpa using hmessage
  rw [Context.offense, Offense.checked]
  simp only [hempty, Bool.false_eq_true, if_false, if_neg hrange]
  exact ⟨_, rfl, rfl⟩

/-- A report of no byte is refused. -/
theorem Context.exists_offense_fault (ctx : Context μ) (range : Int × Int) (message : String)
    (edits : List Edit) (severity : Option String) (details : Value)
    (hrange : range.2 ≤ range.1) :
    ∃ fault, ctx.offense range message edits severity details = .error fault := by
  rw [Context.offense, Offense.checked]
  by_cases hmessage : (message == "") = true
  · exact ⟨_, if_pos hmessage⟩
  · exact ⟨_, (if_neg hmessage).trans (if_pos (.inr hrange))⟩

theorem Offense.eq_of_checked {given o : Offense} (h : given.checked = .ok o) : o = given := by
  rw [checked] at h
  split at h
  · nomatch h
  split at h
  · nomatch h
  · exact (Except.ok.inj h).symm

/-- A checked offense has a message and covers a byte. -/
theorem Offense.of_checked {given o : Offense} (h : given.checked = .ok o) :
    given.message ≠ "" ∧ 0 ≤ given.start ∧ given.start < given.stop := by
  rw [checked] at h
  split at h
  · nomatch h
  next hmessage =>
    split at h
    · nomatch h
    next hrange => exact ⟨by simpa using hmessage, by omega, by omega⟩

namespace Outcome

/-! ## What holds of every report -/

/-- A call all of whose reports have a property. -/
def Every (P : Offense → Prop) (outcome : Outcome μ) : Prop :=
  ∀ o ∈ outcome.offenses, P o

variable {P : Offense → Prop}

theorem every_quiet (memory : μ) : (quiet memory).Every P := by
  simp [Every, quiet]

theorem every_fail (memory : μ) (fault : RuleFault) : (fail memory fault).Every P := by
  simp [Every, fail]

theorem every_report {result : Except OffenseFault Offense} (memory : μ)
    (h : ∀ o, result = .ok o → P o) : (report memory result).Every P := by
  cases result with
  | error fault => exact every_fail memory _
  | ok o => simpa [Every, report] using h o rfl

theorem Every.andThen {first : Outcome μ} {next : μ → Outcome μ} (hfirst : first.Every P)
    (hnext : ∀ memory, (next memory).Every P) : (first.andThen next).Every P := by
  rw [Outcome.andThen]
  cases first.fault with
  | some fault => exact hfirst
  | none =>
      intro o ho
      rcases List.mem_append.1 ho with ho | ho
      · exact hfirst o ho
      · exact hnext _ o ho

/-- A part of a call that needs a value reports nothing without one. -/
theorem withValue_cases (memory : μ) (value : Except RuleFault α) (next : α → Outcome μ) :
    (withValue memory value next).offenses = [] ∨
      ∃ a, value = .ok a ∧ withValue memory value next = next a := by
  cases value with
  | error fault => exact .inl rfl
  | ok a => exact .inr ⟨a, rfl, rfl⟩

theorem every_withValue {memory : μ} {value : Except RuleFault α} {next : α → Outcome μ}
    (hnext : ∀ a, value = .ok a → (next a).Every P) : (withValue memory value next).Every P := by
  cases value with
  | error fault => exact every_fail memory fault
  | ok a => exact hnext a rfl

theorem every_each {memory : μ} {items : List α} {act : μ → α → Outcome μ}
    (hact : ∀ memory, ∀ a ∈ items, (act memory a).Every P) : (each memory items act).Every P := by
  rw [each]
  refine List.foldlRecOn items _ (every_quiet memory) fun outcome h a ha => ?_
  exact h.andThen fun memory => hact memory a ha

/-! ## Calls without corrections -/

/-- A call that does not fail and reports without corrections. -/
structure Harmless (o : Outcome μ) : Prop where
  fault : o.fault = none
  edits : ∀ x ∈ o.offenses, x.edits = []

theorem harmless_quiet (memory : μ) : (quiet memory).Harmless :=
  ⟨rfl, by simp [quiet]⟩

theorem Harmless.andThen {first : Outcome μ} {next : μ → Outcome μ} (hfirst : first.Harmless)
    (hnext : ∀ memory, (next memory).Harmless) : (first.andThen next).Harmless := by
  rw [Outcome.andThen, hfirst.fault]
  refine ⟨(hnext _).fault, fun x hx => ?_⟩
  rcases List.mem_append.1 hx with hx | hx
  · exact hfirst.edits x hx
  · exact (hnext _).edits x hx

/-- A rule that does not correct reports without corrections. -/
theorem harmless_report {ctx : Context μ} {range : Int × Int} {message : String} (memory : μ)
    (edits : List Edit) (severity : Option String) (details : Value)
    (hcorrect : ctx.info.autocorrect = false) (hmessage : message ≠ "") (hstart : 0 ≤ range.1)
    (hstop : range.1 < range.2) :
    (report memory (ctx.offense range message edits severity details)).Harmless := by
  obtain ⟨o, ho, hedits⟩ := ctx.exists_offense range edits severity details hmessage hstart hstop
  rw [hcorrect, if_neg (by simp)] at hedits
  rw [ho]
  exact ⟨rfl, by simpa [report] using hedits⟩

/-! ## One part after the other -/

theorem quiet_andThen (memory : μ) (next : μ → Outcome μ) :
    (quiet memory).andThen next = next memory := rfl

theorem andThen_quiet (outcome : Outcome μ) : outcome.andThen quiet = outcome := by
  obtain ⟨offenses, memory, fault⟩ := outcome
  cases fault with
  | none => simp [andThen, quiet]
  | some fault => rfl

theorem andThen_assoc (first : Outcome μ) (next after : μ → Outcome μ) :
    (first.andThen next).andThen after =
      first.andThen fun memory => (next memory).andThen after := by
  obtain ⟨offenses, memory, fault⟩ := first
  cases fault with
  | some fault => rfl
  | none =>
      simp only [andThen]
      cases hfault : (next memory).fault <;> simp [hfault]

theorem foldl_andThen (outcome : Outcome μ) (items : List α) (act : μ → α → Outcome μ) :
    items.foldl (fun outcome a => outcome.andThen fun m => act m a) outcome =
      outcome.andThen fun memory => each memory items act := by
  induction items generalizing outcome with
  | nil => exact (andThen_quiet outcome).symm
  | cons a rest ih =>
      rw [List.foldl_cons, ih, andThen_assoc]
      congr 1
      funext memory
      rw [each, List.foldl_cons, quiet_andThen, ih]

theorem each_cons (memory : μ) (a : α) (rest : List α) (act : μ → α → Outcome μ) :
    each memory (a :: rest) act = (act memory a).andThen fun memory => each memory rest act := by
  rw [each, List.foldl_cons, quiet_andThen, foldl_andThen]

theorem each_append (memory : μ) (items rest : List α) (act : μ → α → Outcome μ) :
    each memory (items ++ rest) act =
      (each memory items act).andThen fun memory => each memory rest act := by
  rw [each, List.foldl_append, foldl_andThen]
  rfl

/-! ## Memory -/

theorem report_memory (memory : μ) (result : Except OffenseFault Offense) :
    (report memory result).memory = memory := by
  cases result <;> rfl

theorem withValue_memory {memory : μ} {value : Except RuleFault α} {next : α → Outcome μ}
    (hnext : ∀ a, (next a).memory = memory) : (withValue memory value next).memory = memory := by
  cases value with
  | error fault => rfl
  | ok a => exact hnext a

theorem andThen_memory {memory : μ} {first : Outcome μ} {next : μ → Outcome μ}
    (hfirst : first.memory = memory) (hnext : (next memory).memory = memory) :
    (first.andThen next).memory = memory := by
  rw [andThen]
  cases first.fault with
  | some fault => exact hfirst
  | none =>
      rw [hfirst]
      exact hnext

theorem each_memory {memory : μ} {items : List α} {act : μ → α → Outcome μ}
    (hact : ∀ memory, ∀ a ∈ items, (act memory a).memory = memory) :
    (each memory items act).memory = memory := by
  rw [each]
  refine List.foldlRecOn (motive := fun outcome : Outcome μ => outcome.memory = memory) items _ rfl
    fun outcome h a ha => ?_
  exact andThen_memory h (hact memory a ha)

/-! ## Parts that report once -/

/-- When every part does nothing, makes one report or fails, the reports are those of the parts that
are due, up to the first that fails. -/
theorem each_reports (items : List α) (act : μ → α → Outcome μ) (due solid : α → Bool)
    (R : α → Offense → Prop) (memory : μ)
    (hquiet : ∀ memory, ∀ a ∈ items, due a = false → act memory a = quiet memory)
    (hreport : ∀ memory, ∀ a ∈ items, due a = true → solid a = true →
      ∃ o, R a o ∧ act memory a = ⟨[o], memory, none⟩)
    (hfail : ∀ memory, ∀ a ∈ items, due a = true → solid a = false →
      ∃ fault, act memory a = fail memory fault) :
    List.Forall₂ R ((items.filter due).takeWhile solid) (each memory items act).offenses ∧
      ((each memory items act).fault = none ↔ ∀ a ∈ items, due a = true → solid a = true) := by
  induction items with
  | nil => exact ⟨.nil, by simp [each, quiet]⟩
  | cons a rest ih =>
      obtain ⟨hrest, hfault⟩ := ih
        (fun memory b hb => hquiet memory b (List.mem_cons_of_mem a hb))
        (fun memory b hb => hreport memory b (List.mem_cons_of_mem a hb))
        (fun memory b hb => hfail memory b (List.mem_cons_of_mem a hb))
      rw [each_cons]
      cases hdue : due a with
      | false =>
          rw [hquiet memory a List.mem_cons_self hdue, quiet_andThen,
            List.filter_cons_of_neg (by simp [hdue])]
          exact ⟨hrest, by simp [hfault, hdue]⟩
      | true =>
          rw [List.filter_cons_of_pos hdue]
          cases hsolid : solid a with
          | true =>
              obtain ⟨o, ho, hact⟩ := hreport memory a List.mem_cons_self hdue hsolid
              rw [hact, List.takeWhile_cons_of_pos hsolid]
              exact ⟨.cons ho hrest, by simp [andThen, hfault, hsolid]⟩
          | false =>
              obtain ⟨fault, hact⟩ := hfail memory a List.mem_cons_self hdue hsolid
              rw [hact, List.takeWhile_cons_of_neg (by simp [hsolid])]
              exact ⟨.nil, by simp [andThen, fail, hdue, hsolid]⟩

/-- Parts that all succeed and leave the memory alone make one report each. -/
theorem each_eq_ok {items : List α} {act : μ → α → Outcome μ} {memory : μ} {Q : α → Offense → Prop}
    (h : ∀ a ∈ items, ∃ o, Q a o ∧ act memory a = ⟨[o], memory, none⟩) :
    ∃ os, each memory items act = ⟨os, memory, none⟩ ∧ (∀ o ∈ os, ∃ a ∈ items, Q a o) ∧
      ∀ a ∈ items, ∃ o ∈ os, Q a o := by
  induction items with
  | nil => exact ⟨[], rfl, by simp, by simp⟩
  | cons a rest ih =>
      obtain ⟨o, hQ, hact⟩ := h a List.mem_cons_self
      obtain ⟨os, heq, hsound, hcomplete⟩ := ih fun b hb => h b (List.mem_cons_of_mem a hb)
      refine ⟨o :: os, ?_, ?_, ?_⟩
      · rw [each_cons, hact]
        simp only [andThen, heq, List.singleton_append]
      · refine List.forall_mem_cons.2 ⟨⟨a, List.mem_cons_self, hQ⟩, fun o' ho' => ?_⟩
        obtain ⟨b, hb, hQ'⟩ := hsound o' ho'
        exact ⟨b, List.mem_cons_of_mem a hb, hQ'⟩
      · refine List.forall_mem_cons.2 ⟨⟨o, List.mem_cons_self, hQ⟩, fun b hb => ?_⟩
        obtain ⟨o', ho', hQ'⟩ := hcomplete b hb
        exact ⟨o', List.mem_cons_of_mem o ho', hQ'⟩

/-- After a part that fails at once no other part is tried. -/
theorem each_eq_fail {items : List α} {act : μ → α → Outcome μ} {memory : μ} {fault : RuleFault}
    (hne : items ≠ []) (h : ∀ a ∈ items, act memory a = fail memory fault) :
    each memory items act = fail memory fault := by
  cases items with
  | nil => exact absurd rfl hne
  | cons a rest =>
      rw [each_cons, h a List.mem_cons_self]
      rfl

end Outcome

end RubyLint
