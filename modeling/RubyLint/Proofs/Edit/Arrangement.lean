import Mathlib.Data.List.Pairwise
import Mathlib.Tactic.Set
import RubyLint.Edit.Script

/-!
# Arrangement of edits

A script is arranged by dropping repeated replacements, sorting what is left and scanning it once.
The scan compares an edit only with the last replacement before it.  This file shows that the scan
nevertheless sees every pair of edits that touch the same bytes: in a scanned list each replacement
ends before everything after it starts, so the last one passed reaches farthest.
-/

namespace RubyLint.Edit

/-- An edit that is inverted or leaves a source of the given number of bytes. -/
def Misplaced (size : Nat) (e : Edit) : Prop :=
  e.start < 0 ∨ e.stop < e.start ∨ (size : Int) < e.stop

/-- Two different edits that touch the same bytes: two replacements with a byte in common, or an
insertion strictly inside a replaced range. -/
def Overlap (a b : Edit) : Prop :=
  a ≠ b ∧
    ((a.isInsertion = false ∧ b.isInsertion = false ∧ a.start < b.stop ∧ b.start < a.stop) ∨
      (a.isInsertion = true ∧ b.start < a.start ∧ a.start < b.stop) ∨
      (b.isInsertion = true ∧ a.start < b.start ∧ b.start < a.stop))

instance (a b : Edit) : Decidable (Overlap a b) :=
  inferInstanceAs (Decidable (_ ∧ _))

instance (size : Nat) (e : Edit) : Decidable (Misplaced size e) :=
  inferInstanceAs (Decidable (_ ∨ _))

theorem isInsertion_iff {e : Edit} : e.isInsertion = true ↔ e.start = e.stop := by
  simp [isInsertion]

theorem isInsertion_eq_false_iff {e : Edit} : e.isInsertion = false ↔ e.start ≠ e.stop := by
  simp [isInsertion]

theorem isWithin_eq_false_iff {e : Edit} {size : Nat} :
    e.isWithin size = false ↔ e.Misplaced size := by
  simp only [isWithin, Misplaced, Bool.and_eq_false_iff, decide_eq_false_iff_not]
  omega

theorem not_misplaced_iff {e : Edit} {size : Nat} :
    ¬e.Misplaced size ↔ 0 ≤ e.start ∧ e.start ≤ e.stop ∧ e.stop ≤ size := by
  simp only [Misplaced]
  omega

theorem Overlap.symm {a b : Edit} (h : Overlap a b) : Overlap b a := by
  obtain ⟨hne, hcase⟩ := h
  refine ⟨hne.symm, ?_⟩
  rcases hcase with ⟨ha, hb, hab, hba⟩ | hinsertion | hinsertion
  · exact .inl ⟨hb, ha, hba, hab⟩
  · exact .inr (.inr hinsertion)
  · exact .inr (.inl hinsertion)

/-- Different replacements that start at one offset overlap. -/
theorem overlap_of_start_eq {a b : Edit} (hne : a ≠ b) (ha : a.isInsertion = false)
    (hb : b.isInsertion = false) (hforwardA : a.start ≤ a.stop) (hforwardB : b.start ≤ b.stop)
    (hstart : a.start = b.start) : Overlap a b := by
  have hneA := isInsertion_eq_false_iff.1 ha
  have hneB := isInsertion_eq_false_iff.1 hb
  exact ⟨hne, .inl ⟨ha, hb, by omega, by omega⟩⟩

/-! ## Repeated replacements -/

theorem dedupe_sublist (seen : List Edit) (pending : List OwnedEdit) :
    (dedupe seen pending).Sublist pending := by
  fun_induction dedupe seen pending with
  | case1 seen => exact .slnil
  | case2 seen e rest hinsertion ih => exact ih.cons_cons e
  | case3 seen e rest hinsertion hseen ih => exact ih.cons e
  | case4 seen e rest hinsertion hseen ih => exact ih.cons_cons e

/-- Insertions all stay, in their order. -/
theorem filter_dedupe (seen : List Edit) (pending : List OwnedEdit) :
    (dedupe seen pending).filter (·.edit.isInsertion) = pending.filter (·.edit.isInsertion) := by
  fun_induction dedupe seen pending with
  | case1 seen => rfl
  | case2 seen e rest hinsertion ih => simp [hinsertion, ih]
  | case3 seen e rest hinsertion hseen ih => simp [hinsertion, ih]
  | case4 seen e rest hinsertion hseen ih => simp [hinsertion, ih]

/-- A replacement stays once unless it was seen before. -/
theorem count_dedupe (seen : List Edit) (pending : List OwnedEdit) (e : Edit) :
    ((dedupe seen pending).map (·.edit)).count e =
      if e.isInsertion then (pending.map (·.edit)).count e
      else if e ∈ seen then 0 else min 1 ((pending.map (·.edit)).count e) := by
  fun_induction dedupe seen pending with
  | case1 seen => simp
  | case2 seen x rest hinsertion ih =>
      by_cases hx : x.edit = e
      · subst hx
        simp [ih, hinsertion]
      · simp [hx, ih]
  | case3 seen x rest hinsertion hseen ih =>
      have hmem : x.edit ∈ seen := by simpa using hseen
      by_cases hx : x.edit = e
      · subst hx
        simp [ih, hinsertion, hmem]
      · simp [hx, ih]
  | case4 seen x rest hinsertion hseen ih =>
      have hmem : x.edit ∉ seen := by simpa using hseen
      by_cases hx : x.edit = e
      · subst hx
        simp [ih, hinsertion, hmem]
      · have hne : e ≠ x.edit := fun h => hx h.symm
        simp [hx, hne, ih]

theorem mem_of_mem_dedupe {seen : List Edit} {pending : List OwnedEdit} {e : OwnedEdit}
    (h : e ∈ dedupe seen pending) : e ∈ pending :=
  (dedupe_sublist seen pending).mem h

/-- Every edit survives in some entry. -/
theorem exists_mem_dedupe {pending : List OwnedEdit} {e : OwnedEdit} (h : e ∈ pending) :
    ∃ kept ∈ dedupe [] pending, kept.edit = e.edit := by
  have hcount : 0 < (pending.map (·.edit)).count e.edit :=
    List.count_pos_iff.2 (List.mem_map_of_mem h)
  have hkept : 0 < ((dedupe [] pending).map (·.edit)).count e.edit := by
    rw [count_dedupe]
    split
    · exact hcount
    · simp only [List.not_mem_nil, if_false]
      omega
  exact List.mem_map.1 (List.count_pos_iff.1 hkept)

/-- Two entries that stay have the same edit only if it is an insertion. -/
theorem dedupe_pairwise (seen : List Edit) (pending : List OwnedEdit) :
    (dedupe seen pending).Pairwise fun a b => a.edit = b.edit → a.edit.isInsertion = true := by
  fun_induction dedupe seen pending with
  | case1 seen => exact .nil
  | case2 seen e rest hinsertion ih => exact .cons (fun _ _ _ => hinsertion) ih
  | case3 seen e rest hinsertion hseen ih => exact ih
  | case4 seen e rest hinsertion hseen ih =>
      refine .cons (fun b hb heq => ?_) ih
      have hmem : e.edit ∈ (dedupe (e.edit :: seen) rest).map (·.edit) :=
        List.mem_map.2 ⟨b, hb, heq.symm⟩
      have hpos := List.count_pos_iff.2 hmem
      rw [count_dedupe] at hpos
      simp [hinsertion] at hpos

/-! ## Order of application -/

theorem precedes_iff {a b : OwnedEdit} :
    precedes a b = true ↔ a.edit.start < b.edit.start ∨
      (a.edit.start = b.edit.start ∧ (a.edit.isInsertion = true ∨ b.edit.isInsertion = false)) := by
  simp [precedes]

theorem precedes_trans (a b c : OwnedEdit) (hab : precedes a b = true)
    (hbc : precedes b c = true) : precedes a c = true := by
  rw [precedes_iff] at *
  rcases hab with hlt | ⟨heq, hkind⟩
  · left
    rcases hbc with hlt' | ⟨heq', -⟩ <;> omega
  · rcases hbc with hlt' | ⟨heq', hkind'⟩
    · left
      omega
    · refine .inr ⟨heq.trans heq', ?_⟩
      rcases hkind with ha | hb
      · exact .inl ha
      · exact .inr (hkind'.resolve_left (by simp [hb]))

theorem precedes_total (a b : OwnedEdit) : (precedes a b || precedes b a) = true := by
  rw [Bool.or_eq_true, precedes_iff, precedes_iff]
  rcases Int.lt_trichotomy a.edit.start b.edit.start with hlt | heq | hgt
  · exact .inl (.inl hlt)
  · cases ha : a.edit.isInsertion
    · exact .inr (.inr ⟨heq.symm, .inr rfl⟩)
    · exact .inl (.inr ⟨heq, .inl rfl⟩)
  · exact .inr (.inl hgt)

/-- The pending edits without repetitions, in the order of application. -/
def sorted (pending : List OwnedEdit) : List OwnedEdit :=
  (dedupe [] pending).mergeSort precedes

theorem sorted_perm (pending : List OwnedEdit) : (sorted pending).Perm (dedupe [] pending) :=
  List.mergeSort_perm _ _

theorem sorted_pairwise (pending : List OwnedEdit) :
    (sorted pending).Pairwise fun a b => precedes a b = true :=
  List.pairwise_mergeSort precedes_trans precedes_total _

theorem mem_of_mem_sorted {pending : List OwnedEdit} {e : OwnedEdit} (h : e ∈ sorted pending) :
    e ∈ pending :=
  mem_of_mem_dedupe ((sorted_perm pending).mem_iff.1 h)

theorem exists_mem_sorted {pending : List OwnedEdit} {e : OwnedEdit} (h : e ∈ pending) :
    ∃ kept ∈ sorted pending, kept.edit = e.edit := by
  obtain ⟨kept, hkept, heq⟩ := exists_mem_dedupe h
  exact ⟨kept, (sorted_perm pending).mem_iff.2 hkept, heq⟩

theorem sorted_distinct (pending : List OwnedEdit) :
    (sorted pending).Pairwise fun a b => a.edit = b.edit → a.edit.isInsertion = true := by
  refine (sorted_perm pending).symm.pairwise (dedupe_pairwise [] pending) ?_
  intro a b h heq
  exact heq ▸ h heq.symm

/-! ## The scan for conflicts -/

/-- A replacement ends before the other edit starts. -/
def Clear (a b : OwnedEdit) : Prop :=
  a.edit.isInsertion = false → a.edit.stop ≤ b.edit.start

/-- Nothing found: the covering replacement ends before everything that follows, and so does every
replacement in the list. -/
theorem firstConflict_eq_none {covering : Option OwnedEdit} {edits : List OwnedEdit}
    (hforward : ∀ e ∈ edits, e.edit.start ≤ e.edit.stop)
    (h : firstConflict covering edits = none) :
    (∀ c ∈ covering, ∀ e ∈ edits, c.edit.stop ≤ e.edit.start) ∧ edits.Pairwise Clear := by
  induction edits generalizing covering with
  | nil => simp
  | cons e rest ih =>
      have hrest : ∀ x ∈ rest, x.edit.start ≤ x.edit.stop :=
        fun x hx => hforward x (List.mem_cons_of_mem e hx)
      have hhead := hforward e List.mem_cons_self
      -- whatever covers `e`, the scan goes on with `e` itself if it is a replacement
      have hnext : firstConflict (if e.edit.isInsertion then covering else some e) rest = none := by
        cases covering with
        | none => exact h
        | some c =>
            simp only [firstConflict] at h
            split at h
            · simp at h
            · exact h
      have hpassed : ∀ c ∈ covering, c.edit.stop ≤ e.edit.start := by
        intro c hc
        cases hc
        by_contra hlt
        simp [firstConflict, show e.edit.start < c.edit.stop by omega] at h
      obtain ⟨hcover, hpairwise⟩ := ih hrest hnext
      cases hinsertion : e.edit.isInsertion with
      | true =>
          simp only [hinsertion, if_true] at hcover
          refine ⟨fun c hc x hx => ?_, .cons (fun x _ hfalse => ?_) hpairwise⟩
          · rcases List.mem_cons.1 hx with rfl | hx
            · exact hpassed c hc
            · exact hcover c hc x hx
          · simp [hinsertion] at hfalse
      | false =>
          simp only [hinsertion, Bool.false_eq_true, if_false, Option.mem_some_iff,
            forall_eq'] at hcover
          refine ⟨fun c hc x hx => ?_, .cons (fun x hx _ => hcover x hx) hpairwise⟩
          have hc' := hpassed c hc
          rcases List.mem_cons.1 hx with rfl | hx
          · exact hc'
          · have := hcover x hx
            omega

/-- What the scan finds: an edit of the list that starts before the end of a replacement, which
either covered the list from the start or comes before it in the list. -/
theorem firstConflict_eq_some {covering : Option OwnedEdit} {edits : List OwnedEdit}
    {c e : OwnedEdit} (h : firstConflict covering edits = some (c, e)) :
    e.edit.start < c.edit.stop ∧ e ∈ edits ∧
      (covering = some c ∨ (c.edit.isInsertion = false ∧ [c, e].Sublist edits)) := by
  induction edits generalizing covering with
  | nil => simp [firstConflict] at h
  | cons x rest ih =>
      have hstep : (∃ k, covering = some k ∧ x.edit.start < k.edit.stop ∧ (k, x) = (c, e)) ∨
          firstConflict (if x.edit.isInsertion then covering else some x) rest = some (c, e) := by
        cases covering with
        | none => exact .inr h
        | some k =>
            simp only [firstConflict] at h
            split at h
            · rename_i hlt
              exact .inl ⟨k, rfl, hlt, Option.some.inj h⟩
            · exact .inr h
      rcases hstep with ⟨k, hk, hlt, hpair⟩ | hrest
      · obtain ⟨rfl, rfl⟩ := Prod.mk.inj hpair
        exact ⟨hlt, List.mem_cons_self, .inl hk⟩
      · obtain ⟨hlt, hmem, hfrom⟩ := ih hrest
        refine ⟨hlt, List.mem_cons_of_mem x hmem, ?_⟩
        rcases hfrom with hcover | ⟨hreplacement, hsub⟩
        · cases hinsertion : x.edit.isInsertion with
          | true => exact .inl (by simpa [hinsertion] using hcover)
          | false =>
              have hx : x = c := by simpa [hinsertion] using hcover
              subst hx
              exact .inr ⟨hinsertion, (List.singleton_sublist.2 hmem).cons_cons x⟩
        · exact .inr ⟨hreplacement, hsub.cons x⟩

/-- A list of edits that run forward, are in order and are clear of each other. -/
structure Settled (edits : List OwnedEdit) : Prop where
  forward : ∀ e ∈ edits, e.edit.start ≤ e.edit.stop
  ordered : edits.Pairwise fun a b => precedes a b = true
  clear : edits.Pairwise Clear

theorem Settled.not_overlap {edits : List OwnedEdit} (h : Settled edits) :
    ∀ a ∈ edits, ∀ b ∈ edits, ¬Overlap a.edit b.edit := by
  have hpairwise : edits.Pairwise fun a b => ¬Overlap a.edit b.edit := by
    refine (h.ordered.and h.clear).imp ?_
    rintro a b ⟨hprecedes, hclear⟩ ⟨-, hcase⟩
    rw [precedes_iff] at hprecedes
    rcases hcase with ⟨ha, -, -, hlt⟩ | ⟨-, hlt, -⟩ | ⟨hb, hgt, hlt⟩
    · have := hclear ha
      omega
    · omega
    · cases ha : a.edit.isInsertion with
      | true =>
          rw [isInsertion_iff] at ha
          omega
      | false =>
          have := hclear ha
          omega
  have hsymm : Std.Symm fun a b : OwnedEdit => ¬Overlap a.edit b.edit :=
    ⟨fun a b hab hba => hab hba.symm⟩
  have hself : ∀ a ∈ edits, ¬Overlap a.edit a.edit := fun a _ h => h.1 rfl
  exact fun a ha b hb => hpairwise.forall_of_forall hself ha hb

/-- The pair that the scan finds in sorted edits does overlap. -/
theorem overlap_of_firstConflict {pending : List OwnedEdit} {a b : OwnedEdit}
    (hforward : ∀ e ∈ pending, e.edit.start ≤ e.edit.stop)
    (h : firstConflict none (sorted pending) = some (a, b)) : Overlap a.edit b.edit := by
  obtain ⟨hlt, hmem, hfrom⟩ := firstConflict_eq_some h
  obtain ⟨ha, hsub⟩ := hfrom.resolve_left (by simp)
  have hprecedes : precedes a b = true := by
    simpa using (sorted_pairwise pending).sublist hsub
  have hdistinct : a.edit ≠ b.edit := by
    intro heq
    have hpair := (sorted_distinct pending).sublist hsub
    simp [heq, heq ▸ ha] at hpair
  have hstop := hforward b (mem_of_mem_sorted hmem)
  rw [precedes_iff] at hprecedes
  refine ⟨hdistinct, ?_⟩
  cases hb : b.edit.isInsertion with
  | true =>
      -- a replacement precedes an insertion only if it starts strictly before it
      refine .inr (.inr ⟨rfl, ?_, hlt⟩)
      rcases hprecedes with hstart | ⟨-, hkind⟩
      · exact hstart
      · simp [ha, hb] at hkind
  | false =>
      refine .inl ⟨ha, rfl, by rw [isInsertion_eq_false_iff] at hb; omega, hlt⟩

/-! ## Outcomes of the arrangement -/

variable {size : Nat} {pending : List OwnedEdit}

/-- The scan decides once every edit lies within the source. -/
theorem arrange_of_within (h : ∀ e ∈ pending, ¬e.edit.Misplaced size) :
    arrange size pending =
      match firstConflict none (sorted pending) with
      | some (a, b) => .error (.conflict a b)
      | none => .ok (sorted pending) := by
  have hfind : pending.find? (fun e => !e.edit.isWithin size) = none := by
    rw [List.find?_eq_none]
    intro e he hbad
    exact h e he (isWithin_eq_false_iff.1 (by simpa using hbad))
  rw [arrange, hfind]
  rfl

theorem arrange_eq_outside_iff {e : Edit} {n : Nat} :
    arrange size pending = .error (.outside e n) ↔
      n = size ∧ ∃ before x after, pending = before ++ x :: after ∧ x.edit = e ∧
        x.edit.Misplaced size ∧ ∀ b ∈ before, ¬b.edit.Misplaced size := by
  have hfirst : ∀ x, pending.find? (fun e => !e.edit.isWithin size) = some x ↔
      x.edit.Misplaced size ∧ ∃ before after, pending = before ++ x :: after ∧
        ∀ b ∈ before, ¬b.edit.Misplaced size := by
    intro x
    simp [List.find?_eq_some_iff_append, ← isWithin_eq_false_iff]
  constructor
  · intro h
    cases hfind : pending.find? fun e => !e.edit.isWithin size with
    | some x =>
        rw [arrange, hfind] at h
        obtain ⟨rfl, rfl⟩ := EditFault.outside.inj (Except.error.inj h)
        obtain ⟨hbad, before, after, hsplit, hbefore⟩ := (hfirst x).1 hfind
        exact ⟨rfl, before, x, after, hsplit, rfl, hbad, hbefore⟩
    | none =>
        rw [arrange, hfind] at h
        dsimp only at h
        split at h <;> simp at h
  · rintro ⟨rfl, before, x, after, hsplit, rfl, hbad, hbefore⟩
    rw [arrange, (hfirst x).2 ⟨hbad, before, after, hsplit, hbefore⟩]

/-- Either some edit is misplaced and the first such edit is named, or all are in place. -/
theorem within_or_outside (size : Nat) (pending : List OwnedEdit) :
    (∀ e ∈ pending, ¬e.edit.Misplaced size) ∨
      ∃ e, arrange size pending = .error (.outside e size) := by
  cases hfind : pending.find? fun e => !e.edit.isWithin size with
  | some x => exact .inr ⟨x.edit, by rw [arrange, hfind]⟩
  | none =>
      refine .inl fun e he hbad => ?_
      have := List.find?_eq_none.1 hfind e he
      simp [isWithin_eq_false_iff.2 hbad] at this

theorem arrange_eq_conflict {a b : OwnedEdit}
    (h : arrange size pending = .error (.conflict a b)) :
    (∀ e ∈ pending, ¬e.edit.Misplaced size) ∧ a ∈ pending ∧ b ∈ pending ∧
      Overlap a.edit b.edit := by
  rcases within_or_outside size pending with hwithin | ⟨e, houtside⟩
  · rw [arrange_of_within hwithin] at h
    split at h
    · rename_i a' b' hfound
      obtain ⟨rfl, rfl⟩ := EditFault.conflict.inj (Except.error.inj h)
      have hforward : ∀ e ∈ pending, e.edit.start ≤ e.edit.stop :=
        fun e he => (not_misplaced_iff.1 (hwithin e he)).2.1
      obtain ⟨-, hb, hfrom⟩ := firstConflict_eq_some hfound
      obtain ⟨-, hsub⟩ := hfrom.resolve_left (by simp)
      have ha : a' ∈ sorted pending := hsub.mem (by simp)
      exact ⟨hwithin, mem_of_mem_sorted ha, mem_of_mem_sorted hb,
        overlap_of_firstConflict hforward hfound⟩
    · simp at h
  · simp [houtside] at h

theorem arrange_eq_ok {ordered : List OwnedEdit} (h : arrange size pending = .ok ordered) :
    (∀ e ∈ pending, ¬e.edit.Misplaced size) ∧ ordered = sorted pending ∧ Settled ordered := by
  rcases within_or_outside size pending with hwithin | ⟨e, houtside⟩
  · rw [arrange_of_within hwithin] at h
    split at h
    · simp at h
    · rename_i hclear
      obtain rfl := Except.ok.inj h
      have hforward : ∀ e ∈ sorted pending, e.edit.start ≤ e.edit.stop :=
        fun e he => (not_misplaced_iff.1 (hwithin e (mem_of_mem_sorted he))).2.1
      exact ⟨hwithin, rfl, hforward, sorted_pairwise pending,
        (firstConflict_eq_none hforward hclear).2⟩
  · simp [houtside] at h

/-- Edits that lie within the source and do not overlap can be arranged. -/
theorem arrange_of_no_overlap (hwithin : ∀ e ∈ pending, ¬e.edit.Misplaced size)
    (hclear : ∀ a ∈ pending, ∀ b ∈ pending, ¬Overlap a.edit b.edit) :
    arrange size pending = .ok (sorted pending) := by
  cases h : arrange size pending with
  | ok ordered => rw [(arrange_eq_ok h).2.1]
  | error fault =>
      cases fault with
      | outside e n =>
          obtain ⟨-, before, x, after, rfl, -, hbad, -⟩ := arrange_eq_outside_iff.1 h
          exact absurd hbad (hwithin x (by simp))
      | conflict a b =>
          obtain ⟨-, ha, hb, hoverlap⟩ := arrange_eq_conflict h
          exact absurd hoverlap (hclear a ha b hb)

end RubyLint.Edit

namespace RubyLint.EditScript

open Edit

theorem check_eq_error_iff {s : EditScript} {fault : EditFault} :
    s.check = .error fault ↔
      arrange (Utf8.encode s.source).length s.pending = .error fault := by
  rw [check]
  cases arrange (Utf8.encode s.source).length s.pending <;> simp [Except.map]

theorem check_eq_ok_iff {s : EditScript} {ordered : List Edit} :
    s.check = .ok ordered ↔ ∃ arranged,
      arrange (Utf8.encode s.source).length s.pending = .ok arranged ∧
        ordered = arranged.map (·.edit) := by
  rw [check]
  cases arrange (Utf8.encode s.source).length s.pending <;> simp [Except.map, eq_comm]

/-- The outcome of checking a script.  A misplaced edit is always the fault, and the first one added
is named.  Without one, the check fails exactly if two edits overlap, names two pending entries that
do, and otherwise returns the edits: every insertion as often as it was added and every replacement
once, in the order of application. -/
theorem check_outcome (s : EditScript) :
    ((∃ e n, s.check = .error (.outside e n)) ↔
      ∃ e ∈ s.edits, e.Misplaced (Utf8.encode s.source).length) ∧
    (∀ e n, s.check = .error (.outside e n) →
      n = (Utf8.encode s.source).length ∧ e.Misplaced n ∧
        ∃ before after, s.edits = before ++ e :: after ∧ ∀ b ∈ before, ¬b.Misplaced n) ∧
    ((∀ e ∈ s.edits, ¬e.Misplaced (Utf8.encode s.source).length) →
      ((∃ a b, s.check = .error (.conflict a b)) ↔
        ∃ a ∈ s.edits, ∃ b ∈ s.edits, Overlap a b)) ∧
    (∀ a b, s.check = .error (.conflict a b) →
      a ∈ s.pending ∧ b ∈ s.pending ∧ Overlap a.edit b.edit) ∧
    ((∀ e ∈ s.edits, ¬e.Misplaced (Utf8.encode s.source).length) →
      (∀ a ∈ s.edits, ∀ b ∈ s.edits, ¬Overlap a b) →
      ∃ ordered, s.check = .ok ordered ∧
        (∀ e, ordered.count e =
          if e.isInsertion then s.edits.count e else min 1 (s.edits.count e)) ∧
        ordered.Pairwise fun a b => a.start < b.start ∨
          (a.start = b.start ∧ (a.isInsertion = true ∨ b.isInsertion = false))) := by
  set size := (Utf8.encode s.source).length with hsize
  have hwithin : (∀ e ∈ s.edits, ¬e.Misplaced size) →
      ∀ e ∈ s.pending, ¬e.edit.Misplaced size :=
    fun h e he => h e.edit (List.mem_map_of_mem he)
  have houtside : ∀ e n, s.check = .error (.outside e n) →
      n = size ∧ e.Misplaced n ∧
        ∃ before after, s.edits = before ++ e :: after ∧ ∀ b ∈ before, ¬b.Misplaced n := by
    intro e n h
    obtain ⟨rfl, before, x, after, hsplit, rfl, hbad, hbefore⟩ :=
      arrange_eq_outside_iff.1 (check_eq_error_iff.1 h)
    refine ⟨rfl, hbad, before.map (·.edit), after.map (·.edit), by simp [edits, hsplit], ?_⟩
    simpa using hbefore
  have hconflict : ∀ a b, s.check = .error (.conflict a b) →
      a ∈ s.pending ∧ b ∈ s.pending ∧ Overlap a.edit b.edit :=
    fun a b h => (arrange_eq_conflict (check_eq_error_iff.1 h)).2
  refine ⟨⟨?_, ?_⟩, houtside, fun hplaced => ⟨?_, ?_⟩, hconflict, fun hplaced hclear => ?_⟩
  · rintro ⟨e, n, h⟩
    obtain ⟨rfl, hbad, before, after, hsplit, -⟩ := houtside e n h
    exact ⟨e, by simp [hsplit], hbad⟩
  · rintro ⟨e, he, hbad⟩
    rcases within_or_outside size s.pending with hall | ⟨x, hx⟩
    · obtain ⟨owned, howned, rfl⟩ := List.mem_map.1 he
      exact absurd hbad (hall owned howned)
    · exact ⟨x, size, check_eq_error_iff.2 hx⟩
  · rintro ⟨a, b, h⟩
    obtain ⟨ha, hb, hoverlap⟩ := hconflict a b h
    exact ⟨a.edit, List.mem_map_of_mem ha, b.edit, List.mem_map_of_mem hb, hoverlap⟩
  · rintro ⟨a, ha, b, hb, hoverlap⟩
    obtain ⟨ownedA, hownedA, rfl⟩ := List.mem_map.1 ha
    obtain ⟨ownedB, hownedB, rfl⟩ := List.mem_map.1 hb
    cases harranged : arrange size s.pending with
    | ok ordered =>
        -- both edits are still there after repetitions are dropped
        obtain ⟨-, rfl, hsettled⟩ := arrange_eq_ok harranged
        obtain ⟨x, hx, hxa⟩ := exists_mem_sorted hownedA
        obtain ⟨y, hy, hyb⟩ := exists_mem_sorted hownedB
        exact absurd (hxa ▸ hyb ▸ hoverlap) (hsettled.not_overlap x hx y hy)
    | error fault =>
        cases fault with
        | conflict x y => exact ⟨x, y, check_eq_error_iff.2 harranged⟩
        | outside e n =>
            obtain ⟨rfl, hbad, before, after, hsplit, -⟩ :=
              houtside e n (check_eq_error_iff.2 harranged)
            exact absurd hbad (hplaced e (by simp [hsplit]))
  · have harranged := arrange_of_no_overlap (hwithin hplaced)
      fun a ha b hb => hclear _ (List.mem_map_of_mem ha) _ (List.mem_map_of_mem hb)
    refine ⟨(sorted s.pending).map (·.edit), check_eq_ok_iff.2 ⟨_, harranged, rfl⟩, ?_, ?_⟩
    · intro e
      rw [((sorted_perm s.pending).map _).count_eq, count_dedupe]
      simp [edits]
    · rw [List.pairwise_map]
      exact (sorted_pairwise s.pending).imp precedes_iff.1

end RubyLint.EditScript
