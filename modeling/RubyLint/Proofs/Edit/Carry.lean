import Mathlib.Data.Nat.Init
import RubyLint.Proofs.Edit.Positional
import RubyLint.Proofs.Text.LineIndex

/-!
# Offsets carried through edits

Where an offset of a source lands in the edited bytes.  The start of a range moves behind what is
inserted at it, and its end stays before.  The line on which an offset lands is counted by the
newlines that are kept and those that are inserted before it, so two offsets land on one line
exactly if no newline between them is kept and no line break is inserted between them.
-/

namespace RubyLint.Edit

variable {data : List UInt8} {edits : List Edit} {i p q : Nat}

/-- What the offsets before a given one contribute to the edited bytes. -/
def emittedBefore (data : List UInt8) (edits : List Edit) (p : Nat) : List UInt8 :=
  (List.range p).flatMap (emittedAt data edits)

/-- Where the end of a range lands. -/
def carryStop (data : List UInt8) (edits : List Edit) (p : Nat) : Nat :=
  (emittedBefore data edits p).length

def carryStart (data : List UInt8) (edits : List Edit) (p : Nat) : Nat :=
  carryStop data edits p + (insertedAt edits p).length

def isCovered (edits : List Edit) (i : Nat) : Bool :=
  edits.any (·.covers i)

/-- The number of line breaks inserted at an offset. -/
def breaksAt (edits : List Edit) (p : Nat) : Nat :=
  (insertedAt edits p).count 10

/-- The number of newlines before the place where a start lands. -/
def linesBefore (data : List UInt8) (edits : List Edit) (p : Nat) : Nat :=
  (emittedBefore data edits p).count 10 + breaksAt edits p

theorem keptAt_eq (data : List UInt8) (edits : List Edit) (i : Nat) :
    keptAt data edits i = if isCovered edits i then [] else data[i]?.toList :=
  rfl

theorem emittedBefore_succ (p : Nat) :
    emittedBefore data edits (p + 1) = emittedBefore data edits p ++ emittedAt data edits p := by
  simp [emittedBefore, List.range_succ]

/-- What comes before an offset is the front of the edited bytes. -/
theorem emittedBefore_front (h : p ≤ data.length + 1) :
    emittedBefore data edits p <+: positional data edits := by
  obtain ⟨more, hmore⟩ := Nat.exists_eq_add_of_le h
  rw [positional, hmore, List.range_add, List.flatMap_append]
  exact List.prefix_append _ _

theorem take_carryStop (h : p ≤ data.length + 1) :
    (positional data edits).take (carryStop data edits p) = emittedBefore data edits p :=
  (List.prefix_iff_eq_take.1 (emittedBefore_front h)).symm

theorem take_carryStart (h : p ≤ data.length) :
    (positional data edits).take (carryStart data edits p) =
      emittedBefore data edits p ++ insertedAt edits p := by
  have hbefore : emittedBefore data edits p ++ insertedAt edits p <+: positional data edits := by
    refine List.IsPrefix.trans ?_ (emittedBefore_front (p := p + 1) (by omega))
    rw [emittedBefore_succ, emittedAt, List.append_assoc, ← List.append_assoc]
    exact List.prefix_append _ _
  rw [carryStart, carryStop, ← List.length_append]
  exact (List.prefix_iff_eq_take.1 hbefore).symm

theorem carryStop_mono (data : List UInt8) (edits : List Edit) (h : p ≤ q) :
    carryStop data edits p ≤ carryStop data edits q := by
  obtain ⟨more, rfl⟩ := Nat.exists_eq_add_of_le h
  rw [carryStop, carryStop, emittedBefore, emittedBefore, List.range_add, List.flatMap_append,
    List.length_append]
  omega

theorem carryStop_le_length (h : p ≤ data.length) :
    carryStop data edits p ≤ (positional data edits).length :=
  (emittedBefore_front (by omega)).length_le

theorem carryStop_succ (data : List UInt8) (edits : List Edit) (p : Nat) :
    carryStop data edits (p + 1) = carryStart data edits p + (replacedAt edits p).length +
      (keptAt data edits p).length := by
  simp [carryStart, carryStop, emittedBefore_succ, emittedAt, Nat.add_assoc]

theorem carryStop_le_carryStart (data : List UInt8) (edits : List Edit) (p : Nat) :
    carryStop data edits p ≤ carryStart data edits p :=
  Nat.le_add_right _ _

theorem carryStart_le_carryStop (data : List UInt8) (edits : List Edit) (h : p < q) :
    carryStart data edits p ≤ carryStop data edits q := by
  have hsucc := carryStop_succ data edits p
  have hmono := carryStop_mono data edits (show p + 1 ≤ q from h)
  omega

/-- Whether something stands for the byte at an offset: itself or the text that replaces it. -/
def isVisible (edits : List Edit) (p : Nat) : Prop :=
  isCovered edits p = false ∨ replacedAt edits p ≠ []

/-- A range that starts at a visible byte does not become empty. -/
theorem carryStart_lt_carryStop (hvisible : isVisible edits p) (hp : p < data.length)
    (hpq : p < q) :
    carryStart data edits p < carryStop data edits q := by
  have hsucc := carryStop_succ data edits p
  have hmono := carryStop_mono data edits (show p + 1 ≤ q from hpq)
  have hpos : 0 < (replacedAt edits p).length + (keptAt data edits p).length := by
    rcases hvisible with hkept | hreplaced
    · simp [keptAt_eq, hkept, hp]
    · have := List.length_pos_iff.2 hreplaced
      omega
  omega

/-- A range that no edit touches keeps its bytes. -/
theorem drop_take_carry (hpq : p < q) (hq : q ≤ data.length)
    (hkept : ∀ i, p ≤ i → i < q → isCovered edits i = false ∧ replacedAt edits i = [])
    (hquiet : ∀ i, p < i → i < q → insertedAt edits i = []) :
    ((positional data edits).drop (carryStart data edits p)).take
        (carryStop data edits q - carryStart data edits p) = (data.drop p).take (q - p) := by
  have hbefore : emittedBefore data edits q =
      (emittedBefore data edits p ++ insertedAt edits p) ++ (data.drop p).take (q - p) := by
    induction q, hpq using Nat.le_induction with
    | base =>
        obtain ⟨hcovered, hreplaced⟩ := hkept p (Nat.le_refl p) (Nat.lt_succ_self p)
        have htake : (data.drop p).take (p + 1 - p) = [data[p]] := by
          rw [List.drop_eq_getElem_cons (by omega), show p + 1 - p = 0 + 1 by omega,
            List.take_succ_cons, List.take_zero]
        rw [Nat.succ_eq_add_one, emittedBefore_succ, emittedAt, hreplaced, keptAt_eq, hcovered,
          htake]
        simp [show p < data.length by omega]
    | succ q hle ih =>
        obtain ⟨hcovered, hreplaced⟩ := hkept q (by omega) (Nat.lt_succ_self q)
        have ih := ih (by omega) (fun i hi hiq => hkept i hi (by omega))
          fun i hi hiq => hquiet i hi (by omega)
        have htake : (data.drop p).take (q + 1 - p) = (data.drop p).take (q - p) ++ [data[q]] := by
          rw [show q + 1 - p = q - p + 1 by omega, List.take_add_one, List.getElem?_drop,
            show p + (q - p) = q by omega, List.getElem?_eq_getElem (by omega)]
          rfl
        rw [emittedBefore_succ, ih, emittedAt, hquiet q (by omega) (Nat.lt_succ_self q), hreplaced,
          keptAt_eq, hcovered, htake]
        simp [show q < data.length by omega]
  have hstart : (emittedBefore data edits p ++ insertedAt edits p).length =
      carryStart data edits p := by
    rw [List.length_append]
    rfl
  rw [← List.drop_take, take_carryStop (by omega), hbefore, ← hstart, List.drop_left]

/-- The line on which a start lands. -/
theorem lineOf_carryStart (h : p ≤ data.length) :
    (LineIndex.ofBytes (positional data edits)).lineOf (carryStart data edits p) =
      linesBefore data edits p + 1 := by
  rw [LineIndex.lineOf_eq_count, take_carryStart h, List.count_append]
  rfl

theorem linesBefore_mono (h : p ≤ q) : linesBefore data edits p ≤ linesBefore data edits q := by
  induction q, h using Nat.le_induction with
  | base => exact Nat.le_refl _
  | succ q _ ih =>
      refine Nat.le_trans ih ?_
      simp only [linesBefore, breaksAt, emittedBefore_succ, emittedAt, List.count_append]
      omega

/-! ## Edits that keep lines apart -/

/-- Replacements bring no newline, and what is inserted at a covered offset comes before the text
that replaces it. -/
structure Smooth (edits : List Edit) : Prop where
  plain : ∀ p, (replacedAt edits p).count 10 = 0
  chained : ∀ i, isCovered edits i = true → replacedAt edits i ≠ [] ∨
    (insertedAt edits i = [] ∧ ∃ j, i = j + 1 ∧ isCovered edits j = true)

namespace Smooth

variable (h : Smooth edits)

include h

theorem linesBefore_succ (p : Nat) :
    linesBefore data edits (p + 1) =
      linesBefore data edits p + (keptAt data edits p).count 10 + breaksAt edits (p + 1) := by
  have hplain := h.plain p
  simp only [linesBefore, breaksAt, emittedBefore_succ, emittedAt, List.count_append, hplain]
  omega

/-- A later offset lands on a later line exactly if a newline between the two is kept or a line
break is inserted after the first one. -/
theorem linesBefore_lt_iff (hle : p ≤ q) :
    linesBefore data edits p < linesBefore data edits q ↔
      (∃ i, p ≤ i ∧ i < q ∧ data[i]? = some 10 ∧ isCovered edits i = false) ∨
        ∃ i, p < i ∧ i ≤ q ∧ 0 < breaksAt edits i := by
  induction q, hle using Nat.le_induction with
  | base =>
      simp only [Nat.lt_irrefl, false_iff]
      rintro (⟨i, hi, hip, -⟩ | ⟨i, hi, hip, -⟩) <;> omega
  | succ q hle ih =>
      have hmono : linesBefore data edits p ≤ linesBefore data edits q := linesBefore_mono hle
      have hkept : 0 < (keptAt data edits q).count 10 ↔
          data[q]? = some 10 ∧ isCovered edits q = false := by
        rw [keptAt_eq]
        cases isCovered edits q with
        | true => simp
        | false => cases data[q]? <;> simp [List.count_pos_iff, eq_comm]
      rw [h.linesBefore_succ]
      constructor
      · intro hlt
        by_cases hbefore : linesBefore data edits p < linesBefore data edits q
        · rcases ih.1 hbefore with ⟨i, hi, hiq, hnewline⟩ | ⟨i, hi, hiq, hbreak⟩
          · exact .inl ⟨i, hi, by omega, hnewline⟩
          · exact .inr ⟨i, hi, by omega, hbreak⟩
        by_cases hbreak : 0 < breaksAt edits (q + 1)
        · exact .inr ⟨q + 1, by omega, by omega, hbreak⟩
        · exact .inl ⟨q, hle, by omega, hkept.1 (by omega)⟩
      · rintro (⟨i, hi, hiq, hnewline⟩ | ⟨i, hi, hiq, hbreak⟩)
        · rcases Nat.eq_or_lt_of_le (Nat.le_of_lt_succ hiq) with rfl | hiq
          · have := hkept.2 hnewline
            omega
          · have := ih.2 (.inl ⟨i, hi, hiq, hnewline⟩)
            omega
        · rcases Nat.eq_or_lt_of_le hiq with rfl | hiq
          · omega
          · have := ih.2 (.inr ⟨i, hi, by omega, hbreak⟩)
            omega

/-- The last byte before the place where an end lands is kept or part of a replacement. -/
theorem count_dropLast (hq : q < data.length) :
    emittedBefore data edits (q + 1) ≠ [] ∧
      (emittedBefore data edits (q + 1)).dropLast.count 10 = linesBefore data edits q := by
  induction q using Nat.strongRecOn with
  | ind q ih =>
      have hplain := h.plain q
      have hsplit : emittedBefore data edits (q + 1) = emittedBefore data edits q ++
          (insertedAt edits q ++ (replacedAt edits q ++ keptAt data edits q)) := by
        rw [emittedBefore_succ, emittedAt, List.append_assoc]
      have hcount : ∀ ending : List UInt8, ending ≠ [] → ending.dropLast.count 10 = 0 →
          emittedBefore data edits (q + 1) =
            emittedBefore data edits q ++ (insertedAt edits q ++ ending) →
          emittedBefore data edits (q + 1) ≠ [] ∧
            (emittedBefore data edits (q + 1)).dropLast.count 10 = linesBefore data edits q := by
        intro ending hne hzero heq
        rw [heq, List.dropLast_append_of_ne_nil (by simp [hne]), List.dropLast_append_of_ne_nil hne]
        simp [hne, List.count_append, hzero, linesBefore, breaksAt]
      cases hcovered : isCovered edits q with
      | false =>
          have hkept : keptAt data edits q = [data[q]] := by
            simp [keptAt_eq, hcovered, hq]
          refine hcount (replacedAt edits q ++ keptAt data edits q) (by simp [hkept]) ?_ hsplit
          rw [hkept, List.dropLast_concat, hplain]
      | true =>
          have hkept : keptAt data edits q = [] := by simp [keptAt_eq, hcovered]
          rw [hkept, List.append_nil] at hsplit
          rcases h.chained q hcovered with hreplaced | ⟨hinserted, j, rfl, hj⟩
          · refine hcount _ hreplaced (Nat.le_zero.1 ?_) hsplit
            exact hplain ▸ (List.dropLast_sublist _).count_le 10
          · -- Inside a replaced range nothing is emitted, so the offset before it decides.
            by_cases hreplaced : replacedAt edits (j + 1) = []
            · rw [hinserted, hreplaced, List.append_nil, List.append_nil] at hsplit
              obtain ⟨hne, hlast⟩ := ih j (Nat.lt_succ_self j) (by omega)
              have hkeptJ : keptAt data edits j = [] := by simp [keptAt_eq, hj]
              rw [hsplit]
              refine ⟨hne, ?_⟩
              rw [hlast, h.linesBefore_succ, hkeptJ, breaksAt, hinserted]
              rfl
            · refine hcount _ hreplaced (Nat.le_zero.1 ?_) hsplit
              exact hplain ▸ (List.dropLast_sublist _).count_le 10

/-- The line on which an end lands: that of the byte before it. -/
theorem lineOf_carryStop (data : List UInt8) (hq : q < data.length) :
    0 < carryStop data edits (q + 1) ∧
      (LineIndex.ofBytes (positional data edits)).lineOf
        ((carryStop data edits (q + 1) - 1 : Nat) : Int) = linesBefore data edits q + 1 := by
  obtain ⟨hne, hcount⟩ := h.count_dropLast hq
  refine ⟨List.length_pos_iff.2 hne, ?_⟩
  have htake : (positional data edits).take (carryStop data edits (q + 1) - 1) =
      (emittedBefore data edits (q + 1)).dropLast := by
    rw [List.dropLast_eq_take, ← take_carryStop (by omega), List.take_take, List.length_take,
      Nat.min_eq_left (carryStop_le_length (by omega)), Nat.min_eq_left (by omega)]
  rw [LineIndex.lineOf_eq_count, htake, hcount]

end Smooth

end RubyLint.Edit
