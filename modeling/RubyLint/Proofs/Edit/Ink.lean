import Mathlib.Data.List.Perm.Basic
import RubyLint.Proofs.Edit.Positional

/-!
# Ink

What is left of a text once whitespace and backslashes are erased.  A replacement of blank bytes
leaves the same ink as an insertion at the end of the range that it replaces, so edits of which all
replacements are of that kind leave the ink of a list of insertions.

Along the offsets the ink of the edits runs ahead of the ink of the insertions: while an offset lies
inside a replaced range, by the ink of the replacement.
-/

namespace RubyLint.Edit

/-- Whitespace, and the backslash that continues a line. -/
def blankBytes : List UInt8 :=
  [9, 10, 11, 12, 13, 32, 92]

/-- The bytes that are left once whitespace and backslashes are erased. -/
def inked (data : List UInt8) : List UInt8 :=
  data.filter fun b => !blankBytes.contains b

@[simp]
theorem inked_nil : inked [] = [] :=
  rfl

@[simp]
theorem inked_append (xs ys : List UInt8) : inked (xs ++ ys) = inked xs ++ inked ys :=
  List.filter_append ..

theorem inked_flatMap {α : Type} (xs : List α) (f : α → List UInt8) :
    inked (xs.flatMap f) = xs.flatMap fun x => inked (f x) :=
  List.filter_flatMap ..

/-- What an edit writes, less whitespace and backslashes. -/
def ink (e : Edit) : List UInt8 :=
  inked (Utf8.encode e.replacement)

/-- The edit as an insertion at its end. -/
def settled (e : Edit) : Edit :=
  { e with start := e.stop }

/-- Insertions at the same offset write smaller bytes first. -/
def Ascending (a b : Edit) : Prop :=
  a.isInsertion = true → b.isInsertion = true → a.start = b.start →
    ∀ x ∈ a.ink, ∀ y ∈ b.ink, x ≤ y

/-- Edits that write their ink in ascending order at every offset. -/
structure Ordered (edits : List Edit) : Prop where
  single : ∀ e ∈ edits, e.ink.Pairwise (· ≤ ·)
  /-- A replacement writes the least bytes. -/
  least : ∀ g ∈ edits, g.isInsertion = false → ∀ e ∈ edits, ∀ x ∈ g.ink, ∀ y ∈ e.ink, x ≤ y
  ascending : edits.Pairwise Ascending

/-- Edits whose ink can be moved: they lie within the text, an edge of one does not lie strictly
inside the range of another, no two of them replace ranges that start together, and what they
replace is blank. -/
structure Movable (data : List UInt8) (edits : List Edit) : Prop where
  within : ∀ e ∈ edits, ¬e.Misplaced data.length
  clear : ∀ g ∈ edits, g.isInsertion = false → ∀ e ∈ edits,
    (e.start ≤ g.start ∨ g.stop ≤ e.start) ∧ (e.stop ≤ g.start ∨ g.stop ≤ e.stop)
  starts : edits.Pairwise fun a b =>
    a.isInsertion = false → b.isInsertion = false → a.start ≠ b.start
  blank : ∀ g ∈ edits, ∀ i, g.covers i = true → inked data[i]?.toList = []

variable {data : List UInt8} {edits moved : List Edit} {p : Nat}

/-- By how much the ink of some edits runs ahead at an offset: by the replacements that started
before it and do not end before it. -/
def ahead (edits : List Edit) (p : Nat) : List UInt8 :=
  (edits.filter fun e =>
    !e.isInsertion && (e.start < (p : Int) && (p : Int) ≤ e.stop)).flatMap ink

theorem inked_insertedAt (edits : List Edit) (p : Nat) :
    inked (insertedAt edits p) =
      (edits.filter fun e => e.isInsertion && e.start == (p : Int)).flatMap ink := by
  rw [insertedAt, inked_flatMap]
  rfl

/-- The edits that are under way at an offset can be told by another test. -/
theorem ahead_eq {test : Edit → Bool} (h : ∀ e ∈ edits, e.isInsertion = false →
    (test e = true ↔ e.start < (p : Int) ∧ (p : Int) ≤ e.stop)) :
    ahead edits p = (edits.filter fun e => !e.isInsertion && test e).flatMap ink := by
  rw [ahead]
  congr 1
  apply List.filter_congr
  intro e he
  cases hinsertion : e.isInsertion with
  | true => rfl
  | false =>
      have htest := h e he hinsertion
      rw [Bool.eq_iff_iff]
      simpa using htest.symm

theorem ahead_eq_nil (h : ∀ e ∈ edits, ¬(e.start < (p : Int) ∧ (p : Int) ≤ e.stop)) :
    ahead edits p = [] := by
  have hnone : ahead edits p = (edits.filter fun e => !e.isInsertion && false).flatMap ink :=
    ahead_eq fun e he _ => by simpa using h e he
  rw [hnone]
  simp

/-- Insertions leave every byte. -/
theorem emittedAt_of_insertions (h : ∀ e ∈ moved, e.isInsertion = true) (p : Nat) :
    emittedAt data moved p = insertedAt moved p ++ data[p]?.toList := by
  have hreplaced : replacedAt moved p = [] :=
    replacedAt_eq_nil fun e he hreplace => absurd (h e he) (Bool.eq_false_iff.1 hreplace)
  have hkept : keptAt data moved p = data[p]?.toList := by
    refine keptAt_of_clear fun e he => ?_
    simp [covers, h e he]
  rw [emittedAt, hreplaced, hkept, List.append_nil]

/-- Filtering by a test that one element passes at most finds that element. -/
theorem filter_eq_toList_find? {α : Type} {test : α → Bool} {xs : List α}
    (h : xs.Pairwise fun a b => test a = true → test b = false) :
    xs.filter test = (xs.find? test).toList := by
  induction xs with
  | nil => rfl
  | cons x rest ih =>
      obtain ⟨hx, hrest⟩ := List.pairwise_cons.1 h
      cases htest : test x with
      | false => rw [List.filter_cons, List.find?_cons, htest, if_neg Bool.false_ne_true, ih hrest]
      | true =>
          have hnone : rest.filter test = [] := by
            rw [List.filter_eq_nil_iff]
            intro y hy
            simp [hx y hy htest]
          rw [List.filter_cons, List.find?_cons, htest, if_pos rfl, hnone]
          rfl

namespace Movable

variable (h : Movable data edits)

include h

theorem forward {e : Edit} (he : e ∈ edits) : 0 ≤ e.start ∧ e.start ≤ e.stop ∧
    e.stop ≤ data.length :=
  not_misplaced_iff.1 (h.within e he)

/-- Inside a replaced range the edits write nothing, and the byte there is blank. -/
theorem step_inside {g : Edit} (hg : g ∈ edits) (hreplace : g.isInsertion = false)
    (hstart : g.start < p) (hstop : (p : Int) < g.stop) :
    emittedAt data edits p = [] ∧ inked data[p]?.toList = [] ∧
      ahead edits p = ahead edits (p + 1) := by
  have hclear := h.clear g hg hreplace
  have hcovers : g.covers p = true := covers_iff.2 ⟨hreplace, by omega, hstop⟩
  have hne : ∀ e ∈ edits, e.start ≠ p := by
    intro e he
    have := hclear e he
    omega
  refine ⟨?_, h.blank g hg p hcovers, ?_⟩
  · rw [emittedAt, insertedAt_eq_nil fun e he _ => hne e he,
      replacedAt_eq_nil fun e he _ => hne e he, keptAt_eq_nil hg hcovers]
    rfl
  · apply Eq.symm
    apply ahead_eq
    intro e he _
    have := hclear e he
    simp
    omega

/-- At most one replacement starts at an offset. -/
theorem inked_replacedAt (p : Nat) :
    inked (replacedAt edits p) =
      (edits.filter fun e => !e.isInsertion && e.start == (p : Int)).flatMap ink := by
  have honce : edits.Pairwise fun a b => (!a.isInsertion && a.start == (p : Int)) = true →
      (!b.isInsertion && b.start == (p : Int)) = false := by
    apply h.starts.imp
    intro a b hstarts ha
    simp only [Bool.and_eq_true, Bool.not_eq_true', beq_iff_eq] at ha
    rw [Bool.and_eq_false_iff, Bool.not_eq_false', beq_eq_false_iff_ne]
    cases hb : b.isInsertion with
    | true => exact .inl rfl
    | false => exact .inr (ha.2 ▸ (hstarts ha.1 hb).symm)
  rw [filter_eq_toList_find? honce, replacedAt]
  cases edits.find? fun e => !e.isInsertion && e.start == (p : Int) with
  | none => rfl
  | some e => simp [ink]

section Outside

variable (hclear : ∀ g ∈ edits, g.isInsertion = false → ¬(g.start < p ∧ (p : Int) < g.stop))

include hclear

/-- Outside of replaced ranges the replacements that end at an offset were ahead. -/
theorem ahead_outside : ahead edits p =
    (edits.filter fun e => !e.isInsertion && e.stop == (p : Int)).flatMap ink := by
  apply ahead_eq
  intro e he hreplace
  have := (h.forward he).2.1
  have := hclear e he hreplace
  rw [isInsertion_eq_false_iff] at hreplace
  rw [beq_iff_eq]
  omega

/-- Outside of replaced ranges the replacements that start at an offset will be ahead; one that does
covers a blank byte. -/
theorem step_outside :
    inked (replacedAt edits p) ++ inked (keptAt data edits p) =
      inked data[p]?.toList ++ ahead edits (p + 1) := by
  have hahead : ahead edits (p + 1) =
      (edits.filter fun e => !e.isInsertion && e.start == (p : Int)).flatMap ink := by
    apply ahead_eq
    intro e he hreplace
    have := (h.forward he).2.1
    have := hclear e he hreplace
    rw [isInsertion_eq_false_iff] at hreplace
    rw [beq_iff_eq]
    omega
  rw [h.inked_replacedAt, hahead, keptAt]
  by_cases hcovered : edits.any (·.covers p) = true
  · obtain ⟨g, hg, hcovers⟩ := List.any_eq_true.1 hcovered
    rw [if_pos hcovered, h.blank g hg p hcovers, inked_nil, List.append_nil, List.nil_append]
  · have hnone : (edits.filter fun e => !e.isInsertion && e.start == (p : Int)) = [] := by
      rw [List.filter_eq_nil_iff]
      intro e he htest
      simp only [Bool.and_eq_true, Bool.not_eq_true', beq_iff_eq] at htest
      have := (h.forward he).2.1
      have hne := isInsertion_eq_false_iff.1 htest.1
      apply hcovered
      exact List.any_eq_true.2 ⟨e, he, covers_iff.2 ⟨htest.1, by omega, by omega⟩⟩
    rw [if_neg hcovered, hnone, List.flatMap_nil, List.append_nil, List.nil_append]

end Outside

end Movable

/-! ## Order -/

/-- Bytes written in ascending order one edit after the other. -/
theorem Ordered.pairwise_flatMap (h : Ordered edits) {test : Edit → Bool}
    (htest : (edits.filter test).Pairwise fun a b => ∀ x ∈ a.ink, ∀ y ∈ b.ink, x ≤ y) :
    ((edits.filter test).flatMap ink).Pairwise (· ≤ ·) := by
  rw [List.pairwise_flatMap]
  exact ⟨fun e he => h.single e (List.mem_of_mem_filter he), htest⟩

theorem Ordered.pairwise_inserted (h : Ordered edits) (p : Nat) :
    ((edits.filter fun e => e.isInsertion && e.start == (p : Int)).flatMap ink).Pairwise
      (· ≤ ·) := by
  apply h.pairwise_flatMap
  rw [List.pairwise_filter]
  apply h.ascending.imp
  intro a b hab ha hb
  simp only [Bool.and_eq_true, beq_iff_eq] at ha hb
  exact hab ha.1 hb.1 (ha.2.trans hb.2.symm)

theorem Ordered.pairwise_ending (h : Ordered edits) (p : Nat) :
    ((edits.filter fun e => !e.isInsertion && e.stop == (p : Int)).flatMap ink ++
      (edits.filter fun e => e.isInsertion && e.start == (p : Int)).flatMap ink).Pairwise
        (· ≤ ·) := by
  have hleast : ∀ g ∈ edits.filter (fun e => !e.isInsertion && e.stop == (p : Int)), ∀ e ∈ edits,
      ∀ x ∈ g.ink, ∀ y ∈ e.ink, x ≤ y := by
    intro g hg
    obtain ⟨hg, htest⟩ := List.mem_filter.1 hg
    simp only [Bool.and_eq_true, Bool.not_eq_true'] at htest
    exact h.least g hg htest.1
  rw [List.pairwise_append]
  refine ⟨?_, h.pairwise_inserted p, ?_⟩
  · apply h.pairwise_flatMap
    apply List.pairwise_of_forall_mem_list
    intro a ha b hb
    exact hleast a ha b (List.mem_of_mem_filter hb)
  · intro x hx y hy
    obtain ⟨g, hg, hx⟩ := List.mem_flatMap.1 hx
    obtain ⟨e, he, hy⟩ := List.mem_flatMap.1 hy
    exact hleast g hg e (List.mem_of_mem_filter he) x hx y hy

/-- Edits without ink do not matter. -/
theorem flatMap_seen (edits : List Edit) :
    (edits.filter fun e => !e.ink.isEmpty).flatMap ink = edits.flatMap ink := by
  induction edits with
  | nil => rfl
  | cons e rest ih =>
      rw [List.filter_cons, List.flatMap_cons]
      cases hink : e.ink with
      | nil => simpa using ih
      | cons b bs => simp [ih, hink]

/-- Edits and their settled forms write the same bytes at the offsets at which they end. -/
theorem perm_ending (hinsertions : ∀ e ∈ moved, e.isInsertion = true)
    (hmoved : ((edits.filter fun e => !e.ink.isEmpty).map settled).Perm moved) (p : Nat) :
    ((edits.filter fun e => !e.isInsertion && e.stop == (p : Int)).flatMap ink ++
      (edits.filter fun e => e.isInsertion && e.start == (p : Int)).flatMap ink).Perm
        ((moved.filter fun e => e.isInsertion && e.start == (p : Int)).flatMap ink) := by
  have hending : ((edits.filter fun e => !e.isInsertion && e.stop == (p : Int)) ++
      edits.filter fun e => e.isInsertion && e.start == (p : Int)).Perm
        (edits.filter fun e => e.stop == (p : Int)) := by
    have hsplit := List.filter_append_perm (fun e : Edit => !e.isInsertion)
      (edits.filter fun e => e.stop == (p : Int))
    rw [List.filter_filter, List.filter_filter] at hsplit
    refine .trans (.of_eq ?_) hsplit
    congr 1
    apply List.filter_congr
    intro e _
    cases hinsertion : e.isInsertion with
    | false => rfl
    | true => simp [isInsertion_iff.1 hinsertion]
  have hseen : (edits.filter fun e => e.stop == (p : Int)).flatMap ink =
      (((edits.filter fun e => !e.ink.isEmpty).map settled).filter
        fun e => e.start == (p : Int)).flatMap ink := by
    rw [List.filter_map, List.flatMap_map, ← flatMap_seen, List.filter_filter, List.filter_filter]
    congr 1
    apply List.filter_congr
    intro e _
    exact Bool.and_comm _ _
  have hall : moved.filter (fun e => e.start == (p : Int)) =
      moved.filter fun e => e.isInsertion && e.start == (p : Int) := by
    apply List.filter_congr
    intro e he
    rw [hinsertions e he, Bool.true_and]
  calc
    _ = ((edits.filter fun e => !e.isInsertion && e.stop == (p : Int)) ++
          edits.filter fun e => e.isInsertion && e.start == (p : Int)).flatMap ink :=
      List.flatMap_append.symm
    List.Perm _ ((edits.filter fun e => e.stop == (p : Int)).flatMap ink) :=
      hending.flatMap_right ink
    _ = (((edits.filter fun e => !e.ink.isEmpty).map settled).filter
          fun e => e.start == (p : Int)).flatMap ink := hseen
    List.Perm _ ((moved.filter fun e => e.start == (p : Int)).flatMap ink) :=
      (hmoved.filter _).flatMap_right ink
    _ = _ := by rw [hall]

/-- Movable edits leave the ink of the insertions that they settle as. -/
theorem Movable.inked_positional (h : Movable data edits) (hordered : Ordered edits)
    (hinsertions : ∀ e ∈ moved, e.isInsertion = true) (hordered' : Ordered moved)
    (hmoved : ((edits.filter fun e => !e.ink.isEmpty).map settled).Perm moved) :
    inked (positional data edits) = inked (positional data moved) := by
  have hstep : ∀ p, ahead edits p ++ inked (emittedAt data edits p) =
      inked (emittedAt data moved p) ++ ahead edits (p + 1) := by
    intro p
    rw [emittedAt_of_insertions hinsertions, inked_append, inked_insertedAt]
    by_cases hinside : ∃ g ∈ edits, g.isInsertion = false ∧ g.start < p ∧ (p : Int) < g.stop
    · obtain ⟨g, hg, hreplace, hstart, hstop⟩ := hinside
      obtain ⟨hemitted, hblank, hahead⟩ := h.step_inside hg hreplace hstart hstop
      have hmovedHere : (moved.filter fun e => e.isInsertion && e.start == (p : Int)) = [] := by
        rw [List.filter_eq_nil_iff]
        intro e he
        obtain ⟨e', he', rfl⟩ := List.mem_map.1 (hmoved.mem_iff.2 he)
        have := h.clear g hg hreplace e' (List.mem_of_mem_filter he')
        simp [settled]
        omega
      rw [hemitted, hmovedHere, hblank, hahead]
      simp
    · have hclear : ∀ g ∈ edits, g.isInsertion = false → ¬(g.start < p ∧ (p : Int) < g.stop) :=
        fun g hg hreplace hlt => hinside ⟨g, hg, hreplace, hlt⟩
      have hhere := (perm_ending hinsertions hmoved p).eq_of_pairwise
        (fun _ _ _ _ => UInt8.le_antisymm) (hordered.pairwise_ending p)
        (hordered'.pairwise_inserted p)
      rw [emittedAt, inked_append, inked_append, List.append_assoc, h.step_outside hclear,
        inked_insertedAt, h.ahead_outside hclear, ← List.append_assoc, hhere, List.append_assoc]
  have hrun : ∀ n, (List.range n).flatMap (fun p => inked (emittedAt data edits p)) =
      (List.range n).flatMap (fun p => inked (emittedAt data moved p)) ++ ahead edits n := by
    intro n
    induction n with
    | zero =>
        rw [ahead_eq_nil fun e he => ?_]
        · rfl
        · have := h.forward he
          omega
    | succ n ih =>
        rw [List.range_succ, List.flatMap_append, List.flatMap_append, ih, List.append_assoc,
          List.append_assoc, List.flatMap_singleton, List.flatMap_singleton, hstep n]
  have hend : ahead edits (data.length + 1) = [] := by
    apply ahead_eq_nil
    intro e he
    have := h.forward he
    omega
  rw [positional, positional, inked_flatMap, inked_flatMap, hrun, hend, List.append_nil]

end RubyLint.Edit
