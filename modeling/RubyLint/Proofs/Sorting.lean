import Mathlib.Data.Finset.Sort

/-!
# Stable sorting

Sorting keeps the order of elements that it does not tell apart.  So a list sorted by a key is made
up of the elements of the first key, those of the second, and so on, each as they stood before.
-/

namespace RubyLint

section Stability

variable {α : Type} {le : α → α → Bool} {xs : List α} {R : α → α → Prop}

/-- Sorting keeps the order of elements that are all tied. -/
theorem filter_mergeSort_of_tied
    (trans : ∀ a b c, le a b = true → le b c = true → le a c = true)
    (total : ∀ a b, (le a b || le b a) = true) {p : α → Bool}
    (htied : ∀ a b, p a = true → p b = true → le a b = true) :
    (xs.mergeSort le).filter p = xs.filter p := by
  have hpairwise : (xs.filter p).Pairwise fun a b => le a b = true :=
    List.pairwise_of_forall_mem_list fun a ha b hb =>
      htied a b (List.mem_filter.1 ha).2 (List.mem_filter.1 hb).2
  have hsub := (List.sublist_mergeSort trans total hpairwise List.filter_sublist).filter p
  rw [List.filter_filter] at hsub
  simp only [Bool.and_self] at hsub
  have hlength := ((List.mergeSort_perm xs le).filter p).length_eq
  exact (hsub.eq_of_length hlength.symm).symm

/-- In a sorted list tied elements stand as they stood before. -/
theorem pairwise_mergeSort_stable
    (trans : ∀ a b c, le a b = true → le b c = true → le a c = true)
    (total : ∀ a b, (le a b || le b a) = true) (h : xs.Pairwise R) :
    (xs.mergeSort le).Pairwise fun a b => le a b = true ∧ (le b a = true → R a b) := by
  have hsorted := List.pairwise_mergeSort trans total xs
  refine hsorted.and ?_
  rw [List.pairwise_iff_forall_sublist] at h hsorted ⊢
  intro a b hsub hba
  have hab : le a b = true := hsorted hsub
  -- Two tied elements and all that stand between them are tied, so they kept their order.
  let tied : α → Bool := fun x => le a x && le x b
  have hreach : ∀ x, tied x = true ↔ le a x = true ∧ le x b = true :=
    fun x => Bool.and_eq_true_iff
  have htied : ∀ x y, tied x = true → tied y = true → le x y = true := by
    intro x y hx hy
    rw [hreach] at hx hy
    exact trans x b y hx.2 (trans b a y hba hy.1)
  have hself : ∀ x, le x x = true := fun x => by simpa using total x x
  have hpair : [a, b].filter tied = [a, b] := by simp [tied, hself, hab]
  have hkept := hsub.filter tied
  rw [hpair, filter_mergeSort_of_tied trans total htied] at hkept
  exact h (hkept.trans List.filter_sublist)

end Stability

section Grouping

variable {α : Type} {key : α → Int} {keys : List Int} {xs ys : List α} {k : Int}

/-- The elements of the least key are the first ones of a sorted list. -/
theorem filter_append_of_sorted (hsorted : xs.Pairwise (key · ≤ key ·))
    (hleast : ∀ x ∈ xs, k ≤ key x) :
    xs.filter (key · = k) ++ xs.filter (key · ≠ k) = xs := by
  induction xs with
  | nil => rfl
  | cons x xs ih =>
      obtain ⟨hx, hsorted⟩ := List.pairwise_cons.1 hsorted
      by_cases hk : key x = k
      · have hrest := ih hsorted fun y hy => hleast y (List.mem_cons_of_mem x hy)
        simpa [hk] using hrest
      · have hgreater : ∀ y ∈ x :: xs, key y ≠ k := by
          have hleast := hleast x List.mem_cons_self
          refine List.forall_mem_cons.2 ⟨hk, fun y hy => ?_⟩
          have hle := hx y hy
          omega
        have hnone : (x :: xs).filter (key · = k) = [] := by
          simpa [List.filter_eq_nil_iff] using hgreater
        have hall : (x :: xs).filter (key · ≠ k) = x :: xs := by
          simpa [List.filter_eq_self] using hgreater
        rw [hnone, hall, List.nil_append]

/-- A sorted list is grouped by its keys. -/
theorem flatMap_filter_of_sorted (hkeys : keys.Pairwise (· < ·))
    (hsorted : xs.Pairwise (key · ≤ key ·)) (hmem : ∀ x ∈ xs, key x ∈ keys) :
    (keys.flatMap fun k => xs.filter (key · = k)) = xs := by
  induction keys generalizing xs with
  | nil => simpa [List.eq_nil_iff_forall_not_mem] using hmem
  | cons k keys ih =>
      obtain ⟨hk, hkeys⟩ := List.pairwise_cons.1 hkeys
      have hleast : ∀ x ∈ xs, k ≤ key x := by
        intro x hx
        rcases List.mem_cons.1 (hmem x hx) with heq | hrest
        · exact Int.le_of_eq heq.symm
        · exact Int.le_of_lt (hk _ hrest)
      have hmem' : ∀ x ∈ xs.filter (key · ≠ k), key x ∈ keys := by
        intro x hx
        obtain ⟨hx, hne⟩ := List.mem_filter.1 hx
        exact (List.mem_cons.1 (hmem x hx)).resolve_left (by simpa using hne)
      have hfilter : ∀ k' ∈ keys,
          (xs.filter (key · ≠ k)).filter (key · = k') = xs.filter (key · = k') := by
        intro k' hk'
        have hne : k' ≠ k := Int.ne_of_gt (hk k' hk')
        rw [List.filter_filter]
        refine List.filter_congr fun x _ => ?_
        by_cases heq : key x = k'
        · simp [heq, hne]
        · simp [heq]
      rw [List.flatMap_cons, ← List.flatMap_congr hfilter,
        ih hkeys (hsorted.sublist List.filter_sublist) hmem']
      exact filter_append_of_sorted hsorted hleast

theorem trans_of_key {κ : Type} [LinearOrder κ] (key : α → κ) (a b c : α)
    (hab : decide (key a ≤ key b) = true) (hbc : decide (key b ≤ key c) = true) :
    decide (key a ≤ key c) = true := by
  rw [decide_eq_true_eq] at *
  exact le_trans hab hbc

theorem total_of_key {κ : Type} [LinearOrder κ] (key : α → κ) (a b : α) :
    (decide (key a ≤ key b) || decide (key b ≤ key a)) = true := by
  simpa using le_total (key a) (key b)

/-- Sorting by keys that are distinct puts them in strict order. -/
theorem pairwise_mergeSort_key {κ : Type} [LinearOrder κ] {key : α → κ}
    (hdistinct : (xs.map key).Nodup) :
    (xs.mergeSort fun a b => key a ≤ key b).Pairwise (key · < key ·) := by
  have hsorted : (xs.mergeSort fun a b => key a ≤ key b).Pairwise (key · ≤ key ·) := by
    simpa using List.pairwise_mergeSort (trans_of_key key) (total_of_key key) xs
  have hne : (xs.mergeSort fun a b => key a ≤ key b).Pairwise (key · ≠ key ·) :=
    List.pairwise_map.1 (((List.mergeSort_perm _ _).map key).nodup_iff.2 hdistinct)
  exact List.Pairwise.imp₂ (fun _ _ => lt_of_le_of_ne) hsorted hne

/-- Sorting keeps the order of the elements that share a key. -/
theorem filter_mergeSort (key : α → Int) (xs : List α) (k : Int) :
    (xs.mergeSort fun a b => key a ≤ key b).filter (key · = k) = xs.filter (key · = k) := by
  apply filter_mergeSort_of_tied (trans_of_key key) (total_of_key key)
  intro a b ha hb
  have heq : key a = key b := (of_decide_eq_true ha).trans (of_decide_eq_true hb).symm
  exact decide_eq_true (Int.le_of_eq heq)

/-- A list is sorted by putting the elements of each key behind those of the key before. -/
theorem mergeSort_eq_flatMap (hkeys : keys.Pairwise (· < ·)) (hmem : ∀ x ∈ xs, key x ∈ keys) :
    (xs.mergeSort fun a b => key a ≤ key b) = keys.flatMap fun k => xs.filter (key · = k) := by
  have hsorted : (xs.mergeSort fun a b => key a ≤ key b).Pairwise (key · ≤ key ·) := by
    simpa using List.pairwise_mergeSort (trans_of_key key) (total_of_key key) xs
  rw [← flatMap_filter_of_sorted hkeys hsorted fun x hx => hmem x (List.mem_mergeSort.1 hx)]
  exact List.flatMap_congr fun k _ => filter_mergeSort key xs k

/-- Lists with the same elements of every key, in the same order, are sorted alike. -/
theorem mergeSort_congr (h : ∀ k, xs.filter (key · = k) = ys.filter (key · = k)) :
    (xs.mergeSort fun a b => key a ≤ key b) = ys.mergeSort fun a b => key a ≤ key b := by
  let keys := ((xs ++ ys).map key).toFinset.sort (· ≤ ·)
  have hkeys : keys.Pairwise (· < ·) := (Finset.sortedLT_sort _).pairwise
  have hmem : ∀ x ∈ xs ++ ys, key x ∈ keys := by
    intro x hx
    rw [Finset.mem_sort, List.mem_toFinset]
    exact List.mem_map_of_mem hx
  rw [mergeSort_eq_flatMap hkeys fun x hx => hmem x (List.mem_append_left ys hx),
    mergeSort_eq_flatMap hkeys fun y hy => hmem y (List.mem_append_right xs hy)]
  exact List.flatMap_congr fun k _ => h k

/-- The numbers of a list that is numbered increase. -/
theorem pairwise_zipIdx (xs : List α) : xs.zipIdx.Pairwise fun x y => x.2 < y.2 := by
  have hnumbers : (xs.zipIdx.map Prod.snd).Pairwise (· < ·) := by
    rw [List.zipIdx_map_snd]
    exact List.pairwise_lt_range'
  exact List.pairwise_map.1 hnumbers

theorem mergeSort_pair (le : α → α → Bool) (a b : α) :
    [a, b].mergeSort le = if le a b then [a, b] else [b, a] := by
  simp [List.mergeSort, List.MergeSort.Internal.splitInTwo, List.merge]

end Grouping

end RubyLint
