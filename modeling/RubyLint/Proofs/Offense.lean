import RubyLint.Offense
import RubyLint.Proofs.Sorting

/-!
# Findings rule by rule

Findings are sorted by the rank of their rule.  Under the ranks of a registry they come out rule by
rule, those of one rule in the order of emission.
-/

namespace RubyLint

namespace Finding

/-- Numbering offenses loses none and keeps their order. -/
@[simp]
theorem map_offense_number (offenses : List Offense) :
    (number offenses).map (·.offense) = offenses := by
  simp [number, List.mapIdx_eq_zipIdx_map, Function.comp_def]

theorem exists_mem_number {offenses : List Offense} (test : Offense → Prop) :
    (∃ f ∈ number offenses, test f.offense) ↔ ∃ o ∈ offenses, test o := by
  conv_rhs => rw [← map_offense_number offenses]
  simp only [List.mem_map, exists_exists_and_eq_and]

/-! ## The ranks of a registry -/

def ranksOf (ids : List String) : Ranks :=
  ids.mapIdx fun i id => (id, (i : Int))

variable {ids : List String}

theorem lookup_mapIdx (f : Nat → Int) (rule : String) :
    (ids.mapIdx fun i id => (id, f i)).lookup rule =
      if rule ∈ ids then some (f (ids.idxOf rule)) else none := by
  induction ids generalizing f with
  | nil => rfl
  | cons id ids ih =>
      rw [List.mapIdx_cons, List.lookup_cons, List.idxOf_cons]
      by_cases heq : rule = id
      · simp [heq]
      · have hne : (rule == id) = false := beq_eq_false_iff_ne.2 heq
        have hne' : (id == rule) = false := beq_eq_false_iff_ne.2 (Ne.symm heq)
        rw [hne, hne', ih fun i => f (i + 1)]
        simp [heq]

/-- A rule has the place of its id as its rank, and any other rule the number of ids. -/
theorem rankOf_ranksOf (ids : List String) (rule : String) :
    rankOf (ranksOf ids) rule = ids.idxOf rule := by
  rw [rankOf, ranksOf, lookup_mapIdx fun i => (i : Int)]
  by_cases hmem : rule ∈ ids
  · rw [if_pos hmem, Option.getD_some]
  · rw [if_neg hmem, Option.getD_none, List.length_mapIdx, List.idxOf_eq_length hmem]

theorem rankOf_getElem (hids : ids.Nodup) {i : Nat} (hi : i < ids.length) :
    rankOf (ranksOf ids) ids[i] = i := by
  rw [rankOf_ranksOf, hids.idxOf_getElem]

/-- Later ids have greater ranks. -/
theorem pairwise_rankOf (hids : ids.Nodup) :
    (ids.map (rankOf (ranksOf ids))).Pairwise (· < ·) := by
  rw [List.pairwise_map, List.pairwise_iff_getElem]
  intro i j hi hj hij
  rw [rankOf_getElem hids hi, rankOf_getElem hids hj]
  exact Int.ofNat_lt.2 hij

theorem rankOf_inj (hids : ids.Nodup) {a b : String} (ha : a ∈ ids) (hb : b ∈ ids) :
    rankOf (ranksOf ids) a = rankOf (ranksOf ids) b ↔ a = b := by
  refine ⟨fun h => ?_, fun h => by rw [h]⟩
  obtain ⟨i, hi, rfl⟩ := List.getElem_of_mem ha
  obtain ⟨j, hj, rfl⟩ := List.getElem_of_mem hb
  rw [rankOf_getElem hids hi, rankOf_getElem hids hj, Int.ofNat_inj] at h
  simp only [h]

/-- Findings of ranked rules are sorted into those of the first rule, those of the second, and so
on, each in the order of emission. -/
theorem byRule_ranksOf (hids : ids.Nodup) {findings : List Finding}
    (hmem : ∀ f ∈ findings, f.offense.rule ∈ ids) :
    byRule (ranksOf ids) findings =
      ids.flatMap fun id => findings.filter (·.offense.rule == id) := by
  have hkeys : ∀ f ∈ findings,
      rankOf (ranksOf ids) f.offense.rule ∈ ids.map (rankOf (ranksOf ids)) :=
    fun f hf => List.mem_map_of_mem (hmem f hf)
  rw [byRule, mergeSort_eq_flatMap (pairwise_rankOf hids) hkeys, List.flatMap_map]
  refine List.flatMap_congr fun id hid => List.filter_congr fun f hf => ?_
  rw [Bool.eq_iff_iff, decide_eq_true_eq, beq_iff_eq]
  exact rankOf_inj hids (hmem f hf) hid

end Finding

end RubyLint
