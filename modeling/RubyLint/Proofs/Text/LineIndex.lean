import Mathlib.Data.List.Pairwise
import Mathlib.Data.Nat.Init
import RubyLint.Text.LineIndex

/-!
# Lines and columns

The line of an offset is one more than the number of newlines before it, and on one line columns
differ as offsets do.  Everything that is said about the lines of a text rests on these two facts.
-/

namespace RubyLint.LineIndex

variable {data : List UInt8} {index : LineIndex}

/-! ## Lines count newlines -/

theorem countP_startsFrom (data : List UInt8) (offset p : Nat) :
    (startsFrom offset data).countP (· ≤ p) = (data.take (p - offset)).count 10 := by
  induction data generalizing offset with
  | nil => simp [startsFrom]
  | cons b rest ih =>
      have ih := ih (offset + 1)
      rcases Nat.lt_or_ge offset p with hlt | hge
      · rw [show p - offset = p - (offset + 1) + 1 by omega, List.take_succ_cons]
        by_cases hb : b = 10
        · simp [startsFrom, hb, ih, show offset + 1 ≤ p by omega]
        · simp [startsFrom, hb, ih]
      · rw [show p - (offset + 1) = 0 by omega, List.take_zero, List.count_nil] at ih
        rw [show p - offset = 0 by omega, List.take_zero, List.count_nil]
        by_cases hb : b = 10
        · simp [startsFrom, hb, ih, show ¬offset + 1 ≤ p by omega]
        · simp [startsFrom, hb, ih]

theorem clamp_natCast (index : LineIndex) (p : Nat) : index.clamp p = min p index.size := by
  simp only [clamp]
  omega

/-- The line of an offset is one more than the number of newlines before it. -/
theorem lineOf_eq_count (data : List UInt8) (p : Nat) :
    (ofBytes data).lineOf p = (data.take p).count 10 + 1 := by
  have htake : data.take (min p data.length) = data.take p := by
    rcases Nat.le_total p data.length with hle | hge
    · rw [Nat.min_eq_left hle]
    · rw [Nat.min_eq_right hge, List.take_length, List.take_of_length_le hge]
  have hrest := countP_startsFrom data 0 (min p data.length)
  rw [Nat.sub_zero, htake] at hrest
  rw [lineOf, clamp_natCast]
  change (0 :: startsFrom 0 data).countP (· ≤ min p data.length) = _
  rw [List.countP_cons_of_pos (by simp), hrest]

/-- Every offset is on a line, also before and beyond the data. -/
theorem one_le_lineOf (data : List UInt8) (offset : Int) : 1 ≤ (ofBytes data).lineOf offset := by
  change 1 ≤ (0 :: startsFrom 0 data).countP (· ≤ (ofBytes data).clamp offset)
  rw [List.countP_cons_of_pos (by simp)]
  omega

theorem lineOf_mono (index : LineIndex) {p q : Int} (h : p ≤ q) :
    index.lineOf p ≤ index.lineOf q := by
  refine List.countP_mono_left fun start _ hstart => ?_
  have hclamp : index.clamp p ≤ index.clamp q := by
    simp only [clamp]
    omega
  simp only [decide_eq_true_eq] at hstart ⊢
  omega

/-- A later offset is on a later line exactly if there is a newline between the two. -/
theorem lineOf_lt_iff {p q : Nat} (h : p ≤ q) :
    (ofBytes data).lineOf p < (ofBytes data).lineOf q ↔
      ∃ i, p ≤ i ∧ i < q ∧ data[i]? = some 10 := by
  induction q, h using Nat.le_induction with
  | base =>
      simp only [Nat.lt_irrefl, false_iff, not_exists]
      omega
  | succ q hle ih =>
      have hmono := lineOf_mono (ofBytes data) (p := p) (q := q) (by omega)
      have hcount : (ofBytes data).lineOf ((q + 1 : Nat) : Int) =
          (ofBytes data).lineOf q + data[q]?.toList.count 10 := by
        rw [lineOf_eq_count, lineOf_eq_count, List.take_add_one, List.count_append]
        omega
      rw [hcount]
      by_cases hnewline : data[q]? = some 10
      · simp only [hnewline, Option.toList_some, List.count_singleton_self]
        exact ⟨fun _ => ⟨q, hle, by omega, hnewline⟩, fun _ => by omega⟩
      · have hzero : data[q]?.toList.count 10 = 0 := by
          cases hq : data[q]? with
          | none => rfl
          | some b =>
              have hb : b ≠ 10 := fun heq => hnewline (heq ▸ hq)
              simp [hb]
        rw [hzero, Nat.add_zero, ih]
        constructor
        · rintro ⟨i, hi, hiq, hdata⟩
          exact ⟨i, hi, by omega, hdata⟩
        · rintro ⟨i, hi, hiq, hdata⟩
          have hne : i ≠ q := fun heq => hnewline (heq ▸ hdata)
          exact ⟨i, hi, by omega, hdata⟩

/-! ## Columns on one line -/

theorem startsFrom_bounds {offset start : Nat} (h : start ∈ startsFrom offset data) :
    offset < start := by
  induction data generalizing offset with
  | nil => simp [startsFrom] at h
  | cons b rest ih =>
      rw [startsFrom] at h
      split at h
      · rcases List.mem_cons.1 h with rfl | h
        · omega
        · have := ih h
          omega
      · have := ih h
        omega

theorem startsFrom_pairwise (data : List UInt8) (offset : Nat) :
    (startsFrom offset data).Pairwise (· ≤ ·) := by
  induction data generalizing offset with
  | nil => exact .nil
  | cons b rest ih =>
      rw [startsFrom]
      split
      · refine List.pairwise_cons.2 ⟨fun start hstart => ?_, ih _⟩
        have := startsFrom_bounds hstart
        omega
      · exact ih _

theorem starts_pairwise (data : List UInt8) : (ofBytes data).starts.Pairwise (· ≤ ·) :=
  List.pairwise_cons.2 ⟨fun _ _ => Nat.zero_le _, startsFrom_pairwise data 0⟩

/-- As many starts as are at most `bound` stand at the front of an increasing list. -/
theorem getD_le_of_lt_countP {starts : List Nat} (h : starts.Pairwise (· ≤ ·)) {i bound : Nat}
    (hi : i < starts.countP (· ≤ bound)) : starts.getD i 0 ≤ bound := by
  induction starts generalizing i with
  | nil => simp at hi
  | cons start rest ih =>
      obtain ⟨hstart, hrest⟩ := List.pairwise_cons.1 h
      by_cases hle : start ≤ bound
      · cases i with
        | zero => simpa using hle
        | succ i =>
            rw [List.countP_cons_of_pos (by simpa using hle)] at hi
            simpa using ih hrest (i := i) (by omega)
      · have hnone : rest.countP (· ≤ bound) = 0 := by
          rw [List.countP_eq_zero]
          intro later hlater
          have := hstart later hlater
          simp
          omega
        rw [List.countP_cons_of_neg (by simpa using hle), hnone] at hi
        omega

theorem startOfLineAt_le (data : List UInt8) (p : Nat) : (ofBytes data).startOfLineAt p ≤ p := by
  have hline := lineOf_eq_count data p
  have hlt : (ofBytes data).lineOf p - 1 <
      (ofBytes data).starts.countP (· ≤ (ofBytes data).clamp p) := by
    rw [lineOf] at hline ⊢
    omega
  have hle := getD_le_of_lt_countP (starts_pairwise data) hlt
  rw [clamp_natCast] at hle
  rw [startOfLineAt]
  omega

theorem columnOf_le (index : LineIndex) (p : Nat) : index.columnOf p ≤ p := by
  rw [columnOf, clamp_natCast]
  omega

/-- On one line columns differ as offsets do. -/
theorem columnOf_add {p q : Nat} (hp : p ≤ data.length) (hq : q ≤ data.length)
    (hline : (ofBytes data).lineOf p = (ofBytes data).lineOf q) :
    (ofBytes data).columnOf p + q = (ofBytes data).columnOf q + p := by
  have hsize : (ofBytes data).size = data.length := rfl
  have hstart : (ofBytes data).startOfLineAt p = (ofBytes data).startOfLineAt q := by
    rw [startOfLineAt, startOfLineAt, hline]
  have hlep := startOfLineAt_le data p
  have hleq := startOfLineAt_le data q
  rw [columnOf, columnOf, clamp_natCast, clamp_natCast, hsize]
  omega

end RubyLint.LineIndex
