import Mathlib.Data.List.GetD
import Mathlib.Data.Prod.Lex
import RubyLint.Proofs.Text.LineIndex

/-!
# Positions

Line and column identify an offset.  A line goes from its start to the newline that ends it, or to
the end of the data; an offset lies between the two ends of its line, as far from the start as its
column says, and the order of offsets is the order of their positions.
-/

namespace RubyLint.LineIndex

variable {data : List UInt8}

/-! ## Starts of lines -/

/-- The starts at most `bound` are those at the front of an increasing list. -/
theorem lt_countP_iff {starts : List Nat} (h : starts.Pairwise (· ≤ ·)) {i : Nat}
    (hi : i < starts.length) (bound : Nat) :
    i < starts.countP (· ≤ bound) ↔ starts[i] ≤ bound := by
  constructor
  · intro hcount
    have hle := getD_le_of_lt_countP h hcount
    rwa [List.getD_eq_getElem _ _ hi] at hle
  · intro hle
    -- Everything up to the index is at most the bound, so it is counted.
    have hfront : (starts.take (i + 1)).countP (· ≤ bound) = i + 1 := by
      have hall : ∀ start ∈ starts.take (i + 1), decide (start ≤ bound) = true := by
        intro start hstart
        obtain ⟨j, hj, rfl⟩ := List.mem_iff_getElem.1 hstart
        rw [List.length_take] at hj
        rw [List.getElem_take, decide_eq_true_eq]
        rcases Nat.eq_or_lt_of_le (show j ≤ i by omega) with rfl | hlt
        · exact hle
        · exact Nat.le_trans (List.pairwise_iff_getElem.1 h j i (by omega) hi hlt) hle
      rw [List.countP_eq_length.2 hall, List.length_take]
      omega
    have := (List.take_sublist (i + 1) starts).countP_le (p := (· ≤ bound))
    omega

theorem length_startsFrom (data : List UInt8) (offset : Nat) :
    (startsFrom offset data).length = data.count 10 := by
  induction data generalizing offset with
  | nil => rfl
  | cons b rest ih =>
      by_cases hb : b = 10
      · simp [startsFrom, hb, ih]
      · simp [startsFrom, hb, ih]

/-- The lines are one more than the newlines. -/
theorem lineCount_eq (data : List UInt8) : (ofBytes data).lineCount = data.count 10 + 1 := by
  rw [lineCount, ofBytes, List.length_cons, length_startsFrom]

/-- Every line but the first one starts after a newline. -/
theorem newline_before_start {offset start : Nat} (h : start ∈ startsFrom offset data) :
    ∃ i, start = offset + i + 1 ∧ data[i]? = some 10 := by
  induction data generalizing offset with
  | nil => nomatch h
  | cons b rest ih =>
      have hrest : start ∈ startsFrom (offset + 1) rest →
          ∃ i, start = offset + i + 1 ∧ (b :: rest)[i]? = some 10 := by
        intro hmem
        obtain ⟨i, rfl, hi⟩ := ih hmem
        exact ⟨i + 1, by omega, by rw [List.getElem?_cons_succ, hi]⟩
      rw [startsFrom] at h
      split at h
      next hb =>
        rcases List.mem_cons.1 h with rfl | hmem
        · exact ⟨0, rfl, by rw [hb, List.getElem?_cons_zero]⟩
        · exact hrest hmem
      next => exact hrest h

/-! ## Ends of lines -/

theorem clamp_eq (data : List UInt8) (offset : Int) :
    (ofBytes data).clamp offset = min offset.toNat data.length := by
  change (min offset (data.length : Int)).toNat = _
  omega

theorem lineOf_eq_countP {p : Nat} (hp : p ≤ data.length) :
    (ofBytes data).lineOf p = (ofBytes data).starts.countP (· ≤ p) := by
  rw [lineOf, clamp_eq, Int.toNat_natCast, Nat.min_eq_left hp]

/-- An offset is on a line if the line starts at it or before it and the next one does not. -/
theorem lineOf_eq_succ_iff {p k : Nat} (hp : p ≤ data.length)
    (hk : k < (ofBytes data).starts.length) :
    (ofBytes data).lineOf p = k + 1 ↔ (ofBytes data).starts[k] ≤ p ∧
      ∀ hnext : k + 1 < (ofBytes data).starts.length, p < (ofBytes data).starts[k + 1] := by
  have hsorted := starts_pairwise data
  have hle := List.countP_le_length (p := (· ≤ p)) (l := (ofBytes data).starts)
  have hhere := lt_countP_iff hsorted hk p
  rw [lineOf_eq_countP hp]
  by_cases hnext : k + 1 < (ofBytes data).starts.length
  · have hthere := lt_countP_iff hsorted hnext p
    rw [forall_prop_of_true hnext]
    omega
  · rw [forall_prop_of_false hnext, and_true]
    omega

theorem get?_natCast {α : Type} (xs : List α) (i : Nat) : Indexing.get? xs i = xs[i]? := by
  rw [Indexing.get?, Indexing.resolve?]
  by_cases hi : i < xs.length
  · simp [hi, show ¬(i : Int) < 0 by omega]
  · simp [hi, show ¬(i : Int) < 0 by omega]

/-- The two ends of a line: nothing between them is a newline, and it ends where a newline stands or
where the data ends. -/
structure Extent (data : List UInt8) (line first last : Nat) : Prop where
  lineStart : (ofBytes data).lineStart? line = some first
  lineEnd : (ofBytes data).lineEnd? line = some (last : Int)
  blank : ∀ i, first ≤ i → i < last → data[i]? ≠ some 10
  ended : data[last]? = some 10 ∨ last = data.length

/-- A line that another one follows ends at the newline before that one. -/
theorem lineEnd?_of_lt {k : Nat} (hnext : k + 1 < (ofBytes data).starts.length) :
    ∃ i, (ofBytes data).starts[k + 1] = i + 1 ∧ data[i]? = some 10 ∧
      (ofBytes data).lineEnd? ((k + 1 : Nat) : Int) = some (i : Int) := by
  have hmem : (ofBytes data).starts[k + 1] ∈ startsFrom 0 data :=
    List.mem_of_getElem? (i := k) (List.getElem?_eq_getElem hnext)
  obtain ⟨i, hi, hnewline⟩ := newline_before_start hmem
  have hstart : (ofBytes data).starts[k + 1] = i + 1 := by omega
  refine ⟨i, hstart, hnewline, ?_⟩
  rw [lineEnd?, if_pos (by omega), get?_natCast, List.getElem?_eq_getElem hnext, hstart]
  change some (((i + 1 : Nat) : Int) - 1) = some (i : Int)
  congr 1
  omega

theorem lineEnd?_of_ge {k : Nat} (hlast : ¬k + 1 < (ofBytes data).starts.length) :
    (ofBytes data).lineEnd? ((k + 1 : Nat) : Int) = some ((data.length : Nat) : Int) := by
  rw [lineEnd?, if_neg (by omega)]
  rfl

/-- No newline stands between two offsets of one line. -/
theorem blank_of_lineOf_eq {p q : Nat} (h : (ofBytes data).lineOf p = (ofBytes data).lineOf q)
    {i : Nat} (hp : p ≤ i) (hq : i < q) : data[i]? ≠ some 10 := by
  intro hnewline
  have hlt : (ofBytes data).lineOf p < (ofBytes data).lineOf q :=
    (lineOf_lt_iff (by omega)).2 ⟨i, hp, hq, hnewline⟩
  omega

/-- The line of an offset inside the data lies around the offset. -/
theorem exists_extent {p : Nat} (hp : p ≤ data.length) :
    ∃ first last, Extent data ((ofBytes data).lineOf p) first last ∧ first ≤ p ∧ p ≤ last ∧
      first + (ofBytes data).columnOf p = p := by
  obtain ⟨k, hline⟩ : ∃ k, (ofBytes data).lineOf p = k + 1 := ⟨_, lineOf_eq_count data p⟩
  have hk : k < (ofBytes data).starts.length := by
    have := List.countP_le_length (p := (· ≤ p)) (l := (ofBytes data).starts)
    rw [lineOf_eq_countP hp] at hline
    omega
  obtain ⟨hfirst, hnotNext⟩ := (lineOf_eq_succ_iff hp hk).1 hline
  have hlineStart : (ofBytes data).lineStart? ((k + 1 : Nat) : Int) =
      some (ofBytes data).starts[k] := by
    rw [lineStart?, show ((k + 1 : Nat) : Int) - 1 = (k : Nat) by omega, get?_natCast]
    exact List.getElem?_eq_getElem hk
  have hcolumn : (ofBytes data).starts[k] + (ofBytes data).columnOf p = p := by
    rw [columnOf, startOfLineAt, hline, clamp_eq, Nat.add_sub_cancel, List.getD_eq_getElem _ _ hk]
    omega
  have hhead : (ofBytes data).lineOf ((ofBytes data).starts[k] : Nat) = k + 1 :=
    (lineOf_eq_succ_iff (by omega) hk).2 ⟨Nat.le_refl _, fun hnext => by
      have := hnotNext hnext
      omega⟩
  rw [hline]
  by_cases hnext : k + 1 < (ofBytes data).starts.length
  · obtain ⟨last, hlast, hnewline, hlineEnd⟩ := lineEnd?_of_lt hnext
    have hbefore := hnotNext hnext
    obtain ⟨hwithin, -⟩ := List.getElem?_eq_some_iff.1 hnewline
    have htail : (ofBytes data).lineOf last = k + 1 :=
      (lineOf_eq_succ_iff (by omega) hk).2 ⟨by omega, fun _ => by omega⟩
    exact ⟨_, last, ⟨hlineStart, hlineEnd, fun i => blank_of_lineOf_eq (hhead.trans htail.symm),
      .inl hnewline⟩, hfirst, by omega, hcolumn⟩
  · have htail : (ofBytes data).lineOf data.length = k + 1 :=
      (lineOf_eq_succ_iff (Nat.le_refl _) hk).2 ⟨by omega, fun h => absurd h hnext⟩
    exact ⟨_, _, ⟨hlineStart, lineEnd?_of_ge hnext,
      fun i => blank_of_lineOf_eq (hhead.trans htail.symm), .inr rfl⟩, hfirst, hp, hcolumn⟩

/-! ## The order of positions -/

/-- An offset outside the data is on the line of the nearer end. -/
theorem lineOf_clamp (data : List UInt8) (offset : Int) :
    (ofBytes data).lineOf (min offset.toNat data.length : Nat) = (ofBytes data).lineOf offset := by
  rw [lineOf, lineOf, clamp_eq, clamp_eq, Int.toNat_natCast, Nat.min_assoc, Nat.min_self]

theorem columnOf_clamp (data : List UInt8) (offset : Int) :
    (ofBytes data).columnOf (min offset.toNat data.length : Nat) =
      (ofBytes data).columnOf offset := by
  rw [columnOf, columnOf, startOfLineAt, startOfLineAt, lineOf_clamp, clamp_eq, clamp_eq,
    Int.toNat_natCast, Nat.min_assoc, Nat.min_self]

/-- A later offset has a later position. -/
theorem position_lt {p q : Nat} (hpq : p < q) (hq : q ≤ data.length) :
    Prod.Lex (· < ·) (· < ·) ((ofBytes data).position p) ((ofBytes data).position q) := by
  have hmono := lineOf_mono (ofBytes data) (p := (p : Int)) (q := q) (by omega)
  rw [position, position]
  rcases Nat.eq_or_lt_of_le hmono with heq | hlt
  · have hcolumn := columnOf_add (by omega) hq heq
    rw [heq]
    exact .right _ (by omega)
  · exact .left _ _ hlt

/-- What line and column say about an offset, wherever it is.  With `o` the offset moved to the
nearer end of the data if it lies outside, the line is one more than the newlines before `o`, and
`o` lies on it, as far from its start as the column says.  Positions inside the data are in the
order of their offsets, so each belongs to one offset. -/
theorem position_spec (data : List UInt8) :
    (ofBytes data).lineCount = data.count 10 + 1 ∧
    (∀ offset : Int, ∃ line column first last,
      let o := min offset.toNat data.length
      (ofBytes data).lineOf offset = line ∧ (ofBytes data).columnOf offset = column ∧
        (ofBytes data).position offset = (line, column) ∧ line = (data.take o).count 10 + 1 ∧
        Extent data line first last ∧ first + column = o ∧ first ≤ o ∧ o ≤ last) ∧
    (∀ p q : Nat, p < q → q ≤ data.length →
      Prod.Lex (· < ·) (· < ·) ((ofBytes data).position p) ((ofBytes data).position q)) ∧
    ∀ p q : Nat, p ≤ data.length → q ≤ data.length →
      (ofBytes data).position p = (ofBytes data).position q → p = q := by
  refine ⟨lineCount_eq data, fun offset => ?_, fun p q => position_lt, fun p q hp hq heq => ?_⟩
  · obtain ⟨first, last, hextent, hfirst, hlast, hcolumn⟩ :=
      exists_extent (Nat.min_le_right offset.toNat data.length)
    have hline := lineOf_eq_count data (min offset.toNat data.length)
    rw [lineOf_clamp] at hextent hline
    rw [columnOf_clamp] at hcolumn
    exact ⟨_, _, first, last, rfl, rfl, rfl, hline, hextent, hcolumn, hfirst, hlast⟩
  · have hlex : ∀ {a b : Nat × Nat}, Prod.Lex (· < ·) (· < ·) a b → a ≠ b := by
      rintro a _ h rfl
      rcases Prod.lex_def.1 h with hlt | ⟨-, hlt⟩
      · exact Nat.lt_irrefl _ hlt
      · exact Nat.lt_irrefl _ hlt
    rcases Nat.lt_trichotomy p q with hlt | rfl | hgt
    · exact absurd heq (hlex (position_lt hlt hq))
    · rfl
    · exact absurd heq.symm (hlex (position_lt hgt hp))

/-- Offsets on a newline, after the last one and beyond the end. -/
example : (ofBytes [97, 10, 10]).position 1 = (1, 1) ∧ (ofBytes [97, 10, 10]).position 3 = (3, 0) ∧
    (ofBytes [97, 10, 10]).position 9 = (3, 0) ∧ (ofBytes []).position (-1) = (1, 0) := by
  decide

end RubyLint.LineIndex
