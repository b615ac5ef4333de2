import Mathlib.Algebra.GroupWithZero.Nat
import Mathlib.Data.List.Infix
import RubyLint.Proofs.Text.Position
import RubyLint.Proofs.Text.Utf8

/-!
# Lines of characters and lines of bytes

A text can be split into lines before it is encoded or after it.  The newline is the one character
whose bytes hold a newline byte, so both ways give the same lines; and the line index, which knows
the bytes only, finds the lines of the split where their lengths put them.
-/

namespace RubyLint

/-! ## Encoding respects lines -/

theorem splitOn_append_of_notMem {α : Type} [BEq α] [LawfulBEq α] {a : α} {xs : List α}
    (h : a ∉ xs) (ys : List α) :
    (xs ++ ys).splitOn a = (ys.splitOn a).modifyHead (xs ++ ·) := by
  induction xs with
  | nil => exact (congrFun List.modifyHead_id _).symm
  | cons x xs ih =>
      rw [List.mem_cons, not_or] at h
      have hx : ¬(x == a) = true := fun heq => h.1 (beq_iff_eq.1 heq).symm
      rw [List.cons_append, List.splitOn_cons_eq_if_modifyHead, if_neg hx, ih h.2,
        List.modifyHead_modifyHead]
      rfl

theorem forall_mem_splitOn {P : Char → Prop} {sep : Char} (s : List Char) :
    (∀ part ∈ s.splitOn sep, ∀ c ∈ part, P c) ↔ ∀ c ∈ s, P c ∨ c = sep := by
  induction s with
  | nil => simp
  | cons c s ih =>
      rw [List.splitOn_cons_eq_if_modifyHead, List.forall_mem_cons, ← ih]
      obtain ⟨part, parts, hparts⟩ := List.exists_cons_of_ne_nil (List.splitOn_ne_nil sep s)
      by_cases hc : c = sep
      · simp [hc]
      · simp [hc, hparts, and_assoc]

namespace Utf8

theorem eq_newline_of_mem {c : Char} (h : 10 ∈ String.utf8EncodeChar c) : c = '\n' := by
  obtain ⟨i, hi, hbyte⟩ := List.getElem_of_mem h
  have hfirst : (String.utf8EncodeChar c)[i].IsUTF8FirstByte := by
    rw [hbyte]
    decide
  obtain rfl := UInt8.isUTF8FirstByte_getElem_utf8EncodeChar.1 hfirst
  -- A character is read off its first byte, and this byte is one by itself.
  obtain ⟨b, rest, hbytes⟩ := List.exists_cons_of_length_pos hi
  simp only [hbytes, List.getElem_cons_zero] at hbyte
  have hpieces := piecesFrom_encodeChar c []
  rw [hbytes, hbyte, List.cons_append] at hpieces
  exact (Piece.char.inj (List.cons.inj hpieces).1).symm

/-- The lines of the bytes of some characters are the bytes of their lines. -/
theorem splitOn_encodeChars (cs : List Char) :
    (encodeChars cs).splitOn 10 = (cs.splitOn '\n').map encodeChars := by
  induction cs with
  | nil => rfl
  | cons c cs ih =>
      rw [encodeChars, List.flatMap_cons, ← encodeChars, List.splitOn_cons_eq_if_modifyHead]
      split
      next hc =>
        obtain rfl := beq_iff_eq.1 hc
        change (10 :: encodeChars cs).splitOn 10 = _
        rw [List.splitOn_cons_eq_if_modifyHead, if_pos (beq_self_eq_true _), ih, List.map_cons]
        rfl
      next hc =>
        have hc : c ≠ '\n' := fun heq => hc (beq_iff_eq.2 heq)
        rw [splitOn_append_of_notMem fun hmem => hc (eq_newline_of_mem hmem), ih]
        cases cs.splitOn '\n' with
        | nil => rfl
        | cons line lines => rfl

end Utf8

/-! ## Where lines stand -/

namespace LineIndex

variable {data : List UInt8} {lines : List (List UInt8)} {line : List UInt8} {k : Nat}

/-- The number of bytes of the first lines, with one newline after each. -/
def offsetOf (lines : List (List UInt8)) (k : Nat) : Nat :=
  ((lines.take k).map fun line => line.length + 1).sum

theorem offsetOf_cons_succ (line : List UInt8) (lines : List (List UInt8)) (k : Nat) :
    offsetOf (line :: lines) (k + 1) = line.length + 1 + offsetOf lines k := by
  rw [offsetOf, List.take_succ_cons, List.map_cons, List.sum_cons, offsetOf]

theorem offsetOf_succ (h : lines[k]? = some line) :
    offsetOf lines (k + 1) = offsetOf lines k + line.length + 1 := by
  rw [offsetOf, List.take_add_one, h, List.map_append, List.sum_append, offsetOf]
  simp
  omega

/-- The lines start where the lengths of the lines before them put them. -/
theorem cons_startsFrom (data : List UInt8) (offset : Nat) :
    offset :: startsFrom offset data =
      (data.splitOn 10).mapIdx fun k _ => offset + offsetOf (data.splitOn 10) k := by
  induction data generalizing offset with
  | nil => rfl
  | cons b rest ih =>
      have ih := ih (offset + 1)
      rw [startsFrom, List.splitOn_cons_eq_if_modifyHead]
      by_cases hb : b = 10
      · rw [if_pos hb, if_pos (beq_iff_eq.2 hb), ih, List.mapIdx_cons]
        simp only [offsetOf_cons_succ, List.length_nil, Nat.zero_add, Nat.add_assoc]
        rfl
      · obtain ⟨line, lines, hlines⟩ := List.exists_cons_of_ne_nil (List.splitOn_ne_nil 10 rest)
        rw [hlines, List.mapIdx_cons] at ih
        rw [if_neg hb, if_neg fun heq => hb (beq_iff_eq.1 heq), hlines, List.modifyHead_cons,
          List.mapIdx_cons, (List.cons.inj ih).2]
        have hplace : ∀ j, offset + offsetOf ((b :: line) :: lines) (j + 1) =
            offset + 1 + offsetOf (line :: lines) (j + 1) := by
          intro j
          rw [offsetOf_cons_succ, offsetOf_cons_succ, List.length_cons]
          omega
        simp only [hplace]
        rfl

theorem length_starts (data : List UInt8) :
    (ofBytes data).starts.length = (data.splitOn 10).length := by
  rw [ofBytes, cons_startsFrom, List.length_mapIdx]

theorem getElem_starts (hk : k < (ofBytes data).starts.length) :
    (ofBytes data).starts[k] = offsetOf (data.splitOn 10) k := by
  simp only [ofBytes, cons_startsFrom, List.getElem_mapIdx, Nat.zero_add]

/-- Lines take as many bytes as they have themselves, and one newline after each but the last. -/
theorem length_intercalate (hlines : lines ≠ []) :
    (List.intercalate [10] lines).length + 1 = offsetOf lines lines.length := by
  induction lines with
  | nil => contradiction
  | cons line lines ih =>
      rw [List.length_cons, offsetOf_cons_succ]
      cases lines with
      | nil => simp [offsetOf]
      | cons next lines =>
          rw [List.intercalate_cons_cons, ← ih (List.cons_ne_nil _ _)]
          simp
          omega

/-- A line stands at its offset. -/
theorem slice_intercalate (h : lines[k]? = some line) :
    ((List.intercalate [10] lines).drop (offsetOf lines k)).take line.length = line := by
  induction lines generalizing k with
  | nil => nomatch h
  | cons first lines ih =>
      cases k with
      | zero =>
          obtain rfl := Option.some.inj h
          cases lines with
          | nil => simp [offsetOf]
          | cons next lines =>
              rw [List.intercalate_cons_cons, List.append_assoc]
              exact List.take_left
      | succ k =>
          rw [List.getElem?_cons_succ] at h
          cases lines with
          | nil => nomatch h
          | cons next lines =>
              rw [List.intercalate_cons_cons, offsetOf_cons_succ, ← List.drop_drop,
                show first.length + 1 = (first ++ [10]).length by simp, List.drop_left, ih h]

/-- A line behind the last one would start past the end of the data. -/
theorem offsetOf_length (data : List UInt8) :
    offsetOf (data.splitOn 10) (data.splitOn 10).length = data.length + 1 := by
  rw [← length_intercalate (List.splitOn_ne_nil 10 data), List.intercalate_splitOn]

theorem slice_line (h : (data.splitOn 10)[k]? = some line) :
    (data.drop (offsetOf (data.splitOn 10) k)).take line.length = line := by
  have hslice := slice_intercalate h
  rwa [List.intercalate_splitOn] at hslice

theorem lt_length_starts (h : (data.splitOn 10)[k]? = some line) :
    k < (ofBytes data).starts.length := by
  rw [length_starts]
  exact (List.getElem?_eq_some_iff.1 h).1

/-- A line that no other one follows ends with the data. -/
theorem offsetOf_add_of_ge (h : (data.splitOn 10)[k]? = some line)
    (hlast : ¬k + 1 < (ofBytes data).starts.length) :
    offsetOf (data.splitOn 10) k + line.length = data.length := by
  have hk := lt_length_starts h
  have hlength := offsetOf_length data
  rw [← length_starts, show (ofBytes data).starts.length = k + 1 by omega, offsetOf_succ h]
    at hlength
  omega

theorem lineStart?_succ (h : (data.splitOn 10)[k]? = some line) :
    (ofBytes data).lineStart? ((k + 1 : Nat) : Int) = some (offsetOf (data.splitOn 10) k) := by
  rw [lineStart?, show ((k + 1 : Nat) : Int) - 1 = (k : Nat) by omega, get?_natCast,
    List.getElem?_eq_getElem (lt_length_starts h), getElem_starts]

theorem lineEnd?_succ (h : (data.splitOn 10)[k]? = some line) :
    (ofBytes data).lineEnd? ((k + 1 : Nat) : Int) =
      some ((offsetOf (data.splitOn 10) k + line.length : Nat) : Int) := by
  by_cases hnext : k + 1 < (ofBytes data).starts.length
  · obtain ⟨last, hstart, -, hend⟩ := lineEnd?_of_lt hnext
    rw [getElem_starts, offsetOf_succ h] at hstart
    rw [hend, Nat.succ.inj hstart]
  · rw [lineEnd?_of_ge hnext, offsetOf_add_of_ge h hnext]

/-- An offset is on the line among whose bytes it is, or at whose end. -/
theorem lineOf_eq_succ_iff_within {o : Nat} (ho : o ≤ data.length)
    (h : (data.splitOn 10)[k]? = some line) :
    (ofBytes data).lineOf o = k + 1 ↔ offsetOf (data.splitOn 10) k ≤ o ∧
      o ≤ offsetOf (data.splitOn 10) k + line.length := by
  rw [lineOf_eq_succ_iff ho (lt_length_starts h), getElem_starts]
  refine and_congr_right fun _ => ?_
  by_cases hnext : k + 1 < (ofBytes data).starts.length
  · rw [forall_prop_of_true hnext, getElem_starts, offsetOf_succ h, Nat.lt_succ_iff]
  · rw [forall_prop_of_false hnext, offsetOf_add_of_ge h hnext]
    exact iff_of_true trivial ho

theorem exists_line (data : List UInt8) (o : Nat) :
    ∃ k line, (data.splitOn 10)[k]? = some line ∧ (ofBytes data).lineOf o = k + 1 := by
  have hline := lineOf_eq_count data o
  have hcount : (ofBytes data).lineOf o ≤ (ofBytes data).starts.length := List.countP_le_length
  rw [length_starts] at hcount
  exact ⟨_, _, List.getElem?_eq_getElem (by omega), hline⟩

end LineIndex

end RubyLint
