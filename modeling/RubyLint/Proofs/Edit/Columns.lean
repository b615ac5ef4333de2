import Mathlib.Data.List.TakeWhile
import RubyLint.Proofs.Edit.Carry
import RubyLint.Proofs.Text.Position

/-!
# Columns of an edited text

The column of an offset is the number of bytes since the last newline.  The column on which the
start of a range lands is found by going through the source from the last newline on: every byte
that is kept and everything that is inserted moves it to the right.
-/

namespace RubyLint

def sinceNewline (bytes : List UInt8) : Nat :=
  (bytes.reverse.takeWhile (· != 10)).length

variable {bytes more : List UInt8}

/-- Bytes without a newline come on top. -/
theorem sinceNewline_append (h : (10 : UInt8) ∉ more) :
    sinceNewline (bytes ++ more) = sinceNewline bytes + more.length := by
  have hmore : ∀ b ∈ more.reverse, (b != 10) = true := by
    intro b hb
    rw [bne_iff_ne]
    rintro rfl
    exact h (List.mem_reverse.1 hb)
  rw [sinceNewline, List.reverse_append, List.takeWhile_append_of_pos hmore, List.length_append,
    List.length_reverse, Nat.add_comm, ← sinceNewline]

/-- A newline starts the count again. -/
theorem sinceNewline_newline (bytes : List UInt8) : sinceNewline (bytes ++ [10]) = 0 := by
  simp [sinceNewline]

theorem LineIndex.columnOf_succ {data : List UInt8} {p : Nat} (hp : p < data.length) :
    (ofBytes data).columnOf ((p + 1 : Nat) : Int) =
      if data[p] = 10 then 0 else (ofBytes data).columnOf p + 1 := by
  split
  next hnewline =>
    -- The newline is not on the line of what comes after it, so that line starts here.
    obtain ⟨first, last, hextent, hfirst, hlast, hcolumn⟩ :=
      exists_extent (show p + 1 ≤ data.length by omega)
    have hstart : ¬first ≤ p := by
      intro hle
      refine hextent.blank p hle (by omega) ?_
      rw [List.getElem?_eq_getElem hp, hnewline]
    omega
  next hblank =>
    have hline : (ofBytes data).lineOf p = (ofBytes data).lineOf ((p + 1 : Nat) : Int) := by
      have hmono := lineOf_mono (ofBytes data) (p := p) (q := ((p + 1 : Nat) : Int)) (by omega)
      have hnone : ¬(ofBytes data).lineOf p < (ofBytes data).lineOf ((p + 1 : Nat) : Int) := by
        rw [lineOf_lt_iff (Nat.le_succ p)]
        rintro ⟨i, hi, hi', hnewline⟩
        obtain rfl : i = p := by omega
        rw [List.getElem?_eq_getElem hp, Option.some.injEq] at hnewline
        exact hblank hnewline
      omega
    have := columnOf_add (by omega) (by omega) hline
    omega

/-- A column counts the bytes since the last newline. -/
theorem LineIndex.columnOf_eq {data : List UInt8} {p : Nat} (hp : p ≤ data.length) :
    (ofBytes data).columnOf p = sinceNewline (data.take p) := by
  induction p with
  | zero =>
      have := columnOf_le (ofBytes data) 0
      simpa [sinceNewline] using this
  | succ p ih =>
      have hp : p < data.length := hp
      have ih := ih (Nat.le_of_lt hp)
      rw [columnOf_succ hp, List.take_succ_eq_append_getElem hp]
      split
      next hnewline => rw [hnewline, sinceNewline_newline]
      next hblank =>
        rw [sinceNewline_append (by simpa using Ne.symm hblank), ih]
        rfl

/-- The line of an offset starts at the beginning of the data or after a newline. -/
theorem LineIndex.exists_line_start {data : List UInt8} {p : Nat} (hp : p ≤ data.length) :
    ∃ first ≤ p, first + (ofBytes data).columnOf p = p ∧
      (∀ i, first ≤ i → i < p → data[i]? ≠ some 10) ∧
      (first = 0 ∨ ∃ j, first = j + 1 ∧ data[j]? = some 10) := by
  induction p with
  | zero =>
      have := columnOf_le (ofBytes data) 0
      exact ⟨0, Nat.le_refl 0, by omega, fun i _ hi => absurd hi (Nat.not_lt_zero i), .inl rfl⟩
  | succ p ih =>
      have hp : p < data.length := hp
      have hbyte : data[p]? = some data[p] := List.getElem?_eq_getElem hp
      by_cases hnewline : data[p] = 10
      · refine ⟨p + 1, Nat.le_refl _, ?_, fun i hi hi' => by omega, .inr ⟨p, rfl, ?_⟩⟩
        · rw [columnOf_succ hp, if_pos hnewline, Nat.add_zero]
        · rw [hbyte, hnewline]
      · obtain ⟨first, hfirst, hcolumn, hblank, hstart⟩ := ih (Nat.le_of_lt hp)
        refine ⟨first, Nat.le_succ_of_le hfirst, ?_, fun i hi hi' => ?_, hstart⟩
        · rw [columnOf_succ hp, if_neg hnewline]
          omega
        · rcases Nat.eq_or_lt_of_le (Nat.le_of_lt_succ hi') with rfl | hlt
          · rw [hbyte, ne_eq, Option.some.injEq]
            exact hnewline
          · exact hblank i hi hlt

namespace Edit

variable {data : List UInt8} {edits more : List Edit} {a i p q : Nat}

/-- What comes before the place where the start of a range lands. -/
def front (data : List UInt8) (edits : List Edit) (p : Nat) : List UInt8 :=
  emittedBefore data edits p ++ insertedAt edits p

theorem front_zero : front data edits 0 = insertedAt edits 0 := rfl

theorem front_succ : front data edits (p + 1) =
    front data edits p ++ (replacedAt edits p ++ (keptAt data edits p ++
      insertedAt edits (p + 1))) := by
  simp [front, emittedBefore_succ, emittedAt]

theorem prefix_front (h : p < q) : front data edits p <+: emittedBefore data edits q := by
  obtain ⟨more, rfl⟩ := Nat.exists_eq_add_of_le (Nat.succ_le_of_lt h)
  rw [emittedBefore, List.range_add, List.flatMap_append, ← emittedBefore, Nat.succ_eq_add_one,
    emittedBefore_succ, emittedAt, front]
  simp only [List.append_assoc]
  rw [← List.append_assoc]
  exact List.prefix_append _ _

theorem take_front (h : p ≤ data.length) :
    (positional data edits).take (carryStart data edits p) = front data edits p :=
  take_carryStart h

/-- The column on which a start lands. -/
theorem columnOf_carryStart (h : p ≤ data.length) :
    (LineIndex.ofBytes (positional data edits)).columnOf (carryStart data edits p) =
      sinceNewline (front data edits p) := by
  have hlength : (front data edits p).length = carryStart data edits p := by
    rw [front, List.length_append, carryStart, carryStop]
  have hle : carryStart data edits p ≤ (positional data edits).length := by
    rw [← hlength, ← take_front h]
    exact List.length_take_le' ..
  rw [LineIndex.columnOf_eq hle, take_front h]

/-- A byte that no edit touches stays what and where it is. -/
theorem getElem?_carryStart (hp : p < data.length) (hcovered : isCovered edits p = false)
    (hreplaced : replacedAt edits p = []) :
    (positional data edits)[carryStart data edits p]? = data[p]? := by
  have hstop : carryStop data edits (p + 1) = carryStart data edits p + 1 := by
    rw [carryStop_succ, hreplaced, keptAt_eq, hcovered]
    simp [hp]
  have hkept : ((positional data edits).drop (carryStart data edits p)).take
      (carryStop data edits (p + 1) - carryStart data edits p) =
        (data.drop p).take (p + 1 - p) := by
    refine drop_take_carry (Nat.lt_succ_self p) hp (fun i hi hi' => ?_) fun i hi hi' => by omega
    obtain rfl : i = p := by omega
    exact ⟨hcovered, hreplaced⟩
  rw [hstop, Nat.add_sub_cancel_left, Nat.succ_sub (Nat.le_refl p), Nat.sub_self] at hkept
  have hhead := congrArg List.head? hkept
  simpa [List.head?_take, List.head?_drop] using hhead

theorem linesBefore_eq (data : List UInt8) (edits : List Edit) (p : Nat) :
    linesBefore data edits p = (front data edits p).count 10 := by
  rw [front, List.count_append]
  rfl

theorem insertedAt_append (edits more : List Edit) (i : Nat) :
    insertedAt (edits ++ more) i = insertedAt edits i ++ insertedAt more i := by
  rw [insertedAt, List.filter_append, List.flatMap_append]
  rfl

/-! ## Marks on a line -/

theorem countP_zipIdx {α : Type} {xs : List α} {n : Nat} {test : α × Nat → Bool} {test' : α → Bool}
    (h : ∀ x i, (x, i) ∈ xs.zipIdx n → test (x, i) = test' x) :
    (xs.zipIdx n).countP test = xs.countP test' := by
  conv_rhs => rw [← List.zipIdx_map_fst n xs, List.countP_map]
  exact List.countP_congr fun ⟨x, i⟩ hmem => by rw [h x i hmem, Function.comp]

/-- How often a text is put at some offset, from one offset to another. -/
def marksIn (edits : List Edit) (mark : String) (a q : Nat) : Nat :=
  edits.countP fun e : Edit =>
    e.replacement == mark && decide ((a : Int) ≤ e.start) && decide (e.start ≤ (q : Int))

/-- Where what an edit inserts lands: behind what is inserted there by some edits before it. -/
def insertionPoint (data : List UInt8) (edits before : List Edit) (e : Edit) : Nat :=
  carryStop data edits e.start.toNat + (insertedAt before e.start.toNat).length

/-- How often a text is put before an offset, on the line on which that lands. -/
def marksBefore (data : List UInt8) (edits : List Edit) (mark : String) (q : Nat) : Nat :=
  let corrected := LineIndex.ofBytes (positional data edits)
  edits.zipIdx.countP fun (e, i) => e.replacement == mark && decide (e.start ≤ (q : Int)) &&
    corrected.lineOf (insertionPoint data edits (edits.take i) e) ==
      corrected.lineOf (carryStart data edits q)

variable {mark : String} {b : UInt8}

theorem marksIn_add (hap : a ≤ p) (hpq : p ≤ q) (edits : List Edit) (mark : String) :
    marksIn edits mark a q = marksIn edits mark a p + marksIn edits mark (p + 1) q := by
  rw [marksIn, List.countP_eq_countP_filter_add _ _ fun e : Edit => decide (e.start ≤ (p : Int)),
    List.countP_filter, List.countP_filter]
  congr 1
  · refine List.countP_congr fun e _ => ?_
    simp only [Bool.and_eq_true, decide_eq_true_eq]
    constructor
    · rintro ⟨⟨hmark, -⟩, hle⟩
      exact ⟨hmark, hle⟩
    · rintro ⟨hmark, hle⟩
      exact ⟨⟨hmark, by omega⟩, hle⟩
  · refine List.countP_congr fun e _ => ?_
    simp only [Bool.and_eq_true, decide_eq_true_eq, Bool.not_eq_true', decide_eq_false_iff_not]
    constructor
    · rintro ⟨⟨⟨hmark, -⟩, hhigh⟩, hlow⟩
      exact ⟨⟨hmark, by omega⟩, hhigh⟩
    · rintro ⟨⟨hmark, hlow⟩, hhigh⟩
      exact ⟨⟨⟨hmark, by omega⟩, hhigh⟩, by omega⟩

/-- A text of one byte that is only ever inserted. -/
structure Mark (edits : List Edit) (mark : String) (b : UInt8) : Prop where
  encoded : Utf8.encode mark = [b]
  plain : b ≠ 10
  inserted : ∀ e ∈ edits, e.replacement = mark → e.isInsertion = true

theorem Mark.subset (hmark : Mark edits mark b) (h : more ⊆ edits) : Mark more mark b :=
  ⟨hmark.encoded, hmark.plain, fun e he => hmark.inserted e (h he)⟩

/-- Where nothing but marks is inserted, each adds one byte. -/
theorem Mark.insertedAt_eq (hmark : Mark edits mark b)
    (h : ∀ e ∈ edits, e.isInsertion = true → e.start = (i : Int) → e.replacement = mark) :
    insertedAt edits i = List.replicate (marksIn edits mark i i) b := by
  have hfilter : edits.filter (fun e => e.isInsertion && e.start == (i : Int)) =
      edits.filter fun e : Edit =>
        e.replacement == mark && decide ((i : Int) ≤ e.start) && decide (e.start ≤ (i : Int)) := by
    refine List.filter_congr fun e he => ?_
    rw [Bool.eq_iff_iff]
    simp only [Bool.and_eq_true, beq_iff_eq, decide_eq_true_eq]
    constructor
    · rintro ⟨hinsertion, hstart⟩
      exact ⟨⟨h e he hinsertion hstart, by omega⟩, by omega⟩
    · rintro ⟨⟨hrepl, hlow⟩, hhigh⟩
      exact ⟨hmark.inserted e he hrepl, by omega⟩
  rw [insertedAt, hfilter, marksIn, List.countP_eq_length_filter, ← List.map_const',
    List.map_eq_flatMap]
  refine List.flatMap_congr fun e he => ?_
  simp only [List.mem_filter, Bool.and_eq_true, beq_iff_eq] at he
  rw [he.2.1.1, hmark.encoded]

theorem Mark.not_mem_insertedAt (hmark : Mark edits mark b)
    (h : ∀ e ∈ edits, e.isInsertion = true → e.start = (i : Int) → e.replacement = mark) :
    (10 : UInt8) ∉ insertedAt edits i := by
  rw [hmark.insertedAt_eq h, List.mem_replicate]
  exact fun h => hmark.plain h.2.symm

theorem marksIn_append (edits more : List Edit) (mark : String) (a q : Nat) :
    marksIn (edits ++ more) mark a q = marksIn edits mark a q + marksIn more mark a q :=
  List.countP_append

/-! ## Where lines start -/

theorem breaksAt_append (edits more : List Edit) (i : Nat) :
    breaksAt (edits ++ more) i = breaksAt edits i + breaksAt more i := by
  rw [breaksAt, insertedAt_append, List.count_append]
  rfl

/-- A place where a line starts in the edited text, and the column there before the marks.  The
early edits are those up to the line break, if it is an edit. -/
structure LineStart (data : List UInt8) (edits early late : List Edit) (mark : String)
    (a column : Nat) : Prop where
  split : edits = early ++ late
  column : sinceNewline (front data edits a) = column + marksIn late mark a a
  /-- Nothing before the place lands on the line. -/
  fresh : ∀ i < a, linesBefore data edits i ≠ linesBefore data edits a
  /-- An early mark comes before the line break. -/
  early : ∀ before e after, early = before ++ e :: after → e.replacement = mark →
    breaksAt before a < breaksAt early a
  late : ∀ e ∈ late, e.isInsertion = true → e.start = (a : Int) → e.replacement = mark

/-- Behind the line break no other one is inserted. -/
theorem LineStart.breaksAt_late {early late more rest : List Edit} {column : Nat}
    (h : LineStart data edits early late mark a column) (hmark : Mark edits mark b)
    (hlate : late = more ++ rest) : breaksAt rest a = 0 := by
  have hsubset : rest ⊆ edits := by
    rw [h.split, hlate, ← List.append_assoc]
    exact List.subset_append_right _ _
  exact List.count_eq_zero.2 ((hmark.subset hsubset).not_mem_insertedAt fun e he =>
    h.late e (by simp [hlate, he]))

/-- The first line starts at the beginning. -/
theorem Mark.lineStart_zero (hmark : Mark edits mark b)
    (hmarked : ∀ e ∈ edits, e.isInsertion = true → e.start = 0 → e.replacement = mark) :
    LineStart data edits [] edits mark 0 0 where
  split := rfl
  column := by
    rw [front_zero, ← List.nil_append (insertedAt edits 0),
      sinceNewline_append (hmark.not_mem_insertedAt hmarked), hmark.insertedAt_eq hmarked,
      List.length_replicate]
    rfl
  fresh i hi := absurd hi (Nat.not_lt_zero i)
  early := by simp
  late := hmarked

/-- A line starts after a newline that is kept. -/
theorem Mark.lineStart_succ (hmark : Mark edits mark b) (hnewline : data[i]? = some 10)
    (hcovered : isCovered edits i = false) (hreplaced : replacedAt edits i = [])
    (hmarked : ∀ e ∈ edits, e.isInsertion = true → e.start = ((i + 1 : Nat) : Int) →
      e.replacement = mark) :
    LineStart data edits [] edits mark (i + 1) 0 := by
  have hfront : front data edits (i + 1) =
      front data edits i ++ [10] ++ insertedAt edits (i + 1) := by
    rw [front_succ, hreplaced, keptAt_eq, hcovered, hnewline]
    simp
  refine ⟨rfl, ?_, fun j hj => ?_, by simp, hmarked⟩
  · rw [hfront, sinceNewline_append (hmark.not_mem_insertedAt hmarked), sinceNewline_newline,
      hmark.insertedAt_eq hmarked, List.length_replicate]
  · have hprefix : front data edits j <+: front data edits i := by
      rcases Nat.eq_or_lt_of_le (Nat.le_of_lt_succ hj) with rfl | hlt
      · exact List.prefix_refl _
      · exact (prefix_front hlt).trans (List.prefix_append _ _)
    have hle := hprefix.sublist.count_le 10
    rw [linesBefore_eq, linesBefore_eq, hfront, List.count_append, List.count_append]
    simp only [List.count_singleton_self]
    omega

/-- A line starts at a line break. -/
theorem Mark.lineStart_break {before after : List Edit} {e : Edit} {rest : List UInt8}
    (hmark : Mark edits mark b) (hedits : edits = before ++ [e] ++ after)
    (hinsertion : e.isInsertion = true) (hstart : e.start = (a : Int))
    (hbreak : Utf8.encode e.replacement = 10 :: rest) (hrest : (10 : UInt8) ∉ rest)
    (hafter : ∀ x ∈ after, x.isInsertion = true → x.start = (a : Int) → x.replacement = mark) :
    LineStart data edits (before ++ [e]) after mark a rest.length := by
  have hmarkAfter : Mark after mark b := hmark.subset (hedits ▸ List.subset_append_right _ _)
  have hhere : insertedAt (before ++ [e]) a = insertedAt before a ++ 10 :: rest := by
    simp [insertedAt, hinsertion, hstart, hbreak]
  have hline : (10 : UInt8) ∉ rest ++ insertedAt after a :=
    fun h => (List.mem_append.1 h).elim hrest (hmarkAfter.not_mem_insertedAt hafter)
  have hfront : front data edits a = emittedBefore data edits a ++ insertedAt before a ++ [10] ++
      (rest ++ insertedAt after a) := by
    rw [front]
    conv_lhs => rw [hedits, insertedAt_append, hhere, ← hedits]
    simp
  refine ⟨hedits, ?_, fun j hj => ?_, fun early x late hsplit hrepl => ?_, hafter⟩
  · rw [hfront, sinceNewline_append hline, sinceNewline_newline, List.length_append,
      hmarkAfter.insertedAt_eq hafter, List.length_replicate, Nat.zero_add]
  · have hle : (front data edits j).count 10 ≤ (emittedBefore data edits a).count 10 :=
      (prefix_front hj).sublist.count_le 10
    rw [linesBefore_eq, linesBefore_eq, hfront, List.count_append, List.count_append,
      List.count_append]
    simp only [List.count_singleton_self]
    omega
  · -- The mark is not the break itself, so it stands before it.
    rcases List.eq_nil_or_concat late with rfl | ⟨late, y, rfl⟩
    · obtain ⟨-, heq⟩ := List.append_inj' hsplit rfl
      obtain rfl := List.singleton_inj.1 heq
      rw [hrepl, hmark.encoded] at hbreak
      exact absurd (List.cons.inj hbreak).1 hmark.plain
    · rw [List.concat_eq_append, ← List.cons_append, ← List.append_assoc] at hsplit
      obtain ⟨rfl, -⟩ := List.append_inj' hsplit rfl
      rw [breaksAt, breaksAt, hhere, insertedAt_append]
      simp only [List.count_append, List.count_cons_self]
      omega

/-- The line on which what an edit inserts lands. -/
theorem lineOf_insertionPoint {before after : List Edit} {e : Edit}
    (hsplit : edits = before ++ e :: after) (hp : e.start = (p : Int)) (hle : p ≤ data.length) :
    (LineIndex.ofBytes (positional data edits)).lineOf (insertionPoint data edits before e) =
      (emittedBefore data edits p).count 10 + breaksAt before p + 1 := by
  have hprefix : emittedBefore data edits p ++ insertedAt before p <+: positional data edits := by
    refine List.IsPrefix.trans ?_ (List.take_prefix (carryStart data edits p) _)
    rw [take_front hle, front]
    conv_rhs => rw [hsplit, insertedAt_append, ← hsplit, ← List.append_assoc]
    exact List.prefix_append _ _
  have htake := List.prefix_iff_eq_take.1 hprefix
  rw [List.length_append] at htake
  rw [LineIndex.lineOf_eq_count, insertionPoint, hp, Int.toNat_natCast, carryStop, ← htake,
    List.count_append]
  rfl

/-- A stretch of a line that no edit touches but the marks put into it. -/
structure Stretch (data : List UInt8) (edits : List Edit) (mark : String) (a q : Nat) : Prop where
  le : a ≤ q
  blank : ∀ i, a ≤ i → i < q → i < data.length ∧ data[i]? ≠ some 10
  kept : ∀ i, a ≤ i → i < q → isCovered edits i = false ∧ replacedAt edits i = []
  marked : ∀ e ∈ edits, e.isInsertion = true → (a : Int) < e.start → e.start ≤ q →
    e.replacement = mark

namespace Stretch

theorem of_le (h : Stretch data edits mark a q) (hp : a ≤ p) (hpq : p ≤ q) :
    Stretch data edits mark p q where
  le := hpq
  blank i hi := h.blank i (by omega)
  kept i hi := h.kept i (by omega)
  marked e he hinsertion hstart := h.marked e he hinsertion (by omega)

/-- What a stretch contributes: its own bytes and the marks. -/
theorem exists_tail (h : Stretch data edits mark a q) (hmark : Mark edits mark b) :
    ∃ tail, front data edits q = front data edits a ++ tail ∧ (10 : UInt8) ∉ tail ∧
      tail.length + marksIn edits mark a a = q - a + marksIn edits mark a q := by
  obtain ⟨hle, hblank, hkept, hmarked⟩ := h
  induction q, hle using Nat.le_induction with
  | base => exact ⟨[], by simp, by simp, by simp⟩
  | succ q hle ih =>
      obtain ⟨tail, hfront, hline, hlength⟩ := ih (fun i hi hiq => hblank i hi (by omega))
        (fun i hi hiq => hkept i hi (by omega))
        fun e he hinsertion hlow hhigh => hmarked e he hinsertion hlow (by omega)
      obtain ⟨hq, hnewline⟩ := hblank q hle (by omega)
      obtain ⟨hcovered, hreplaced⟩ := hkept q hle (by omega)
      have hinserted := hmark.insertedAt_eq (i := q + 1)
        fun e he hinsertion hstart => hmarked e he hinsertion (by omega) (by omega)
      have hbyte : keptAt data edits q = [data[q]] := by
        simp [keptAt_eq, hcovered, hq]
      refine ⟨tail ++ (data[q] :: insertedAt edits (q + 1)), ?_, ?_, ?_⟩
      · rw [front_succ, hreplaced, hbyte, hfront]
        simp
      · rw [List.getElem?_eq_getElem hq] at hnewline
        rw [hinserted, List.mem_append, List.mem_cons, List.mem_replicate]
        rintro (hmem | heq | ⟨-, heq⟩)
        · exact hline hmem
        · exact hnewline (congrArg some heq.symm)
        · exact hmark.plain heq.symm
      · have hsucc := marksIn_add hle (Nat.le_add_right q 1) edits mark
        rw [hinserted, List.length_append, List.length_cons, List.length_replicate]
        omega

/-- On a stretch nothing lands on another line. -/
theorem linesBefore_eq (h : Stretch data edits mark a q) (hmark : Mark edits mark b) :
    linesBefore data edits a = linesBefore data edits q := by
  obtain ⟨tail, hfront, hline, -⟩ := h.exists_tail hmark
  rw [Edit.linesBefore_eq, Edit.linesBefore_eq, hfront, List.count_append,
    List.count_eq_zero.2 hline]
  rfl

variable {early late before after : List Edit} {column : Nat} {e : Edit}

/-- On the line of a stretch that starts a line land the marks behind its start, and of those at its
start the late ones. -/
theorem lineOf_insertionPoint_iff (h : Stretch data edits mark a q) (hmark : Mark edits mark b)
    (hline : LineStart data edits early late mark a column) (hq : q ≤ data.length)
    (hsplit : edits = before ++ e :: after) (hrepl : e.replacement = mark)
    (hp : e.start = (p : Int)) (hpq : p ≤ q) :
    (LineIndex.ofBytes (positional data edits)).lineOf (insertionPoint data edits before e) =
        (LineIndex.ofBytes (positional data edits)).lineOf (carryStart data edits q) ↔
      a < p ∨ a = p ∧ early.length ≤ before.length := by
  have hbreaks := breaksAt_append before (e :: after) p
  rw [← hsplit] at hbreaks
  have hlines : linesBefore data edits p =
      (emittedBefore data edits p).count 10 + breaksAt edits p := rfl
  rw [lineOf_insertionPoint hsplit hp (by omega), lineOf_carryStart hq, ← h.linesBefore_eq hmark]
  rcases Nat.lt_trichotomy p a with hpa | rfl | hap
  · have hfresh := hline.fresh p hpa
    have hle : linesBefore data edits p ≤ linesBefore data edits a :=
      linesBefore_mono (Nat.le_of_lt hpa)
    omega
  · rcases List.append_eq_append_iff.1 (hline.split.symm.trans hsplit) with
      ⟨more, rfl, hlate⟩ | ⟨_ | ⟨x, more⟩, hearly, hlate⟩
    · have hnone := hline.breaksAt_late hmark hlate
      exact iff_of_true (by omega) (.inr ⟨rfl, by simp⟩)
    · have hnone := hline.breaksAt_late hmark (show late = [] ++ e :: after from hlate.symm)
      exact iff_of_true (by omega) (.inr ⟨rfl, by simp [hearly]⟩)
    · obtain ⟨rfl, -⟩ := List.cons.inj hlate
      have hbreak := hline.early before e more hearly hrepl
      have hall := breaksAt_append early late p
      rw [← hline.split] at hall
      have hlength := congrArg List.length hearly
      simp only [List.length_append, List.length_cons] at hlength
      omega
  · have hsame := (h.of_le (Nat.le_of_lt hap) hpq).linesBefore_eq hmark
    have hstretch := h.linesBefore_eq hmark
    have hbehind : (front data edits a).count 10 ≤ (emittedBefore data edits p).count 10 :=
      (prefix_front hap).sublist.count_le 10
    rw [← Edit.linesBefore_eq] at hbehind
    omega

/-- The marks on the line of a stretch that starts a line are those in the stretch. -/
theorem marksBefore_eq (h : Stretch data edits mark a q) (hmark : Mark edits mark b)
    (hline : LineStart data edits early late mark a column) (hq : q ≤ data.length)
    (hforward : ∀ e ∈ edits, 0 ≤ e.start) :
    marksBefore data edits mark q + marksIn early mark a a = marksIn edits mark a q := by
  have hon : ∀ {e i}, (e, i) ∈ edits.zipIdx → e.replacement = mark → e.start ≤ (q : Int) →
      ((LineIndex.ofBytes (positional data edits)).lineOf
          (insertionPoint data edits (edits.take i) e) =
        (LineIndex.ofBytes (positional data edits)).lineOf (carryStart data edits q) ↔
          (a : Int) < e.start ∨ (a : Int) = e.start ∧ early.length ≤ i) := by
    intro e i hmem hrepl hle
    obtain ⟨hi, he⟩ := List.mem_zipIdx' hmem
    obtain ⟨p, hp⟩ := Int.eq_ofNat_of_zero_le (hforward e (he ▸ List.getElem_mem hi))
    have hsplit : edits = edits.take i ++ e :: edits.drop (i + 1) := by simp [he]
    rw [h.lineOf_insertionPoint_iff hmark hline hq hsplit hrepl hp (by omega), List.length_take]
    omega
  have hzip : edits.zipIdx = early.zipIdx ++ late.zipIdx early.length := by
    rw [hline.split, List.zipIdx_append, Nat.zero_add]
  have hcount : marksBefore data edits mark q =
      marksIn early mark (a + 1) q + marksIn late mark a q := by
    rw [marksBefore]
    dsimp only
    rw [hzip, List.countP_append]
    congr 1
    · refine countP_zipIdx fun e i hmem => ?_
      have hi := List.snd_lt_of_mem_zipIdx hmem
      have hon := hon (hzip ▸ List.mem_append_left _ hmem)
      grind
    · refine countP_zipIdx fun e i hmem => ?_
      have hi := List.le_snd_of_mem_zipIdx hmem
      have hon := hon (hzip ▸ List.mem_append_right _ hmem)
      grind
  have hsum := marksIn_append early late mark a q
  rw [← hline.split] at hsum
  have hearly := marksIn_add (Nat.le_refl a) h.le early mark
  omega

/-- The column on which the end of a stretch lands that starts a line: the one at the start, the
bytes in between and the marks. -/
theorem columnOf_eq (h : Stretch data edits mark a q) (hmark : Mark edits mark b)
    (hline : LineStart data edits early late mark a column) (hq : q ≤ data.length)
    (hforward : ∀ e ∈ edits, 0 ≤ e.start) :
    (LineIndex.ofBytes (positional data edits)).columnOf (carryStart data edits q) =
      column + (q - a) + marksBefore data edits mark q := by
  obtain ⟨tail, hfront, hblank, hlength⟩ := h.exists_tail hmark
  have hmarks := h.marksBefore_eq hmark hline hq hforward
  have hsum := marksIn_append early late mark a a
  rw [← hline.split] at hsum
  rw [columnOf_carryStart hq, hfront, sinceNewline_append hblank, hline.column]
  omega

end Stretch

end Edit

end RubyLint
