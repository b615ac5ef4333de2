import Mathlib.Data.List.Basic
import RubyLint.Proofs.Edit.Arrangement
import RubyLint.Proofs.Sorting

/-!
# Edited bytes, offset by offset

What the edits of a script say about each offset of the source on its own: the texts inserted there,
the text that replaces a range starting there, and the byte itself unless a replaced range covers
it.  Reading these off from the first offset to the end is the meaning of a script; applying
arranged edits in one pass, from the end of one to the start of the next, gives the same bytes.
-/

namespace RubyLint.Edit

/-- The texts inserted at an offset, in the order of the edits. -/
def insertedAt (edits : List Edit) (i : Nat) : List UInt8 :=
  (edits.filter fun e => e.isInsertion && e.start == (i : Int)).flatMap fun e =>
    Utf8.encode e.replacement

/-- The text of the first replacement that starts at an offset. -/
def replacedAt (edits : List Edit) (i : Nat) : List UInt8 :=
  match edits.find? fun e => !e.isInsertion && e.start == (i : Int) with
  | none => []
  | some e => Utf8.encode e.replacement

def covers (e : Edit) (i : Nat) : Bool :=
  !e.isInsertion && e.start ≤ i && i < e.stop

/-- The byte at an offset, if there is one and no edit replaces it. -/
def keptAt (data : List UInt8) (edits : List Edit) (i : Nat) : List UInt8 :=
  if edits.any (·.covers i) then [] else data[i]?.toList

/-- What an offset contributes to the edited bytes. -/
def emittedAt (data : List UInt8) (edits : List Edit) (i : Nat) : List UInt8 :=
  insertedAt edits i ++ replacedAt edits i ++ keptAt data edits i

/-- The contributions of all offsets, the end of the data included. -/
def positional (data : List UInt8) (edits : List Edit) : List UInt8 :=
  (List.range (data.length + 1)).flatMap (emittedAt data edits)

/-- The contributions from an offset on. -/
def emittedFrom (data : List UInt8) (edits : List Edit) (i : Nat) : List UInt8 :=
  (List.range' i (data.length + 1 - i)).flatMap (emittedAt data edits)

theorem covers_iff {e : Edit} {i : Nat} :
    e.covers i = true ↔ e.isInsertion = false ∧ e.start ≤ i ∧ (i : Int) < e.stop := by
  simp [covers, and_assoc]

/-! ## What an offset contributes -/

variable {data : List UInt8} {edits other : List Edit} {e : Edit} {i : Nat}

theorem insertedAt_eq_nil (h : ∀ e ∈ edits, e.isInsertion = true → e.start ≠ i) :
    insertedAt edits i = [] := by
  rw [insertedAt, List.filter_eq_nil_iff.2, List.flatMap_nil]
  intro e he
  simpa using h e he

/-- Either no replacement starts at an offset, or one of them gives the text there. -/
theorem replacedAt_cases (edits : List Edit) (i : Nat) :
    (replacedAt edits i = [] ∧ ∀ e ∈ edits, e.isInsertion = false → e.start ≠ i) ∨
      ∃ e ∈ edits, e.isInsertion = false ∧ e.start = i ∧
        replacedAt edits i = Utf8.encode e.replacement := by
  rw [replacedAt]
  split
  next hnone =>
    refine .inl ⟨rfl, fun e he hreplace hstart => ?_⟩
    simpa [hreplace, hstart] using List.find?_eq_none.1 hnone e he
  next e hfound =>
    have htest := List.find?_some hfound
    simp only [Bool.and_eq_true, Bool.not_eq_true', beq_iff_eq] at htest
    exact .inr ⟨e, List.mem_of_find?_eq_some hfound, htest.1, htest.2, rfl⟩

theorem replacedAt_eq_nil (h : ∀ e ∈ edits, e.isInsertion = false → e.start ≠ i) :
    replacedAt edits i = [] := by
  rcases replacedAt_cases edits i with ⟨hnone, -⟩ | ⟨e, he, hreplace, hstart, -⟩
  · exact hnone
  · exact absurd hstart (h e he hreplace)

/-- If no two replacements start at one offset, their order does not matter. -/
theorem replacedAt_congr (hmem : ∀ e, e ∈ edits ↔ e ∈ other)
    (honce : ∀ a ∈ edits, ∀ b ∈ edits, a.isInsertion = false → b.isInsertion = false →
      a.start = b.start → a = b) (i : Nat) : replacedAt edits i = replacedAt other i := by
  rcases replacedAt_cases edits i with ⟨hnil, hnone⟩ | ⟨a, ha, hreplace, hstart, htext⟩
  · rw [hnil, replacedAt_eq_nil fun e he => hnone e ((hmem e).2 he)]
  · rcases replacedAt_cases other i with ⟨-, hnone⟩ | ⟨b, hb, hreplace', hstart', htext'⟩
    · exact absurd hstart (hnone a ((hmem a).1 ha) hreplace)
    · obtain rfl := honce a ha b ((hmem b).2 hb) hreplace hreplace' (hstart.trans hstart'.symm)
      rw [htext, htext']

theorem keptAt_eq_nil (he : e ∈ edits) (hcovers : e.covers i = true) :
    keptAt data edits i = [] := by
  rw [keptAt, if_pos (List.any_eq_true.2 ⟨e, he, hcovers⟩)]

theorem keptAt_of_clear (h : ∀ e ∈ edits, e.covers i = false) :
    keptAt data edits i = data[i]?.toList := by
  rw [keptAt, if_neg]
  simpa using h

theorem keptAt_congr (hmem : ∀ e, e ∈ edits ↔ e ∈ other) (data : List UInt8) (i : Nat) :
    keptAt data edits i = keptAt data other i := by
  have hcovers : edits.any (·.covers i) = other.any (·.covers i) := by
    rw [Bool.eq_iff_iff, List.any_eq_true, List.any_eq_true]
    simp only [hmem]
  rw [keptAt, keptAt, hcovers]

/-! ## One pass over arranged edits -/

theorem emittedFrom_eq_append {first next : Nat} (hle : first ≤ next) (hnext : next ≤ data.length) :
    emittedFrom data edits first =
      (List.range' first (next - first)).flatMap (emittedAt data edits) ++
        emittedFrom data edits next := by
  have hsplit : data.length + 1 - first = (next - first) + (data.length + 1 - next) := by omega
  have happend : List.range' first (next - first) ++
      List.range' (first + 1 * (next - first)) (data.length + 1 - next) =
        List.range' first ((next - first) + (data.length + 1 - next)) := List.range'_append
  rw [Nat.one_mul, Nat.add_sub_of_le hle] at happend
  rw [emittedFrom, hsplit, ← happend, List.flatMap_append]
  rfl

theorem emittedFrom_eq_cons (h : i ≤ data.length) :
    emittedFrom data edits i = emittedAt data edits i ++ emittedFrom data edits (i + 1) := by
  rw [emittedFrom, show data.length + 1 - i = (data.length - i) + 1 by omega, List.range'_succ,
    List.flatMap_cons, emittedFrom, show data.length + 1 - (i + 1) = data.length - i by omega]

theorem emittedFrom_congr {other : List Edit}
    (h : ∀ j, i ≤ j → emittedAt data edits j = emittedAt data other j) :
    emittedFrom data edits i = emittedFrom data other i := by
  rw [emittedFrom, emittedFrom]
  exact List.flatMap_congr fun j hj => h j (List.mem_range'_1.1 hj).1

/-- Before the first edit every byte stands for itself. -/
theorem emittedAt_of_lt (h : ∀ e ∈ edits, (i : Int) < e.start) :
    emittedAt data edits i = data[i]?.toList := by
  have hstart : ∀ e ∈ edits, e.start ≠ i := fun e he => Int.ne_of_gt (h e he)
  have hcovers : ∀ e ∈ edits, e.covers i = false := by
    intro e he
    have := h e he
    rw [Bool.eq_false_iff, ne_eq, covers_iff]
    omega
  rw [emittedAt, insertedAt_eq_nil fun e he _ => hstart e he,
    replacedAt_eq_nil fun e he _ => hstart e he, keptAt_of_clear hcovers]
  rfl

theorem flatMap_bytes (data : List UInt8) (first count : Nat) :
    (List.range' first count).flatMap (fun i => data[i]?.toList) =
      (data.drop first).take count := by
  induction count generalizing first with
  | zero => simp
  | succ count ih =>
      rw [List.range'_succ, List.flatMap_cons, ih]
      by_cases h : first < data.length
      · rw [List.drop_eq_getElem_cons h, List.take_succ_cons]
        simp [h]
      · have hlen : data.length ≤ first := by omega
        simp [List.drop_eq_nil_of_le, hlen, show data.length ≤ first + 1 by omega]

theorem emittedFrom_before {next : Nat} (hle : i ≤ next) (hnext : next ≤ data.length)
    (h : ∀ e ∈ edits, (next : Int) ≤ e.start) :
    emittedFrom data edits i = (data.drop i).take (next - i) ++ emittedFrom data edits next := by
  rw [emittedFrom_eq_append hle hnext, ← flatMap_bytes]
  congr 1
  refine List.flatMap_congr fun j hj => emittedAt_of_lt fun e he => ?_
  have hj := (List.mem_range'_1.1 hj).2
  have := h e he
  omega

theorem emittedFrom_nil (h : i ≤ data.length) : emittedFrom data [] i = data.drop i := by
  rw [emittedFrom_before h (Nat.le_refl _) (by simp), emittedFrom_eq_cons (Nat.le_refl _),
    emittedAt_of_lt (by simp), List.take_of_length_le (by simp)]
  simp [emittedFrom]

/-- An insertion comes before everything else that its offset contributes. -/
theorem emittedFrom_insertion {e : Edit} (hinsertion : e.isInsertion = true) (hstart : e.start = i)
    (h : i ≤ data.length) :
    emittedFrom data (e :: edits) i =
      Utf8.encode e.replacement ++ emittedFrom data edits i := by
  have hreplaced : ∀ j, replacedAt (e :: edits) j = replacedAt edits j := by
    simp [replacedAt, hinsertion]
  have hkept : ∀ j, keptAt data (e :: edits) j = keptAt data edits j := by
    simp [keptAt, covers, hinsertion]
  have hhere : emittedAt data (e :: edits) i =
      Utf8.encode e.replacement ++ emittedAt data edits i := by
    simp [emittedAt, hreplaced, hkept, insertedAt, hinsertion, hstart]
  have hlater : ∀ j, i + 1 ≤ j → emittedAt data (e :: edits) j = emittedAt data edits j := by
    intro j hj
    have hne : (e.start == (j : Int)) = false := by
      simp
      omega
    simp [emittedAt, hreplaced, hkept, insertedAt, hne]
  rw [emittedFrom_eq_cons h, hhere, emittedFrom_congr hlater, List.append_assoc,
    ← emittedFrom_eq_cons h]

/-- A replacement stands for its whole range if nothing else starts there. -/
theorem emittedFrom_replacement {e : Edit} {stop : Nat} (hreplacement : e.isInsertion = false)
    (hstart : e.start = i) (hstop : e.stop = stop) (hlt : i < stop) (hsize : stop ≤ data.length)
    (hclear : ∀ x ∈ edits, (stop : Int) ≤ x.start) :
    emittedFrom data (e :: edits) i =
      Utf8.encode e.replacement ++ emittedFrom data edits stop := by
  have hcovered : ∀ j, i ≤ j → j < stop → keptAt data (e :: edits) j = [] := by
    intro j hij hjs
    exact keptAt_eq_nil List.mem_cons_self (covers_iff.2 ⟨hreplacement, by omega, by omega⟩)
  have hinserted : ∀ j, j < stop → insertedAt (e :: edits) j = [] := by
    intro j hj
    refine insertedAt_eq_nil fun x hx hinsertion => ?_
    rcases List.mem_cons.1 hx with rfl | hx
    · rw [hreplacement] at hinsertion
      nomatch hinsertion
    · have := hclear x hx
      omega
  have hhere : emittedAt data (e :: edits) i = Utf8.encode e.replacement := by
    simp [emittedAt, hinserted i hlt, hcovered i (Nat.le_refl i) hlt, replacedAt, hreplacement,
      hstart]
  have hinside : ∀ j ∈ List.range' (i + 1) (stop - (i + 1)),
      emittedAt data (e :: edits) j = [] := by
    intro j hj
    have hrange := List.mem_range'_1.1 hj
    have hreplaced : replacedAt (e :: edits) j = [] := by
      refine replacedAt_eq_nil fun x hx _ => ?_
      rcases List.mem_cons.1 hx with rfl | hx
      · omega
      · have := hclear x hx
        omega
    rw [emittedAt, hinserted j (by omega), hreplaced, hcovered j (by omega) (by omega)]
    rfl
  have hlater : ∀ j, stop ≤ j → emittedAt data (e :: edits) j = emittedAt data edits j := by
    intro j hj
    have hne : (e.start == (j : Int)) = false := by
      simp
      omega
    have hout : e.covers j = false := by
      simp [covers]
      omega
    simp [emittedAt, insertedAt, replacedAt, keptAt, hne, hout]
  rw [emittedFrom_eq_cons (by omega), hhere, emittedFrom_eq_append (by omega) hsize,
    List.flatMap_eq_nil_iff.2 hinside, List.nil_append, emittedFrom_congr hlater]

/-- Splicing in edits that follow each other gives the contributions of all offsets. -/
theorem splice_eq_emittedFrom
    (hwithin : ∀ e ∈ edits, ¬e.Misplaced data.length)
    (hordered : edits.Pairwise fun a b => a.stop ≤ b.start)
    (hfrom : ∀ e ∈ edits, (i : Int) ≤ e.start) (h : i ≤ data.length) :
    splice data i edits = emittedFrom data edits i := by
  induction edits generalizing i with
  | nil => rw [splice, emittedFrom_nil h]
  | cons e rest ih =>
      obtain ⟨hnonneg, hforward, hsize⟩ := not_misplaced_iff.1 (hwithin e List.mem_cons_self)
      have hhead := hfrom e List.mem_cons_self
      obtain ⟨hafter, hrest⟩ := List.pairwise_cons.1 hordered
      obtain ⟨start, hstart⟩ := Int.eq_ofNat_of_zero_le hnonneg
      obtain ⟨stop, hstop⟩ := Int.eq_ofNat_of_zero_le (Int.le_trans hnonneg hforward)
      have hnext : splice data stop rest = emittedFrom data rest stop := by
        refine ih (fun x hx => hwithin x (List.mem_cons_of_mem e hx)) hrest (fun x hx => ?_)
          (by omega)
        have := hafter x hx
        omega
      have hbefore : ∀ x ∈ e :: rest, (start : Int) ≤ x.start := by
        intro x hx
        rcases List.mem_cons.1 hx with rfl | hx
        · omega
        · have := hafter x hx
          omega
      rw [splice, hstart, hstop, Int.toNat_natCast, Int.toNat_natCast, hnext,
        emittedFrom_before (by omega) (by omega) hbefore, List.append_assoc]
      congr 1
      cases hinsertion : e.isInsertion with
      | true =>
          have heq : start = stop := by
            have := isInsertion_iff.1 hinsertion
            omega
          subst heq
          rw [emittedFrom_insertion hinsertion hstart (by omega)]
      | false =>
          have hne := isInsertion_eq_false_iff.1 hinsertion
          rw [emittedFrom_replacement hinsertion hstart hstop (by omega) (by omega)]
          intro x hx
          have := hafter x hx
          omega

/-! ## From the order of addition to the order of application -/

theorem Settled.follow {edits : List OwnedEdit} (h : Settled edits) :
    (edits.map (·.edit)).Pairwise fun a b => a.stop ≤ b.start := by
  rw [List.pairwise_map]
  refine (h.ordered.and h.clear).imp ?_
  rintro a b ⟨hprecedes, hclear⟩
  cases hinsertion : a.edit.isInsertion with
  | true =>
      rw [isInsertion_iff] at hinsertion
      rw [precedes_iff] at hprecedes
      omega
  | false => exact hclear hinsertion

/-- Sorting keeps the order of the insertions at one offset. -/
theorem filter_sorted (pending : List OwnedEdit) (i : Nat) :
    (sorted pending).filter (fun e => e.edit.isInsertion && e.edit.start == (i : Int)) =
      pending.filter fun e => e.edit.isInsertion && e.edit.start == (i : Int) := by
  set here : OwnedEdit → Bool := fun e => e.edit.isInsertion && e.edit.start == (i : Int)
  have hdedupe : (dedupe [] pending).filter here = pending.filter here := by
    have hsplit : ∀ edits : List OwnedEdit, edits.filter here =
        (edits.filter (·.edit.isInsertion)).filter fun e => e.edit.start == (i : Int) := by
      intro edits
      rw [List.filter_filter]
      exact List.filter_congr fun e _ => by simp [here, Bool.and_comm]
    rw [hsplit, filter_dedupe, ← hsplit]
  have htied : ∀ a b, here a = true → here b = true → precedes a b = true := by
    intro a b ha hb
    simp only [here, Bool.and_eq_true, beq_iff_eq] at ha hb
    exact precedes_iff.2 (.inr ⟨by omega, .inl ha.1⟩)
  rw [sorted, filter_mergeSort_of_tied precedes_trans precedes_total htied, hdedupe]

variable {pending : List OwnedEdit}

/-- In settled edits at most one replacement starts at an offset. -/
theorem eq_of_same_start {a b : OwnedEdit} (h : Settled (sorted pending))
    (hmemA : a ∈ pending) (hmemB : b ∈ pending) (ha : a.edit.isInsertion = false)
    (hb : b.edit.isInsertion = false) (hstart : a.edit.start = b.edit.start) :
    a.edit = b.edit := by
  obtain ⟨x, hx, hxa⟩ := exists_mem_sorted hmemA
  obtain ⟨y, hy, hyb⟩ := exists_mem_sorted hmemB
  by_contra hne
  have hforwardA := h.forward x hx
  have hforwardB := h.forward y hy
  rw [hxa] at hforwardA
  rw [hyb] at hforwardB
  refine h.not_overlap x hx y hy ?_
  rw [hxa, hyb]
  exact overlap_of_start_eq hne ha hb hforwardA hforwardB hstart

/-- Every offset contributes the same in the order of addition and in that of application. -/
theorem emittedAt_sorted (h : Settled (sorted pending)) (data : List UInt8) (i : Nat) :
    emittedAt data ((sorted pending).map (·.edit)) i = emittedAt data (pending.map (·.edit)) i := by
  have hinserted : insertedAt ((sorted pending).map (·.edit)) i =
      insertedAt (pending.map (·.edit)) i := by
    simp only [insertedAt, List.filter_map, Function.comp_def, filter_sorted]
  have hmem : ∀ e, e ∈ (sorted pending).map (·.edit) ↔ e ∈ pending.map (·.edit) := by
    intro e
    simp only [List.mem_map]
    constructor
    · rintro ⟨x, hx, rfl⟩
      exact ⟨x, mem_of_mem_sorted hx, rfl⟩
    · rintro ⟨x, hx, rfl⟩
      exact exists_mem_sorted hx
  have honce : ∀ a ∈ (sorted pending).map (·.edit), ∀ b ∈ (sorted pending).map (·.edit),
      a.isInsertion = false → b.isInsertion = false → a.start = b.start → a = b := by
    intro a ha b hb
    obtain ⟨x, hx, rfl⟩ := List.mem_map.1 ha
    obtain ⟨y, hy, rfl⟩ := List.mem_map.1 hb
    exact eq_of_same_start h (mem_of_mem_sorted hx) (mem_of_mem_sorted hy)
  rw [emittedAt, hinserted, replacedAt_congr hmem honce, keptAt_congr hmem, emittedAt]

/-- One pass over arranged edits reads off every offset. -/
theorem splice_arranged {arranged : List OwnedEdit}
    (h : arrange data.length pending = .ok arranged) :
    splice data 0 (arranged.map (·.edit)) = positional data (pending.map (·.edit)) := by
  obtain ⟨hwithin, rfl, hsettled⟩ := arrange_eq_ok h
  have hsplice : splice data 0 ((sorted pending).map (·.edit)) =
      emittedFrom data ((sorted pending).map (·.edit)) 0 := by
    refine splice_eq_emittedFrom ?_ hsettled.follow ?_ (Nat.zero_le _)
    · intro e he
      obtain ⟨x, hx, rfl⟩ := List.mem_map.1 he
      exact hwithin x (mem_of_mem_sorted hx)
    · intro e he
      obtain ⟨x, hx, rfl⟩ := List.mem_map.1 he
      exact (not_misplaced_iff.1 (hwithin x (mem_of_mem_sorted hx))).1
  rw [hsplice, emittedFrom_congr fun i _ => emittedAt_sorted hsettled _ i, emittedFrom, positional,
    List.range_eq_range']
  rfl

end RubyLint.Edit

namespace RubyLint.EditScript

open Edit

/-- The edited bytes of an accepted script are read off offset by offset: first all insertions at
the offset in the order in which they were added, then the text of the one replacement that starts
there, then the byte itself if no replacement covers it. -/
theorem editedBytes_eq_positional (s : EditScript) (ordered : List Edit)
    (h : s.check = .ok ordered) :
    s.editedBytes = .ok (positional (Utf8.encode s.source) s.edits) ∧
      ∀ a ∈ s.edits, ∀ b ∈ s.edits, a.isInsertion = false → b.isInsertion = false →
        a.start = b.start → a = b := by
  obtain ⟨arranged, harranged, rfl⟩ := check_eq_ok_iff.1 h
  refine ⟨?_, ?_⟩
  · rw [editedBytes, h, Except.map, splice_arranged harranged]
    rfl
  · obtain ⟨-, rfl, hsettled⟩ := arrange_eq_ok harranged
    intro a ha b hb hreplacementA hreplacementB hstart
    obtain ⟨x, hx, rfl⟩ := List.mem_map.1 ha
    obtain ⟨y, hy, rfl⟩ := List.mem_map.1 hb
    exact eq_of_same_start hsettled hx hy hreplacementA hreplacementB hstart

/-- Insertions at both edges of a replacement that was added twice. -/
def crowded : EditScript where
  source := "abcd"
  pending := [⟨⟨1, 2, "Y"⟩, some "first"⟩, ⟨⟨1, 1, "x"⟩, none⟩, ⟨⟨2, 2, "z"⟩, none⟩,
    ⟨⟨1, 2, "Y"⟩, some "second"⟩, ⟨⟨1, 1, "w"⟩, none⟩]

theorem editedBytes_crowded :
    crowded.check = .ok [⟨1, 1, "x"⟩, ⟨1, 1, "w"⟩, ⟨1, 2, "Y"⟩, ⟨2, 2, "z"⟩] ∧
      crowded.editedBytes = .ok (Utf8.encode "axwYzcd") := by
  have hcheck : crowded.check = .ok [⟨1, 1, "x"⟩, ⟨1, 1, "w"⟩, ⟨1, 2, "Y"⟩, ⟨2, 2, "z"⟩] := by
    have hdedupe : dedupe [] crowded.pending = [⟨⟨1, 2, "Y"⟩, some "first"⟩, ⟨⟨1, 1, "x"⟩, none⟩,
        ⟨⟨2, 2, "z"⟩, none⟩, ⟨⟨1, 1, "w"⟩, none⟩] := by decide
    have hsorted : sorted crowded.pending = [⟨⟨1, 1, "x"⟩, none⟩, ⟨⟨1, 1, "w"⟩, none⟩,
        ⟨⟨1, 2, "Y"⟩, some "first"⟩, ⟨⟨2, 2, "z"⟩, none⟩] := by
      rw [sorted, hdedupe]
      simp [List.mergeSort, List.MergeSort.Internal.splitInTwo, List.splitAt, List.splitAt.go,
        precedes, Edit.isInsertion]
    rw [check, arrange_of_within (by decide), hsorted]
    decide
  have hread : positional (Utf8.encode crowded.source) crowded.edits = Utf8.encode "axwYzcd" := by
    decide
  refine ⟨hcheck, ?_⟩
  rw [(editedBytes_eq_positional crowded _ hcheck).1, hread]

end RubyLint.EditScript
