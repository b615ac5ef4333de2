import Mathlib.Data.List.Find
import RubyLint.Proofs.Edit.Correction

/-!
# Edits between characters

An edit that begins and ends between characters of a text can as well be made on the characters as
on their bytes.  What the edits of a script say about a character is said about all of its bytes:
insertions and replacements start at its first byte, and its bytes are kept or replaced together.
So the bytes that edits leave are those of the characters that they leave.
-/

namespace RubyLint

namespace Utf8

variable {cs : List Char} {a b j k : Nat}

def charOffset (cs : List Char) (k : Nat) : Nat :=
  (encodeChars (cs.take k)).length

/-- The number of characters that end at or before an offset; at an offset between characters this
is the position of the character that follows. -/
def charsBefore : List Char → Nat → Nat
  | [], _ => 0
  | c :: rest, offset =>
    if (String.utf8EncodeChar c).length ≤ offset then
      charsBefore rest (offset - (String.utf8EncodeChar c).length) + 1
    else 0

theorem length_encodeChar_pos (c : Char) : 0 < (String.utf8EncodeChar c).length := by
  rw [String.length_utf8EncodeChar]
  exact c.utf8Size_pos

theorem charOffset_cons_succ (c : Char) (rest : List Char) (k : Nat) :
    charOffset (c :: rest) (k + 1) = (String.utf8EncodeChar c).length + charOffset rest k := by
  rw [charOffset, List.take_succ_cons, encodeChars, List.flatMap_cons, List.length_append]
  rfl

theorem charOffset_succ (hk : k < cs.length) :
    charOffset cs (k + 1) = charOffset cs k + (String.utf8EncodeChar cs[k]).length := by
  rw [charOffset, charOffset, List.take_succ_eq_append_getElem hk, encodeChars_append,
    List.length_append, encodeChars, encodeChars, List.flatMap_singleton]

theorem charOffset_mono (hab : a ≤ b) : charOffset cs a ≤ charOffset cs b := by
  obtain ⟨later, hlater⟩ : cs.take a <+: cs.take b := List.take_prefix_take_left hab
  rw [charOffset, charOffset, ← hlater, encodeChars_append, List.length_append]
  exact Nat.le_add_right _ _

theorem charOffset_lt (hab : a < b) (hb : b ≤ cs.length) : charOffset cs a < charOffset cs b := by
  have hnext : charOffset cs (a + 1) ≤ charOffset cs b := charOffset_mono hab
  have hpos := length_encodeChar_pos cs[a]
  rw [charOffset_succ (Nat.lt_of_lt_of_le hab hb)] at hnext
  omega

/-- Different positions have different offsets. -/
theorem charOffset_inj (ha : a ≤ cs.length) (hb : b ≤ cs.length) :
    charOffset cs a = charOffset cs b ↔ a = b := by
  refine ⟨fun heq => ?_, fun heq => by rw [heq]⟩
  rcases Nat.lt_trichotomy a b with hlt | hsame | hlt
  · exact absurd heq (Nat.ne_of_lt (charOffset_lt hlt hb))
  · exact hsame
  · exact absurd heq (Nat.ne_of_gt (charOffset_lt hlt ha))

/-- The order of positions is that of their offsets. -/
theorem charOffset_lt_iff (hb : b ≤ cs.length) : charOffset cs a < charOffset cs b ↔ a < b := by
  constructor
  · intro hlt
    by_contra hge
    have hback : charOffset cs b ≤ charOffset cs a := charOffset_mono (Nat.not_lt.1 hge)
    exact absurd hback (Nat.not_le.2 hlt)
  · intro hlt
    exact charOffset_lt hlt hb

/-- An offset between characters is at or before a byte of a character exactly if it is at or before
its first byte. -/
theorem charOffset_le_iff (hk : k < cs.length) (hj : j < (String.utf8EncodeChar cs[k]).length) :
    charOffset cs a ≤ charOffset cs k + j ↔ a ≤ k := by
  constructor
  · intro hle
    by_contra hgt
    have hnext : charOffset cs (k + 1) ≤ charOffset cs a := charOffset_mono (Nat.not_le.1 hgt)
    rw [charOffset_succ hk] at hnext
    omega
  · intro hle
    exact Nat.le_trans (charOffset_mono hle) (Nat.le_add_right _ _)

theorem charsBefore_charOffset (hk : k ≤ cs.length) : charsBefore cs (charOffset cs k) = k := by
  induction cs generalizing k with
  | nil =>
      rw [List.length_nil, Nat.le_zero] at hk
      rw [charsBefore, hk]
  | cons c rest ih =>
      cases k with
      | zero =>
          have hpos := length_encodeChar_pos c
          have hfirst : charOffset (c :: rest) 0 = 0 := rfl
          rw [hfirst, charsBefore, if_neg (Nat.not_le.2 hpos)]
      | succ k =>
          rw [charOffset_cons_succ, charsBefore, if_pos (Nat.le_add_right _ _),
            Nat.add_sub_cancel_left, ih (Nat.le_of_succ_le_succ hk)]

/-- The bytes of a character stand at its offset. -/
theorem bytes_of_char (hk : k < cs.length) :
    ((encodeChars cs).drop (charOffset cs k)).take (String.utf8EncodeChar cs[k]).length =
      String.utf8EncodeChar cs[k] := by
  have hsplit : encodeChars cs = encodeChars (cs.take k) ++ encodeChars (cs.drop k) := by
    rw [← encodeChars_append, List.take_append_drop]
  have hchar : encodeChars (cs.drop k) =
      String.utf8EncodeChar cs[k] ++ encodeChars (cs.drop (k + 1)) := by
    rw [List.drop_eq_getElem_cons hk]
    rfl
  rw [hsplit, charOffset, List.drop_left, hchar, List.take_left]

end Utf8

namespace Edit

open Utf8

variable {cs : List Char} {edits : List Edit} {e : Edit} {j k : Nat}

/-! ## Edits of characters -/

/-- The texts inserted before a character, in the order of the edits. -/
def charsInsertedAt (edits : List Edit) (k : Nat) : List Char :=
  (edits.filter fun e => e.isInsertion && e.start == (k : Int)).flatMap fun e =>
    e.replacement.toList

def charsReplacedAt (edits : List Edit) (k : Nat) : List Char :=
  match edits.find? fun e => !e.isInsertion && e.start == (k : Int) with
  | none => []
  | some e => e.replacement.toList

/-- The character at a position, if there is one and no edit replaces it. -/
def charKeptAt (cs : List Char) (edits : List Edit) (k : Nat) : List Char :=
  if edits.any (·.covers k) then [] else cs[k]?.toList

def charsAt (cs : List Char) (edits : List Edit) (k : Nat) : List Char :=
  charsInsertedAt edits k ++ charsReplacedAt edits k ++ charKeptAt cs edits k

/-- The characters that edits leave, where the edits are given in positions of characters: at each
position, the end included, first the insertions, then the replacement that starts there, then the
character itself unless it is replaced. -/
def editedChars (cs : List Char) (edits : List Edit) : List Char :=
  (List.range (cs.length + 1)).flatMap (charsAt cs edits)

def inCharacters (cs : List Char) (e : Edit) : Edit :=
  ⟨charsBefore cs e.start.toNat, charsBefore cs e.stop.toNat, e.replacement⟩

/-- An edit that begins and ends between characters. -/
structure Aligned (cs : List Char) (e : Edit) : Prop where
  start : ∃ a ≤ cs.length, e.start = charOffset cs a
  stop : ∃ b ≤ cs.length, e.stop = charOffset cs b

/-- In positions of characters, an aligned edit has the positions of its offsets. -/
theorem Aligned.inCharacters_eq (h : Aligned cs e) : ∃ a ≤ cs.length, ∃ b ≤ cs.length,
    e = ⟨charOffset cs a, charOffset cs b, e.replacement⟩ ∧
      inCharacters cs e = ⟨a, b, e.replacement⟩ := by
  obtain ⟨a, ha, hstart⟩ := h.start
  obtain ⟨b, hb, hstop⟩ := h.stop
  refine ⟨a, ha, b, hb, ?_, ?_⟩
  · rw [← hstart, ← hstop]
  · rw [inCharacters, hstart, hstop, Int.toNat_natCast, Int.toNat_natCast,
      charsBefore_charOffset ha, charsBefore_charOffset hb]

theorem Aligned.isInsertion_inCharacters (h : Aligned cs e) :
    (inCharacters cs e).isInsertion = e.isInsertion := by
  obtain ⟨a, ha, b, hb, he, hchars⟩ := h.inCharacters_eq
  rw [hchars, he, Bool.eq_iff_iff, isInsertion_iff, isInsertion_iff]
  simp only [Int.ofNat_inj, charOffset_inj ha hb]

theorem Aligned.start_inCharacters (h : Aligned cs e) (hk : k ≤ cs.length) :
    ((inCharacters cs e).start == (k : Int)) = (e.start == (charOffset cs k : Int)) := by
  obtain ⟨a, ha, b, hb, he, hchars⟩ := h.inCharacters_eq
  rw [hchars, he, Bool.eq_iff_iff, beq_iff_eq, beq_iff_eq]
  simp only [Int.ofNat_inj, charOffset_inj ha hk]

/-- No aligned edit starts inside a character. -/
theorem Aligned.start_ne (h : Aligned cs e) (hk : k < cs.length)
    (hj : j < (String.utf8EncodeChar cs[k]).length) (hpos : 0 < j) :
    e.start ≠ (charOffset cs k + j : Nat) := by
  obtain ⟨a, ha, hstart⟩ := h.start
  rw [hstart]
  intro heq
  have heq : charOffset cs a = charOffset cs k + j := Int.ofNat_inj.1 heq
  have hle := (charOffset_le_iff hk hj).1 (Nat.le_of_eq heq)
  have hback : charOffset cs a ≤ charOffset cs k := charOffset_mono hle
  omega

/-- An aligned edit replaces all bytes of a character or none. -/
theorem Aligned.covers_inCharacters (h : Aligned cs e) (hk : k < cs.length)
    (hj : j < (String.utf8EncodeChar cs[k]).length) :
    e.covers (charOffset cs k + j) = (inCharacters cs e).covers k := by
  have hkind := h.isInsertion_inCharacters
  obtain ⟨a, ha, b, hb, he, hchars⟩ := h.inCharacters_eq
  have hstart := charOffset_le_iff (a := a) hk hj
  have hstop := charOffset_le_iff (a := b) hk hj
  rw [Bool.eq_iff_iff, covers_iff, covers_iff, hkind]
  refine and_congr_right fun _ => ?_
  rw [hchars, he]
  dsimp only
  omega

/-- Aligned edits overlap on the bytes exactly if they do on the characters. -/
theorem Aligned.overlap_inCharacters {x y : Edit} (hx : Aligned cs x) (hy : Aligned cs y) :
    Overlap (inCharacters cs x) (inCharacters cs y) ↔ Overlap x y := by
  have hkindX := hx.isInsertion_inCharacters
  have hkindY := hy.isInsertion_inCharacters
  obtain ⟨a, ha, b, hb, hex, hcharsX⟩ := hx.inCharacters_eq
  obtain ⟨c, hc, d, hd, hey, hcharsY⟩ := hy.inCharacters_eq
  have hsame : inCharacters cs x = inCharacters cs y ↔ x = y := by
    rw [hcharsX, hcharsY, hex, hey]
    simp only [mk.injEq, Int.ofNat_inj, charOffset_inj ha hc, charOffset_inj hb hd]
  rw [Overlap, Overlap, hkindX, hkindY, ne_eq, ne_eq, hsame, hcharsX, hcharsY, hex, hey]
  simp only [Int.ofNat_lt, charOffset_lt_iff, ha, hb, hc, hd]

/-! ## The bytes of a character -/

theorem encodeChars_flatMap {α : Type} (xs : List α) (f : α → List Char) :
    encodeChars (xs.flatMap f) = xs.flatMap fun x => encodeChars (f x) := by
  rw [encodeChars, List.flatMap_assoc]
  rfl

/-- What is inserted at the offset of a character is inserted before the character. -/
theorem insertedAt_charOffset (h : ∀ e ∈ edits, e.Aligned cs) (hk : k ≤ cs.length) :
    insertedAt edits (charOffset cs k) =
      encodeChars (charsInsertedAt (edits.map (inCharacters cs)) k) := by
  have hfilter : edits.filter (fun e => e.isInsertion && e.start == (charOffset cs k : Int)) =
      edits.filter fun e =>
        (inCharacters cs e).isInsertion && (inCharacters cs e).start == (k : Int) := by
    refine List.filter_congr fun e he => ?_
    rw [(h e he).isInsertion_inCharacters, (h e he).start_inCharacters hk]
  rw [insertedAt, hfilter, charsInsertedAt, List.filter_map, List.flatMap_map,
    encodeChars_flatMap]
  rfl

/-- What replaces bytes from the offset of a character on replaces characters from this one on. -/
theorem replacedAt_charOffset (h : ∀ e ∈ edits, e.Aligned cs) (hk : k ≤ cs.length) :
    replacedAt edits (charOffset cs k) =
      encodeChars (charsReplacedAt (edits.map (inCharacters cs)) k) := by
  have hfind : edits.find? (fun e => !e.isInsertion && e.start == (charOffset cs k : Int)) =
      edits.find? ((fun e => !e.isInsertion && e.start == (k : Int)) ∘ inCharacters cs) := by
    refine List.find?_congr fun e he => ?_
    rw [Function.comp_apply, (h e he).isInsertion_inCharacters, (h e he).start_inCharacters hk]
  rw [replacedAt, hfind, charsReplacedAt, List.find?_map]
  cases edits.find? ((fun e => !e.isInsertion && e.start == (k : Int)) ∘ inCharacters cs) with
  | none => rfl
  | some e => rfl

/-- All bytes of a character are kept, or none. -/
theorem keptAt_char (h : ∀ e ∈ edits, e.Aligned cs) (hk : k < cs.length) :
    (List.range' (charOffset cs k) (String.utf8EncodeChar cs[k]).length).flatMap
      (keptAt (encodeChars cs) edits) =
        encodeChars (charKeptAt cs (edits.map (inCharacters cs)) k) := by
  have hcovers : ∀ i ∈ List.range' (charOffset cs k) (String.utf8EncodeChar cs[k]).length,
      edits.any (·.covers i) = (edits.map (inCharacters cs)).any (·.covers k) := by
    intro i hi
    obtain ⟨hle, hlt⟩ := List.mem_range'_1.1 hi
    obtain ⟨j, rfl⟩ := Nat.exists_eq_add_of_le hle
    have hj : j < (String.utf8EncodeChar cs[k]).length := by omega
    rw [List.any_map, Bool.eq_iff_iff, List.any_eq_true, List.any_eq_true]
    refine exists_congr fun e => and_congr_right fun he => ?_
    rw [(h e he).covers_inCharacters hk hj, Function.comp_apply]
  have hkept : ∀ i ∈ List.range' (charOffset cs k) (String.utf8EncodeChar cs[k]).length,
      keptAt (encodeChars cs) edits i =
        if (edits.map (inCharacters cs)).any (·.covers k) then []
        else (encodeChars cs)[i]?.toList := by
    intro i hi
    rw [keptAt, hcovers i hi]
  rw [List.flatMap_congr hkept, charKeptAt]
  cases (edits.map (inCharacters cs)).any (·.covers k) with
  | true => exact List.flatMap_eq_nil_iff.2 fun _ _ => rfl
  | false =>
      simp only [Bool.false_eq_true, if_false]
      rw [flatMap_bytes, bytes_of_char hk, List.getElem?_eq_getElem hk, Option.toList_some,
        encodeChars, List.flatMap_singleton]

/-- Inside a character nothing is inserted and no replacement starts. -/
theorem emittedAt_inside (h : ∀ e ∈ edits, e.Aligned cs) (hk : k < cs.length)
    (hj : j < (String.utf8EncodeChar cs[k]).length) (hpos : 0 < j) :
    emittedAt (encodeChars cs) edits (charOffset cs k + j) =
      keptAt (encodeChars cs) edits (charOffset cs k + j) := by
  have hne : ∀ e ∈ edits, e.start ≠ (charOffset cs k + j : Nat) :=
    fun e he => (h e he).start_ne hk hj hpos
  rw [emittedAt, insertedAt_eq_nil fun e he _ => hne e he,
    replacedAt_eq_nil fun e he _ => hne e he]
  rfl

/-- The bytes of a character contribute what the character does. -/
theorem emittedAt_char (h : ∀ e ∈ edits, e.Aligned cs) (hk : k < cs.length) :
    (List.range' (charOffset cs k) (String.utf8EncodeChar cs[k]).length).flatMap
      (emittedAt (encodeChars cs) edits) =
        encodeChars (charsAt cs (edits.map (inCharacters cs)) k) := by
  have hkept := keptAt_char h hk
  obtain ⟨more, hmore⟩ : ∃ more, (String.utf8EncodeChar cs[k]).length = more + 1 :=
    Nat.exists_eq_add_one.2 (length_encodeChar_pos cs[k])
  have hinside : ∀ i ∈ List.range' (charOffset cs k + 1) more,
      emittedAt (encodeChars cs) edits i = keptAt (encodeChars cs) edits i := by
    intro i hi
    obtain ⟨hle, hlt⟩ := List.mem_range'_1.1 hi
    obtain ⟨j, rfl⟩ := Nat.exists_eq_add_of_le (Nat.le_of_succ_le hle)
    exact emittedAt_inside h hk (by omega) (by omega)
  rw [hmore, List.range'_succ, List.flatMap_cons] at hkept ⊢
  rw [List.flatMap_congr hinside, emittedAt, List.append_assoc, hkept, charsAt, encodeChars_append,
    encodeChars_append, insertedAt_charOffset h hk.le, replacedAt_charOffset h hk.le]

/-- The end of the bytes contributes what the end of the characters does. -/
theorem emittedAt_end (h : ∀ e ∈ edits, e.Aligned cs) :
    emittedAt (encodeChars cs) edits (charOffset cs cs.length) =
      encodeChars (charsAt cs (edits.map (inCharacters cs)) cs.length) := by
  have hbytes : keptAt (encodeChars cs) edits (charOffset cs cs.length) = [] := by
    simp [keptAt, charOffset]
  have hchars : charKeptAt cs (edits.map (inCharacters cs)) cs.length = [] := by
    simp [charKeptAt]
  rw [emittedAt, hbytes, charsAt, hchars, insertedAt_charOffset h (Nat.le_refl _),
    replacedAt_charOffset h (Nat.le_refl _), List.append_nil, List.append_nil, encodeChars_append]

/-- The bytes that aligned edits leave are those of the characters that they leave. -/
theorem positional_encodeChars (h : ∀ e ∈ edits, e.Aligned cs) :
    positional (encodeChars cs) edits =
      encodeChars (editedChars cs (edits.map (inCharacters cs))) := by
  have hsize : (encodeChars cs).length = charOffset cs cs.length := by
    rw [charOffset, List.take_length]
  have hchars : ∀ k ≤ cs.length, (List.range (charOffset cs k)).flatMap
      (emittedAt (encodeChars cs) edits) =
        (List.range k).flatMap fun k =>
          encodeChars (charsAt cs (edits.map (inCharacters cs)) k) := by
    intro k hk
    induction k with
    | zero => rfl
    | succ k ih =>
        rw [charOffset_succ hk, List.range_add, List.flatMap_append, ih (Nat.le_of_succ_le hk),
          ← List.range'_eq_map_range, emittedAt_char h hk, List.range_succ, List.flatMap_append,
          List.flatMap_singleton]
  rw [positional, hsize, List.range_succ, List.flatMap_append, hchars _ (Nat.le_refl _),
    List.flatMap_singleton, emittedAt_end h, editedChars, encodeChars_flatMap, List.range_succ,
    List.flatMap_append, List.flatMap_singleton]

end Edit

namespace EditScript

open Utf8 Edit

/-- An accepted script whose edits all begin and end between characters is applied, and leaves the
text that the same edits leave on the characters: each has its positions there, and as on the bytes
no two of them overlap. -/
theorem apply_between (s : EditScript) (ordered : List Edit) (h : s.check = .ok ordered)
    (hbetween : ∀ e ∈ s.edits, Between s.source e.start.toNat ∧ Between s.source e.stop.toNat) :
    s.apply = .ok (String.ofList
      (editedChars s.source.toList (s.edits.map (inCharacters s.source.toList)))) ∧
    (∀ e ∈ s.edits, ∃ a ≤ s.source.toList.length, ∃ b ≤ s.source.toList.length,
      e = ⟨charOffset s.source.toList a, charOffset s.source.toList b, e.replacement⟩ ∧
        inCharacters s.source.toList e = ⟨a, b, e.replacement⟩) ∧
    ∀ x ∈ s.edits, ∀ y ∈ s.edits,
      ¬Overlap (inCharacters s.source.toList x) (inCharacters s.source.toList y) := by
  obtain ⟨arranged, harranged, -⟩ := check_eq_ok_iff.1 h
  have hfit : Fit s.source s.edits := exists_arranged_iff.1 ⟨arranged, harranged⟩
  have haligned : ∀ e ∈ s.edits, Aligned s.source.toList e := by
    intro e he
    obtain ⟨hnonneg, hforward, -⟩ := not_misplaced_iff.1 (hfit.1 e he)
    obtain ⟨hstart, hstop⟩ := hbetween e he
    obtain ⟨a, ha, hoffsetA⟩ := between_iff_take.1 hstart
    obtain ⟨b, hb, hoffsetB⟩ := between_iff_take.1 hstop
    constructor
    · exact ⟨a, ha, by rw [charOffset, hoffsetA, Int.toNat_of_nonneg hnonneg]⟩
    · exact ⟨b, hb, by rw [charOffset, hoffsetB, Int.toNat_of_nonneg (hnonneg.trans hforward)]⟩
  refine ⟨?_, ?_, ?_⟩
  · have hbytes : positional (Utf8.encode s.source) (s.pending.map (·.edit)) =
        encodeChars (editedChars s.source.toList (s.edits.map (inCharacters s.source.toList))) :=
      positional_encodeChars haligned
    rw [apply_of_arranged harranged, hbytes, decode_encodeChars]
    rfl
  · intro e he
    exact (haligned e he).inCharacters_eq
  · intro x hx y hy
    rw [(haligned x hx).overlap_inCharacters (haligned y hy)]
    exact hfit.2 x hx y hy

/-- A replaced character of three bytes, added twice, between insertions. -/
def accented : EditScript where
  source := "é€x"
  pending := [⟨⟨2, 5, "ß"⟩, some "first"⟩, ⟨⟨2, 2, "ñ"⟩, none⟩, ⟨⟨2, 5, "ß"⟩, some "second"⟩,
    ⟨⟨6, 6, "!"⟩, none⟩]

theorem apply_accented :
    (∃ ordered, accented.check = .ok ordered) ∧
      (∀ e ∈ accented.edits, Between accented.source e.start.toNat ∧
        Between accented.source e.stop.toNat) ∧
      accented.apply = .ok "éñßx!" := by
  have hfit : Fit accented.source accented.edits := by decide +kernel
  have hbetween : ∀ e ∈ accented.edits, Between accented.source e.start.toNat ∧
      Between accented.source e.stop.toNat := by decide +kernel
  obtain ⟨arranged, harranged⟩ := exists_arranged_iff.2 hfit
  have hcheck : accented.check = .ok (arranged.map (·.edit)) :=
    check_eq_ok_iff.2 ⟨arranged, harranged, rfl⟩
  have hread : String.ofList (editedChars accented.source.toList
      (accented.edits.map (inCharacters accented.source.toList))) = "éñßx!" := by
    decide +kernel
  refine ⟨⟨_, hcheck⟩, hbetween, ?_⟩
  rw [(apply_between accented _ hcheck hbetween).1, hread]

end EditScript

end RubyLint
