import RubyLint.Proofs.Steps
import RubyLint.Text.Utf8

/-!
# Reading bytes as text

Strict decoding undoes encoding: a text that comes out of it has exactly the bytes that went in, and
the bytes of a text are decoded to this text.  A byte sequence never has more pieces than bytes, so
lenient decoding does not lengthen it.
-/

namespace RubyLint.Utf8

variable {p : Partial} {bytes rest : List UInt8} {cs : List Char} {offset : Nat}

/-! ## Bytes of one character -/

theorem toNat_ofNat {n : Nat} (h : n.isValidChar) : (Char.ofNat n).val.toNat = n := by
  rw [Char.ofNat, dif_pos h]
  rfl

theorem toNat_ite (b k x y : UInt8) :
    (if b = k then x else y).toNat = if b.toNat = k.toNat then x.toNat else y.toNat := by
  simp only [← UInt8.toNat_inj]
  split <;> rfl

theorem encodeChar_one {b : UInt8} (h : b < 0x80) :
    String.utf8EncodeChar (Char.ofNat b.toNat) = [b] := by
  have hb : b.toNat < 128 := h
  have hvalid : b.toNat.isValidChar := .inl (by omega)
  simp [String.utf8EncodeChar, toNat_ofNat hvalid, show b.toNat ≤ 127 by omega]

theorem encodeChar_two {b c : UInt8} (hb : 0xC2 ≤ b.toNat) (hb' : b.toNat < 0xE0)
    (hc : 0x80 ≤ c.toNat) (hc' : c.toNat ≤ 0xBF) :
    String.utf8EncodeChar (Char.ofNat (b.toNat % 32 * 64 + c.toNat % 64)) = [b, c] := by
  have hvalid : (b.toNat % 32 * 64 + c.toNat % 64).isValidChar := .inl (by omega)
  rw [String.utf8EncodeChar, toNat_ofNat hvalid]
  rw [if_neg (by omega), if_pos (by omega)]
  have hfirst : (b.toNat % 32 * 64 + c.toNat % 64) / 64 % 0x20 + 0xc0 = b.toNat := by omega
  have hsecond : (b.toNat % 32 * 64 + c.toNat % 64) % 0x40 + 0x80 = c.toNat := by omega
  rw [hfirst, hsecond, UInt8.ofNat_toNat, UInt8.ofNat_toNat]

theorem encodeChar_three {b c d : UInt8} (hb : 0xE0 ≤ b.toNat) (hb' : b.toNat < 0xF0)
    (hc : (if b = 0xE0 then 0xA0 else 0x80 : UInt8).toNat ≤ c.toNat)
    (hc' : c.toNat ≤ (if b = 0xED then 0x9F else 0xBF : UInt8).toNat)
    (hd : 0x80 ≤ d.toNat) (hd' : d.toNat ≤ 0xBF) :
    String.utf8EncodeChar
      (Char.ofNat ((b.toNat % 16 * 64 + c.toNat % 64) * 64 + d.toNat % 64)) = [b, c, d] := by
  have hlow : (if b = 0xE0 then 0xA0 else 0x80 : UInt8).toNat =
      if b.toNat = 0xE0 then 0xA0 else 0x80 := toNat_ite b 0xE0 0xA0 0x80
  have hhigh : (if b = 0xED then 0x9F else 0xBF : UInt8).toNat =
      if b.toNat = 0xED then 0x9F else 0xBF := toNat_ite b 0xED 0x9F 0xBF
  rw [hlow] at hc
  rw [hhigh] at hc'
  -- The bounds of the second byte keep the number out of the surrogates.
  have hvalid : ((b.toNat % 16 * 64 + c.toNat % 64) * 64 + d.toNat % 64).isValidChar := by
    simp only [Nat.isValidChar]
    split at hc <;> split at hc' <;> omega
  rw [String.utf8EncodeChar, toNat_ofNat hvalid]
  rw [if_neg (by split at hc <;> split at hc' <;> omega),
    if_neg (by split at hc <;> split at hc' <;> omega), if_pos (by omega)]
  have hfirst : ((b.toNat % 16 * 64 + c.toNat % 64) * 64 + d.toNat % 64) / 4096 % 0x10 + 0xe0 =
      b.toNat := by omega
  have hsecond : ((b.toNat % 16 * 64 + c.toNat % 64) * 64 + d.toNat % 64) / 64 % 0x40 + 0x80 =
      c.toNat := by split at hc <;> split at hc' <;> omega
  have hthird : ((b.toNat % 16 * 64 + c.toNat % 64) * 64 + d.toNat % 64) % 0x40 + 0x80 =
      d.toNat := by omega
  rw [hfirst, hsecond, hthird]
  simp

theorem encodeChar_four {b c d e : UInt8} (hb : 0xF0 ≤ b.toNat) (hb' : b.toNat < 0xF5)
    (hc : (if b = 0xF0 then 0x90 else 0x80 : UInt8).toNat ≤ c.toNat)
    (hc' : c.toNat ≤ (if b = 0xF4 then 0x8F else 0xBF : UInt8).toNat)
    (hd : 0x80 ≤ d.toNat) (hd' : d.toNat ≤ 0xBF) (he : 0x80 ≤ e.toNat) (he' : e.toNat ≤ 0xBF) :
    String.utf8EncodeChar (Char.ofNat
      (((b.toNat % 8 * 64 + c.toNat % 64) * 64 + d.toNat % 64) * 64 + e.toNat % 64)) =
        [b, c, d, e] := by
  have hlow : (if b = 0xF0 then 0x90 else 0x80 : UInt8).toNat =
      if b.toNat = 0xF0 then 0x90 else 0x80 := toNat_ite b 0xF0 0x90 0x80
  have hhigh : (if b = 0xF4 then 0x8F else 0xBF : UInt8).toNat =
      if b.toNat = 0xF4 then 0x8F else 0xBF := toNat_ite b 0xF4 0x8F 0xBF
  rw [hlow] at hc
  rw [hhigh] at hc'
  generalize hn : ((b.toNat % 8 * 64 + c.toNat % 64) * 64 + d.toNat % 64) * 64 + e.toNat % 64 = n
  have hbounds : 0xFFFF < n ∧ n < 0x110000 := by
    split at hc <;> split at hc' <;> omega
  have hvalid : n.isValidChar := .inr (by omega)
  rw [String.utf8EncodeChar, toNat_ofNat hvalid]
  rw [if_neg (by omega), if_neg (by omega), if_neg (by omega)]
  have hfirst : n / 262144 % 0x08 + 0xf0 = b.toNat := by omega
  have hsecond : n / 4096 % 0x40 + 0x80 = c.toNat := by
    split at hc <;> split at hc' <;> omega
  have hthird : n / 64 % 0x40 + 0x80 = d.toNat := by omega
  have hfourth : n % 0x40 + 0x80 = e.toNat := by omega
  rw [hfirst, hsecond, hthird, hfourth]
  simp

/-! ## Strict decoding -/

/-- A character under way that lacks one byte is completed by the next one. -/
theorem collect_last (hmissing : p.missing = 1)
    (h : collect offset (piecesFrom (some p) bytes) = .ok cs) :
    ∃ b rest later offset', bytes = b :: rest ∧ p.low ≤ b ∧ b ≤ p.high ∧
      cs = Char.ofNat (p.bits * 64 + b.toNat % 64) :: later ∧
      collect offset' (piecesFrom none rest) = .ok later := by
  cases bytes with
  | nil => simp [piecesFrom, collect] at h
  | cons b rest =>
      rw [piecesFrom] at h
      by_cases hbounds : p.low ≤ b ∧ b ≤ p.high
      · simp only [step, hbounds, and_self, if_true, hmissing, List.singleton_append, collect] at h
        obtain ⟨later, hlater, rfl⟩ := map_eq_ok h
        exact ⟨b, rest, later, _, rfl, hbounds.1, hbounds.2, rfl, hlater⟩
      · simp [step, hbounds, collect] at h

/-- A character under way that lacks several bytes takes the next one. -/
theorem collect_more (hmissing : p.missing ≠ 1)
    (h : collect offset (piecesFrom (some p) bytes) = .ok cs) :
    ∃ b rest, bytes = b :: rest ∧ p.low ≤ b ∧ b ≤ p.high ∧
      collect offset (piecesFrom
        (some ⟨p.bits * 64 + b.toNat % 64, p.seen + 1, p.missing - 1, 0x80, 0xBF⟩) rest) =
          .ok cs := by
  cases bytes with
  | nil => simp [piecesFrom, collect] at h
  | cons b rest =>
      rw [piecesFrom] at h
      by_cases hbounds : p.low ≤ b ∧ b ≤ p.high
      · simp only [step, hbounds, and_self, if_true, hmissing, if_false, List.nil_append] at h
        exact ⟨b, rest, rfl, hbounds.1, hbounds.2, h⟩
      · simp [step, hbounds, collect] at h

/-- What is read first without a replacement is a character, and its bytes stand in front. -/
theorem exists_char_of_collect {b : UInt8}
    (h : collect offset (piecesFrom none (b :: rest)) = .ok cs) :
    ∃ c bytes later offset', b :: rest = String.utf8EncodeChar c ++ bytes ∧ cs = c :: later ∧
      collect offset' (piecesFrom none bytes) = .ok later := by
  rw [piecesFrom, step, start] at h
  -- The ranges of the first byte, one after the other, as `start` tells them apart.
  split at h
  next hone =>
    obtain ⟨later, hlater, rfl⟩ := map_eq_ok h
    exact ⟨_, _, _, _, by rw [encodeChar_one hone, List.singleton_append], rfl, hlater⟩
  split at h
  next => simp [collect] at h
  next hlow =>
  have hlow : 0xC2 ≤ b.toNat := Nat.le_of_not_lt hlow
  split at h
  next htwo =>
    obtain ⟨c, rest, later, offset', rfl, hc, hc', rfl, hlater⟩ := collect_last rfl h
    exact ⟨_, rest, _, _, by rw [encodeChar_two hlow htwo hc hc']; rfl, rfl, hlater⟩
  next hlow =>
  have hlow : 0xE0 ≤ b.toNat := Nat.le_of_not_lt hlow
  split at h
  next hthree =>
    obtain ⟨c, rest, rfl, hc, hc', h⟩ := collect_more (by simp) h
    obtain ⟨d, rest, later, offset', rfl, hd, hd', rfl, hlater⟩ := collect_last rfl h
    exact ⟨_, rest, _, _, by rw [encodeChar_three hlow hthree hc hc' hd hd']; rfl, rfl, hlater⟩
  next hlow =>
  have hlow : 0xF0 ≤ b.toNat := Nat.le_of_not_lt hlow
  split at h
  next hfour =>
    obtain ⟨c, rest, rfl, hc, hc', h⟩ := collect_more (by simp) h
    obtain ⟨d, rest, rfl, hd, hd', h⟩ := collect_more (by simp) h
    obtain ⟨e, rest, later, offset', rfl, he, he', rfl, hlater⟩ := collect_last rfl h
    exact ⟨_, rest, _, _, by rw [encodeChar_four hlow hfour hc hc' hd hd' he he']; rfl, rfl,
      hlater⟩
  next => simp [collect] at h

theorem encodeChars_of_collect (h : collect offset (piecesFrom none bytes) = .ok cs) :
    encodeChars cs = bytes := by
  induction hlength : bytes.length using Nat.strongRecOn generalizing bytes cs offset with
  | ind length ih =>
      cases bytes with
      | nil =>
          obtain rfl := Except.ok.inj h
          rfl
      | cons b rest =>
          obtain ⟨c, bytes, later, offset', hbytes, rfl, hlater⟩ := exists_char_of_collect h
          have hshorter : bytes.length < length := by
            rw [← hlength, hbytes, List.length_append, String.length_utf8EncodeChar]
            exact Nat.lt_add_of_pos_left c.utf8Size_pos
          rw [encodeChars, List.flatMap_cons, hbytes, ← encodeChars, ih _ hshorter hlater rfl]

/-- A text that was decoded from bytes has exactly these bytes. -/
theorem encode_of_decode {text : String} (h : decode bytes = .ok text) : encode text = bytes := by
  rw [decode] at h
  split at h
  next cs hcs =>
    obtain rfl := Except.ok.inj h
    rw [encode, String.toList_ofList]
    exact encodeChars_of_collect hcs
  next => simp at h

/-! ## Decoding an encoded text -/

/-- A number that a byte can hold, as a byte. -/
theorem exists_byte {n : Nat} (h : n < 256) : ∃ b : UInt8, UInt8.ofNat n = b ∧ b.toNat = n :=
  ⟨_, rfl, UInt8.toNat_ofNat_of_lt' h⟩

/-- The last six bits of a number make a byte that continues a character. -/
theorem continuation_bounds {b : UInt8} {n : Nat} (h : b.toNat = n % 0x40 + 0x80) :
    0x80 ≤ b ∧ b ≤ 0xBF := by
  have hlow : 0x80 ≤ b.toNat := by omega
  have hhigh : b.toNat ≤ 0xBF := by omega
  exact ⟨hlow, hhigh⟩

theorem piecesFrom_last {bits seen : Nat} {low high b : UInt8} (hlow : low ≤ b)
    (hhigh : b ≤ high) (rest : List UInt8) :
    piecesFrom (some ⟨bits, seen, 1, low, high⟩) (b :: rest) =
      .char (Char.ofNat (bits * 64 + b.toNat % 64)) :: piecesFrom none rest := by
  rw [piecesFrom, step, if_pos ⟨hlow, hhigh⟩]
  rfl

theorem piecesFrom_more {bits seen missing : Nat} {low high b : UInt8}
    (hlow : low ≤ b) (hhigh : b ≤ high) (rest : List UInt8) :
    piecesFrom (some ⟨bits, seen, missing + 2, low, high⟩) (b :: rest) =
      piecesFrom (some ⟨bits * 64 + b.toNat % 64, seen + 1, missing + 1, 0x80, 0xBF⟩) rest := by
  rw [piecesFrom, step, if_pos ⟨hlow, hhigh⟩]
  simp

theorem piecesFrom_two {b : UInt8} (hlow : 0xC2 ≤ b.toNat) (hhigh : b.toNat < 0xE0)
    (rest : List UInt8) : piecesFrom none (b :: rest) =
      piecesFrom (some ⟨b.toNat % 32, 1, 1, 0x80, 0xBF⟩) rest := by
  have hone : ¬b < 0x80 := Nat.not_lt.2 (Nat.le_trans (by decide) hlow)
  have hstray : ¬b < 0xC2 := Nat.not_lt.2 hlow
  have htwo : b < 0xE0 := hhigh
  rw [piecesFrom, step, start, if_neg hone, if_neg hstray, if_pos htwo, List.nil_append]

theorem piecesFrom_three {b : UInt8} (hlow : 0xE0 ≤ b.toNat) (hhigh : b.toNat < 0xF0)
    (rest : List UInt8) : piecesFrom none (b :: rest) =
      piecesFrom (some ⟨b.toNat % 16, 1, 2, if b = 0xE0 then 0xA0 else 0x80,
        if b = 0xED then 0x9F else 0xBF⟩) rest := by
  have hone : ¬b < 0x80 := Nat.not_lt.2 (Nat.le_trans (by decide) hlow)
  have hstray : ¬b < 0xC2 := Nat.not_lt.2 (Nat.le_trans (by decide) hlow)
  have htwo : ¬b < 0xE0 := Nat.not_lt.2 hlow
  have hthree : b < 0xF0 := hhigh
  rw [piecesFrom, step, start, if_neg hone, if_neg hstray, if_neg htwo, if_pos hthree,
    List.nil_append]

theorem piecesFrom_four {b : UInt8} (hlow : 0xF0 ≤ b.toNat) (hhigh : b.toNat < 0xF5)
    (rest : List UInt8) : piecesFrom none (b :: rest) =
      piecesFrom (some ⟨b.toNat % 8, 1, 3, if b = 0xF0 then 0x90 else 0x80,
        if b = 0xF4 then 0x8F else 0xBF⟩) rest := by
  have hone : ¬b < 0x80 := Nat.not_lt.2 (Nat.le_trans (by decide) hlow)
  have hstray : ¬b < 0xC2 := Nat.not_lt.2 (Nat.le_trans (by decide) hlow)
  have htwo : ¬b < 0xE0 := Nat.not_lt.2 (Nat.le_trans (by decide) hlow)
  have hthree : ¬b < 0xF0 := Nat.not_lt.2 hlow
  have hfour : b < 0xF5 := hhigh
  rw [piecesFrom, step, start, if_neg hone, if_neg hstray, if_neg htwo, if_neg hthree,
    if_pos hfour, List.nil_append]

/-! A number is read back from the bytes that encode it, however many they are. -/

theorem piecesFrom_encode_one {n : Nat} (hn : n ≤ 0x7F) (rest : List UInt8) :
    piecesFrom none (UInt8.ofNat n :: rest) = .char (Char.ofNat n) :: piecesFrom none rest := by
  obtain ⟨b, hb, hb'⟩ := exists_byte (n := n) (by omega)
  have hlt : b < 0x80 := by
    rw [UInt8.lt_iff_toNat_lt, hb']
    exact Nat.lt_succ_of_le hn
  rw [hb, piecesFrom, step, start, if_pos hlt, hb']
  rfl

theorem piecesFrom_encode_two {n : Nat} (hlow : 0x7F < n) (hhigh : n ≤ 0x7FF)
    (rest : List UInt8) :
    piecesFrom none (UInt8.ofNat (n / 64 % 0x20 + 0xc0) :: UInt8.ofNat (n % 0x40 + 0x80) :: rest) =
      .char (Char.ofNat n) :: piecesFrom none rest := by
  obtain ⟨b, hb, hb'⟩ := exists_byte (n := n / 64 % 0x20 + 0xc0) (by omega)
  obtain ⟨c, hc, hc'⟩ := exists_byte (n := n % 0x40 + 0x80) (by omega)
  have hn : b.toNat % 32 * 64 + c.toNat % 64 = n := by omega
  rw [hb, hc, piecesFrom_two (by omega) (by omega),
    piecesFrom_last (continuation_bounds hc').1 (continuation_bounds hc').2, hn]

/-- The bounds of the second byte hold because the number is neither shorter nor a surrogate. -/
theorem piecesFrom_encode_three {n : Nat} (hlow : 0x7FF < n) (hhigh : n ≤ 0xFFFF)
    (hvalid : n < 0xD800 ∨ 0xDFFF < n) (rest : List UInt8) :
    piecesFrom none (UInt8.ofNat (n / 4096 % 0x10 + 0xe0) :: UInt8.ofNat (n / 64 % 0x40 + 0x80) ::
      UInt8.ofNat (n % 0x40 + 0x80) :: rest) = .char (Char.ofNat n) :: piecesFrom none rest := by
  obtain ⟨b, hb, hb'⟩ := exists_byte (n := n / 4096 % 0x10 + 0xe0) (by omega)
  obtain ⟨c, hc, hc'⟩ := exists_byte (n := n / 64 % 0x40 + 0x80) (by omega)
  obtain ⟨d, hd, hd'⟩ := exists_byte (n := n % 0x40 + 0x80) (by omega)
  have hn : (b.toNat % 16 * 64 + c.toNat % 64) * 64 + d.toNat % 64 = n := by omega
  have hleast : (if b = 0xE0 then 0xA0 else 0x80 : UInt8) ≤ c := by
    rw [UInt8.le_iff_toNat_le, toNat_ite]
    split <;> simp at * <;> omega
  have hmost : c ≤ (if b = 0xED then 0x9F else 0xBF : UInt8) := by
    rw [UInt8.le_iff_toNat_le, toNat_ite]
    split <;> simp at * <;> omega
  rw [hb, hc, hd, piecesFrom_three (by omega) (by omega), piecesFrom_more hleast hmost,
    piecesFrom_last (continuation_bounds hd').1 (continuation_bounds hd').2, hn]

theorem piecesFrom_encode_four {n : Nat} (hlow : 0xFFFF < n) (hhigh : n < 0x110000)
    (rest : List UInt8) :
    piecesFrom none (UInt8.ofNat (n / 262144 % 0x08 + 0xf0) ::
      UInt8.ofNat (n / 4096 % 0x40 + 0x80) :: UInt8.ofNat (n / 64 % 0x40 + 0x80) ::
        UInt8.ofNat (n % 0x40 + 0x80) :: rest) = .char (Char.ofNat n) :: piecesFrom none rest := by
  obtain ⟨b, hb, hb'⟩ := exists_byte (n := n / 262144 % 0x08 + 0xf0) (by omega)
  obtain ⟨c, hc, hc'⟩ := exists_byte (n := n / 4096 % 0x40 + 0x80) (by omega)
  obtain ⟨d, hd, hd'⟩ := exists_byte (n := n / 64 % 0x40 + 0x80) (by omega)
  obtain ⟨e, he, he'⟩ := exists_byte (n := n % 0x40 + 0x80) (by omega)
  have hn : ((b.toNat % 8 * 64 + c.toNat % 64) * 64 + d.toNat % 64) * 64 + e.toNat % 64 = n := by
    omega
  have hleast : (if b = 0xF0 then 0x90 else 0x80 : UInt8) ≤ c := by
    rw [UInt8.le_iff_toNat_le, toNat_ite]
    split <;> simp at * <;> omega
  have hmost : c ≤ (if b = 0xF4 then 0x8F else 0xBF : UInt8) := by
    rw [UInt8.le_iff_toNat_le, toNat_ite]
    split <;> simp at * <;> omega
  rw [hb, hc, hd, he, piecesFrom_four (by omega) (by omega), piecesFrom_more hleast hmost,
    piecesFrom_more (continuation_bounds hd').1 (continuation_bounds hd').2,
    piecesFrom_last (continuation_bounds he').1 (continuation_bounds he').2, hn]

/-- The bytes of a character are read as this character. -/
theorem piecesFrom_encodeChar (c : Char) (rest : List UInt8) :
    piecesFrom none (String.utf8EncodeChar c ++ rest) = .char c :: piecesFrom none rest := by
  have hvalid : c.val.toNat < 0xD800 ∨ 0xDFFF < c.val.toNat ∧ c.val.toNat < 0x110000 := c.valid
  have hchar : Char.ofNat c.val.toNat = c := Char.ofNat_toNat c
  rw [String.utf8EncodeChar]
  generalize c.val.toNat = n at *
  -- The numbers of bytes that a character may have, as the encoding tells them apart.
  split
  next hone => exact hchar ▸ piecesFrom_encode_one hone rest
  split
  next hone htwo => exact hchar ▸ piecesFrom_encode_two (by omega) htwo rest
  split
  next hone htwo hthree =>
    exact hchar ▸ piecesFrom_encode_three (by omega) hthree (by omega) rest
  next hone htwo hthree => exact hchar ▸ piecesFrom_encode_four (by omega) (by omega) rest

theorem pieces_encodeChars (cs : List Char) : pieces (encodeChars cs) = cs.map .char := by
  induction cs with
  | nil => rfl
  | cons c rest ih =>
      rw [encodeChars, List.flatMap_cons, pieces, piecesFrom_encodeChar, ← encodeChars,
        ← pieces, ih, List.map_cons]

theorem collect_map_char (cs : List Char) (offset : Nat) :
    collect offset (cs.map .char) = .ok cs := by
  induction cs generalizing offset with
  | nil => rfl
  | cons c rest ih =>
      rw [List.map_cons, collect, ih]
      rfl

/-- The bytes of some characters are decoded to the text of these characters. -/
theorem decode_encodeChars (cs : List Char) : decode (encodeChars cs) = .ok (String.ofList cs) := by
  rw [decode, pieces_encodeChars, collect_map_char]

/-- The bytes of a text are decoded to this text. -/
theorem decode_encode (text : String) : decode (encode text) = .ok text := by
  rw [encode, decode_encodeChars, String.ofList_toList]

/-- Texts with the same bytes are the same. -/
theorem eq_of_encode_eq {text text' : String} (h : encode text = encode text') : text = text' := by
  have hdecode := decode_encode text
  rw [h, decode_encode] at hdecode
  exact (Except.ok.inj hdecode).symm

/-! ## Offsets between characters -/

/-- An offset of a text at which no character is cut. -/
def Between (text : String) (offset : Nat) : Prop :=
  ∃ before after, text.toList = before ++ after ∧ (encodeChars before).length = offset

theorem between_iff_take {text : String} {offset : Nat} : Between text offset ↔
    ∃ n ≤ text.toList.length, (encodeChars (text.toList.take n)).length = offset := by
  constructor
  · rintro ⟨before, after, htext, hlength⟩
    refine ⟨before.length, ?_, ?_⟩
    · rw [htext, List.length_append]
      exact Nat.le_add_right _ _
    · rw [htext, List.take_left, hlength]
  · rintro ⟨n, -, hlength⟩
    exact ⟨_, _, (List.take_append_drop n text.toList).symm, hlength⟩

instance (text : String) (offset : Nat) : Decidable (Between text offset) :=
  decidable_of_iff _ between_iff_take.symm

theorem encodeChars_append (cs later : List Char) :
    encodeChars (cs ++ later) = encodeChars cs ++ encodeChars later :=
  List.flatMap_append

theorem encode_drop {text : String} {before after : List Char}
    (htext : text.toList = before ++ after) :
    (encode text).drop (encodeChars before).length = encodeChars after := by
  rw [encode, htext, encodeChars_append, List.drop_left]

/-- The bytes from an offset between characters on are those of some characters. -/
theorem Between.exists_drop {text : String} {i : Nat} (h : Between text i) :
    ∃ cs, (encode text).drop i = encodeChars cs := by
  obtain ⟨before, after, htext, rfl⟩ := h
  exact ⟨after, encode_drop htext⟩

/-- The bytes from one offset between characters to another one are those of some characters. -/
theorem Between.exists_take {text : String} {i j : Nat} (hi : Between text i)
    (hj : Between text j) : ∃ cs, ((encode text).drop i).take (j - i) = encodeChars cs := by
  obtain ⟨before, after, htext, rfl⟩ := hi
  obtain ⟨before', after', htext', rfl⟩ := hj
  have hprefix : before <+: text.toList := ⟨after, htext.symm⟩
  have hprefix' : before' <+: text.toList := ⟨after', htext'.symm⟩
  rcases List.prefix_or_prefix_of_prefix hprefix hprefix' with ⟨middle, rfl⟩ | ⟨middle, rfl⟩
  · have hafter : after = middle ++ after' := by
      rw [htext, List.append_assoc] at htext'
      exact List.append_cancel_left htext'
    refine ⟨middle, ?_⟩
    rw [encode_drop htext, hafter, encodeChars_append, encodeChars_append, List.length_append,
      Nat.add_sub_cancel_left, List.take_left]
  · refine ⟨[], ?_⟩
    rw [encodeChars_append, List.length_append, Nat.sub_add_eq, Nat.sub_self, Nat.zero_sub,
      List.take_zero]
    rfl

/-! ## Number of pieces -/

theorem length_start (b : UInt8) : (start b).1.length + (start b).2.toList.length = 1 := by
  rw [start]
  repeat' split
  all_goals rfl

theorem length_step_le (state : Option Partial) (b : UInt8) :
    (step state b).1.length + (step state b).2.toList.length ≤ state.toList.length + 1 := by
  have hstart := length_start b
  cases state with
  | none =>
      rw [step]
      omega
  | some p =>
      rw [step]
      split
      · dsimp only
        split <;> simp
      · simp only [List.length_cons, Option.toList_some, List.length_nil]
        omega

theorem length_piecesFrom_le (state : Option Partial) (bytes : List UInt8) :
    (piecesFrom state bytes).length ≤ state.toList.length + bytes.length := by
  induction bytes generalizing state with
  | nil => cases state <;> simp [piecesFrom]
  | cons b rest ih =>
      have hstep := length_step_le state b
      have hrest := ih (step state b).2
      rw [piecesFrom, List.length_append, List.length_cons]
      omega

theorem length_decodeLossy_le (bytes : List UInt8) :
    (decodeLossy bytes).toList.length ≤ bytes.length := by
  have := length_piecesFrom_le none bytes
  simpa [decodeLossy, pieces] using this

end RubyLint.Utf8
