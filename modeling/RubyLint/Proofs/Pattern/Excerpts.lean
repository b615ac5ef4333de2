import RubyLint.Proofs.Pattern.Lexemes

/-!
# Tokens of excerpts

The characters behind a token tell no more than that it ends there.  So the tokens of an excerpt are
those that are read of it in its place, if it goes from the start of one token to the end of
another, and they are the same wherever the excerpt stands.
-/

namespace RubyLint.Pattern

variable {c : Char} {s rest : List Char} {n m offset : Nat} {lexeme : Lexeme}
variable {read other : List Char → Option (Lexeme × Nat)} {kind : TokenKind} {t : Token}
variable {ts before after : List Token}

/-! ## The end of a lexeme -/

theorem head?_drop_take (s : List Char) (n m : Nat) :
    ((s.take m).drop n).head? = if n < m then (s.drop n).head? else none := by
  rw [List.drop_take, List.head?_take]
  rcases Nat.lt_or_ge n m with h | h
  · rw [if_neg (by omega), if_pos h]
  · rw [if_pos (by omega), if_neg (by omega)]

theorem nameLength_take (s : List Char) (m : Nat) :
    nameLength (s.take m) = min m (nameLength s) := by
  cases s with
  | nil => simp [nameLength]
  | cons c rest =>
      cases m with
      | zero => simp [nameLength]
      | succ m =>
          rw [List.take_succ_cons, nameLength, nameLength]
          split
          · rw [← List.take_takeWhile, List.length_take]
            omega
          · rfl

theorem markedLength_eq (s : List Char) :
    markedLength s = nameLength s +
      if (s.drop (nameLength s)).head? ∈ [some '?', some '!'] then 1 else 0 := by
  rw [markedLength]
  cases s.drop (nameLength s) with
  | nil => rfl
  | cons c rest => grind

theorem nameLength_le_markedLength (s : List Char) : nameLength s ≤ markedLength s := by
  rw [markedLength_eq]
  omega

theorem markedLength_take (h : markedLength s ≤ m) : markedLength (s.take m) = markedLength s := by
  have hname : nameLength (s.take m) = nameLength s := by
    have hle := nameLength_le_markedLength s
    rw [nameLength_take]
    omega
  rw [markedLength_eq] at h
  rw [markedLength_eq, markedLength_eq s, hname, head?_drop_take]
  congr 1
  split
  · rfl
  · -- No mark fits in, so none was there.
    rw [if_neg (by simp), if_neg]
    intro hmark
    rw [if_pos hmark] at h
    omega

theorem stringLength_take (h : stringLength s = some n) (hn : n ≤ m) :
    stringLength (s.take m) = some n := by
  fun_induction stringLength s generalizing n m with
  | case1 | case3 | case4 => cases h
  | case2 later =>
      obtain rfl := Option.some.inj h
      obtain ⟨m, rfl⟩ := Nat.exists_eq_add_of_le' hn
      rfl
  | case5 d later hd ih =>
      obtain ⟨k, hk, rfl⟩ := Option.map_eq_some_iff.1 h
      obtain ⟨m, rfl⟩ := Nat.exists_eq_add_of_le' hn
      rw [← Nat.add_assoc, List.take_succ_cons, List.take_succ_cons, stringLength, if_neg hd,
        ih hk (Nat.le_add_left k m)]
      rfl
  | case6 d later hquote hend hescape ih =>
      obtain ⟨k, hk, rfl⟩ := Option.map_eq_some_iff.1 h
      have hplain : d ≠ '\\' := by
        rintro rfl
        cases later with
        | nil => exact hend rfl rfl
        | cons c rest => exact hescape c rest rfl rfl
      obtain ⟨m, rfl⟩ := Nat.exists_eq_add_of_le' hn
      rw [← Nat.add_assoc, List.take_succ_cons, stringLength, ih hk (Nat.le_add_left k m)]
      · rfl
      · exact hquote
      · exact fun heq => absurd heq hplain
      · exact fun _ _ heq => absurd heq hplain

/-- A reader of lexemes that looks at what follows a lexeme only to tell that it ends there: it
reads the same of any front of the text that the lexeme fits in. -/
def Settled (read : List Char → Option (Lexeme × Nat)) : Prop :=
  ∀ rest lexeme n m, read rest = some (lexeme, n) → n ≤ m →
    read (rest.take m) = some (lexeme, n)

theorem settled_fixed (result : Option (Lexeme × Nat)) : Settled fun _ => result :=
  fun _ _ _ _ h _ => h

theorem Settled.ite {b : Prop} [Decidable b] (h : Settled read) (h' : Settled other) :
    Settled fun rest => if b then read rest else other rest := by
  by_cases hb : b
  · simpa only [hb, if_true] using h
  · simpa only [hb, if_false] using h'

theorem settled_run (test : Char → Bool) (lexeme : Lexeme) :
    Settled fun rest => some (lexeme, (rest.takeWhile test).length) := by
  intro rest lexeme' n m h hn
  obtain ⟨rfl, rfl⟩ := Prod.mk.inj (Option.some.inj h)
  simp only [← List.take_takeWhile, List.length_take, Nat.min_eq_right hn]

theorem settled_properRun (test : Char → Bool) (lexeme : Lexeme) :
    Settled fun rest => match (rest.takeWhile test).length with
      | 0 => none
      | n + 1 => some (lexeme, n + 1) := by
  intro rest lexeme' n m h hn
  dsimp only at h ⊢
  split at h
  · cases h
  next k hk =>
    obtain ⟨rfl, rfl⟩ := Prod.mk.inj (Option.some.inj h)
    rw [← List.take_takeWhile, List.length_take, hk, Nat.min_eq_right hn]

theorem settled_rest : Settled fun rest =>
    if ['.', '.'].isPrefixOf rest then some (.token .rest, 2) else none := by
  intro rest lexeme n m h hn
  dsimp only at h ⊢
  split at h
  next hdots =>
    obtain ⟨rfl, rfl⟩ := Prod.mk.inj (Option.some.inj h)
    rw [if_pos]
    rw [List.isPrefixOf_iff_prefix] at hdots ⊢
    exact List.prefix_take_iff.2 ⟨hdots, hn⟩
  · cases h

theorem settled_string : Settled fun rest =>
    (stringLength rest).map fun n => (.token .string, n) := by
  intro rest lexeme n m h hn
  obtain ⟨k, hk, heq⟩ := Option.map_eq_some_iff.1 h
  obtain ⟨rfl, rfl⟩ := Prod.mk.inj heq
  simp only [stringLength_take hk hn, Option.map_some]

theorem settled_capture : Settled fun rest =>
    let n := nameLength rest
    if n != 0 && (rest.drop n).head? == some '=' then
      some (.token (.capture (some (String.ofList (rest.take n)))), n + 1)
    else some (.token (.capture none), 0) := by
  intro rest lexeme n m h hn
  dsimp only at h ⊢
  rw [nameLength_take, head?_drop_take, List.take_take]
  split at h
  next hnamed =>
    obtain ⟨rfl, rfl⟩ := Prod.mk.inj (Option.some.inj h)
    have hlt : nameLength rest < m := hn
    rw [Nat.min_eq_right hlt.le, if_pos hlt, if_pos hnamed, Nat.min_eq_left hlt.le]
  next hplain =>
    rw [if_neg]
    · exact h
    · rcases Nat.lt_or_ge (nameLength rest) m with hm | hm
      · rwa [Nat.min_eq_right hm.le, if_pos hm]
      · simp [Nat.min_eq_left hm]

theorem settled_predicate : Settled fun rest =>
    match markedLength rest with
    | 0 => none
    | n + 1 => if nameLength rest == 0 then none else some (.token .predicate, n + 1) := by
  intro rest lexeme n m h hn
  dsimp only at h ⊢
  split at h
  · cases h
  next k hk =>
    split at h
    · cases h
    next hname =>
      obtain ⟨rfl, rfl⟩ := Prod.mk.inj (Option.some.inj h)
      have hle := nameLength_le_markedLength rest
      rw [markedLength_take (by omega), hk, nameLength_take, Nat.min_eq_right (by omega)]
      exact if_neg hname

theorem settled_word (c : Char) : Settled fun rest =>
    some (.token .word, markedLength (c :: rest) - 1) := by
  intro rest lexeme n m h hn
  obtain ⟨rfl, rfl⟩ := Prod.mk.inj (Option.some.inj h)
  have hword : markedLength ((c :: rest).take (m + 1)) = markedLength (c :: rest) :=
    markedLength_take (by omega)
  rw [List.take_succ_cons] at hword
  simp only [hword]

theorem lexeme?_settled (c : Char) : Settled (lexeme? c) := by
  unfold lexeme?
  exact .ite (settled_run _ _) <| .ite (settled_fixed _) <| .ite (settled_fixed _) <|
    .ite (settled_fixed _) <| .ite (settled_fixed _) <| .ite settled_rest <| .ite settled_string <|
    .ite (settled_properRun _ _) <| .ite (settled_properRun _ _) <| .ite (settled_run _ _) <|
    .ite settled_capture <| .ite (settled_fixed _) <| .ite settled_predicate <|
    .ite (settled_word c) (settled_fixed none)

/-! ## Tokens between two tokens -/

theorem le_offset_of_mem_tokensFrom (h : tokensFrom offset s = .ok ts) :
    ∀ t ∈ ts, offset ≤ t.offset := by
  fun_induction tokensFrom offset s generalizing ts with
  | case1 =>
      obtain rfl := Except.ok.inj h
      simp
  | case2 => cases h
  | case3 offset c rest n _ ih =>
      intro t ht
      have hle := ih h t ht
      omega
  | case4 offset c rest kind n _ ih =>
      obtain ⟨following, hfollowing, rfl⟩ := map_eq_ok h
      refine List.forall_mem_cons.2 ⟨Nat.le_refl _, fun t ht => ?_⟩
      have hle := ih hfollowing t ht
      omega

/-- From a token on, a text is read as that token and those behind it. -/
theorem tokensFrom_drop (h : tokensFrom offset s = .ok (before ++ t :: ts)) :
    tokensFrom t.offset (s.drop (t.offset - offset)) = .ok (t :: ts) := by
  have hskip : ∀ {c : Char} {rest : List Char} {offset n : Nat}, offset + n + 1 ≤ t.offset →
      (c :: rest).drop (t.offset - offset) =
        (rest.drop n).drop (t.offset - (offset + n + 1)) := by
    intro c rest offset n hle
    have hlength : t.offset - offset = t.offset - (offset + n + 1) + n + 1 := by omega
    rw [hlength, List.drop_succ_cons, List.drop_drop, Nat.add_comm n]
  fun_induction tokensFrom offset s generalizing before with
  | case1 => simp at h
  | case2 => cases h
  | case3 offset c rest n _ ih =>
      rw [hskip (le_offset_of_mem_tokensFrom h t (by simp))]
      exact ih h
  | case4 offset c rest kind n hlexeme ih =>
      obtain ⟨following, hfollowing, heq⟩ := map_eq_ok h
      cases before with
      | nil =>
          obtain ⟨rfl, rfl⟩ := List.cons.inj heq
          rw [Nat.sub_self, List.drop_zero, tokensFrom, hlexeme]
          exact h
      | cons first before =>
          obtain ⟨rfl, rfl⟩ := List.cons.inj heq
          rw [hskip (le_offset_of_mem_tokensFrom hfollowing t (by simp))]
          exact ih hfollowing

theorem tokensFrom_take_blank (h : lexeme? c rest = some (.blank, n)) (hn : n ≤ m) :
    tokensFrom offset ((c :: rest).take (m + 1)) =
      tokensFrom (offset + n + 1) ((rest.drop n).take (m - n)) := by
  rw [List.take_succ_cons, tokensFrom, lexeme?_settled c _ _ _ _ h hn]
  dsimp only
  rw [List.drop_take]

theorem tokensFrom_take_token (h : lexeme? c rest = some (.token kind, n)) (hn : n ≤ m) :
    tokensFrom offset ((c :: rest).take (m + 1)) =
      (tokensFrom (offset + n + 1) ((rest.drop n).take (m - n))).map
        (⟨kind, String.ofList (c :: rest.take n), offset⟩ :: ·) := by
  rw [List.take_succ_cons, tokensFrom, lexeme?_settled c _ _ _ _ h hn]
  dsimp only
  rw [List.drop_take, List.take_take, Nat.min_eq_left hn]

/-- Up to the end of a token, a text is read as that token and those before it. -/
theorem tokensFrom_take (h : tokensFrom offset s = .ok (ts ++ t :: after)) :
    tokensFrom offset (s.take (t.offset + t.text.length - offset)) = .ok (ts ++ [t]) := by
  have hsplit : ∀ {offset n : Nat}, offset + n + 1 ≤ t.offset →
      t.offset + t.text.length - offset =
        t.offset + t.text.length - (offset + n + 1) + n + 1 := by
    omega
  fun_induction tokensFrom offset s generalizing ts with
  | case1 => simp at h
  | case2 => cases h
  | case3 offset c rest n hlexeme ih =>
      rw [hsplit (le_offset_of_mem_tokensFrom h t (by simp)),
        tokensFrom_take_blank hlexeme (Nat.le_add_left n _), Nat.add_sub_cancel]
      exact ih h
  | case4 offset c rest kind n hlexeme ih =>
      obtain ⟨following, hfollowing, heq⟩ := map_eq_ok h
      cases ts with
      | nil =>
          -- The first token is the last one: nothing is left of the text behind it.
          obtain ⟨rfl, rfl⟩ := List.cons.inj heq
          have hfront :
              (c :: rest).take (offset + (String.ofList (c :: rest.take n)).length - offset) =
                (c :: rest).take (n + 1) := by
            simp [Nat.add_comm 1, ← List.take_eq_take_min]
          rw [hfront, tokensFrom_take_token hlexeme (Nat.le_refl n), Nat.sub_self, List.take_zero,
            tokensFrom]
          rfl
      | cons first ts =>
          obtain ⟨rfl, rfl⟩ := List.cons.inj heq
          rw [hsplit (le_offset_of_mem_tokensFrom hfollowing t (by simp)),
            tokensFrom_take_token hlexeme (Nat.le_add_left n _), Nat.add_sub_cancel, ih hfollowing]
          rfl

/-! ## Tokens in another place -/

/-- A token that stands as far behind one offset as it stood behind another. -/
def Token.moved (source target : Nat) (t : Token) : Token :=
  { t with offset := t.offset - source + target }

theorem map_moved_add {k : Nat} (target : Nat) (h : ∀ t ∈ ts, offset + k ≤ t.offset) :
    ts.map (Token.moved (offset + k) (target + k)) = ts.map (Token.moved offset target) := by
  refine List.map_congr_left fun t ht => ?_
  have hle := h t ht
  simp only [Token.moved, Token.mk.injEq, true_and]
  omega

/-- A text is read as the same tokens wherever it stands. -/
theorem tokensFrom_moved (h : tokensFrom offset s = .ok ts) (target : Nat) :
    tokensFrom target s = .ok (ts.map (Token.moved offset target)) := by
  fun_induction tokensFrom offset s generalizing ts target with
  | case1 =>
      obtain rfl := Except.ok.inj h
      rw [tokensFrom]
      rfl
  | case2 => cases h
  | case3 offset c rest n hlexeme ih =>
      rw [tokensFrom, hlexeme, ← map_moved_add (k := n + 1) target (le_offset_of_mem_tokensFrom h)]
      exact ih h (target + n + 1)
  | case4 offset c rest kind n hlexeme ih =>
      obtain ⟨following, hfollowing, rfl⟩ := map_eq_ok h
      rw [tokensFrom, hlexeme, List.map_cons,
        ← map_moved_add (k := n + 1) target (le_offset_of_mem_tokensFrom hfollowing)]
      dsimp only
      rw [ih hfollowing (target + n + 1)]
      simp [Except.map, Token.moved, Nat.add_assoc]

/-! ## What tokens look like -/

theorem isName_take_nameLength (h : nameLength s ≠ 0) : isName (s.take (nameLength s)) = true := by
  cases s with
  | nil => exact absurd rfl h
  | cons c rest =>
      rw [nameLength] at h ⊢
      split at h
      next hstart =>
        rw [if_pos hstart, Nat.add_comm, List.take_succ_cons,
          ← List.prefix_iff_eq_take.1 (List.takeWhile_prefix _), isName, hstart]
        exact List.all_eq_true.2 fun d hd => List.mem_takeWhile_imp hd
      next => exact absurd rfl h

/-- What is known of a token of a class, its first character and the number of characters behind
that. -/
def Shaped : TokenKind → Char → Nat → Prop
  | .closing _, _, n => n = 0
  | .predicate, c, _ => c = '#'
  | .capture (some name), _, _ => isName name.toList = true
  | _, _, _ => True

theorem lexeme?_shaped (h : lexeme? c rest = some (.token kind, n)) : Shaped kind c n := by
  unfold Shaped
  split
  case h_4 => trivial
  all_goals
    simp only [lexeme?, ite_eq_iff, Option.map_eq_some_iff, Option.some.injEq, Prod.mk.injEq,
      Lexeme.token.injEq, reduceCtorEq, false_and, and_false, exists_false, false_or] at h
    grind [isName_take_nameLength, String.toList_ofList]

/-- What a token is read of, where it stands. -/
theorem exists_lexeme (h : tokensFrom t.offset s = .ok (t :: ts)) :
    ∃ c rest n, s = c :: rest ∧ lexeme? c rest = some (.token t.kind, n) ∧
      t.text = String.ofList (c :: rest.take n) := by
  cases s with
  | nil =>
      rw [tokensFrom] at h
      cases h
  | cons c rest =>
      rw [tokensFrom] at h
      split at h
      · cases h
      next n hlexeme =>
        have hle := le_offset_of_mem_tokensFrom h t List.mem_cons_self
        omega
      next kind n hlexeme =>
        obtain ⟨following, -, heq⟩ := map_eq_ok h
        obtain ⟨heq, -⟩ := List.cons.inj heq
        rw [← heq]
        exact ⟨c, rest, n, rfl, hlexeme, rfl⟩

/-- A text that can be read does not look like the name of a capture, for no token starts with the
sign that would follow the name. -/
theorem unnamed_of_tokensFrom (h : tokensFrom offset s = .ok ts) : Unnamed s := by
  rw [Unnamed, or_iff_not_imp_left]
  intro hname hsign
  cases s with
  | nil => exact hname rfl
  | cons c rest =>
      have hstart : Text.isNameStart c = true := by
        by_contra hstart
        exact hname (if_neg hstart)
      have hlength : markedLength (c :: rest) = nameLength (c :: rest) := by
        rw [markedLength_eq, hsign, if_neg (by decide), Nat.add_zero]
      obtain ⟨k, hk⟩ := Nat.exists_eq_succ_of_ne_zero hname
      obtain ⟨later, hlater⟩ := List.head?_eq_some_iff.1 hsign
      rw [hk, List.drop_succ_cons] at hlater
      rw [tokensFrom, lexeme?_of_isNameStart hstart, hlength, hk, Nat.succ_sub_one] at h
      dsimp only at h
      obtain ⟨following, hfollowing, -⟩ := map_eq_ok h
      rw [hlater, tokensFrom] at hfollowing
      cases hfollowing

end RubyLint.Pattern
