import RubyLint.Proofs.Pattern.Grammar

/-!
# Where descriptions are at fault

A description that is no pattern is at fault at the offset of one of its tokens, at the character
that starts none, or at its end; only an empty one is at fault as a whole.
-/

namespace RubyLint.Pattern

variable {scope : Scope} {inSequence : Bool} {t : Token} {ts : List Token}

/-- A fault that names the description and an offset in it or at its end. -/
def Located (scope : Scope) (fault : Fault) : Prop :=
  ∃ cause offset, fault = scope.fault cause offset ∧ offset ≤ scope.description.length

/-- What stands behind a lexeme stands before the end. -/
theorem lt_of_lt_drop {offset n bound : Nat} {c : Char} {s : List Char} (hne : s.drop n ≠ [])
    (h : bound < offset + n + 1 + (s.drop n).length) : bound < offset + (c :: s).length := by
  have hn : n < s.length := by
    rwa [ne_eq, List.drop_eq_nil_iff, Nat.not_le] at hne
  rw [List.length_drop] at h
  rw [List.length_cons]
  omega

theorem offset_of_mem_tokensFrom {offset : Nat} {s : List Char} (h : tokensFrom offset s = .ok ts) :
    ∀ t ∈ ts, t.offset < offset + s.length := by
  fun_induction tokensFrom offset s generalizing ts with
  | case1 =>
      obtain rfl := Except.ok.inj h
      simp
  | case2 => cases h
  | case3 offset c s n _ ih =>
      intro t ht
      refine lt_of_lt_drop (fun hnil => ?_) (ih h t ht)
      rw [hnil, tokensFrom] at h
      obtain rfl := Except.ok.inj h
      simp at ht
  | case4 offset c s kind n _ ih =>
      obtain ⟨following, hfollowing, rfl⟩ := map_eq_ok h
      refine List.forall_mem_cons.2 ⟨by simp, fun t ht => ?_⟩
      refine lt_of_lt_drop (fun hnil => ?_) (ih hfollowing t ht)
      rw [hnil, tokensFrom] at hfollowing
      obtain rfl := Except.ok.inj hfollowing
      simp at ht

theorem offset_of_tokensFrom_error {offset bound : Nat} {found : Char} {s : List Char}
    (h : tokensFrom offset s = .error (bound, found)) : bound < offset + s.length := by
  fun_induction tokensFrom offset s with
  | case1 => cases h
  | case2 offset c s =>
      obtain ⟨rfl, rfl⟩ := Prod.mk.inj (Except.error.inj h)
      simp
  | case3 offset c s n _ ih =>
      refine lt_of_lt_drop (fun hnil => ?_) (ih h)
      rw [hnil, tokensFrom] at h
      cases h
  | case4 offset c s kind n _ ih =>
      have h := map_eq_error h
      refine lt_of_lt_drop (fun hnil => ?_) (ih h)
      rw [hnil, tokensFrom] at h
      cases h

theorem offset_of_mem_tokens {description : String} (h : tokens description = .ok ts) :
    ∀ t ∈ ts, t.offset < description.length := by
  rw [tokens] at h
  split at h
  next following hfollowing =>
    obtain rfl := Except.ok.inj h
    simpa only [Nat.zero_add, String.length_toList] using offset_of_mem_tokensFrom hfollowing
  next => cases h

theorem offset_of_tokens_error {description : String} {fault : Fault}
    (h : tokens description = .error fault) :
    ∀ offset ∈ fault.offset, offset ≤ description.length := by
  rw [tokens] at h
  split at h
  next => cases h
  next bound found hbound =>
    obtain rfl := Except.error.inj h
    have hlt := offset_of_tokensFrom_error hbound
    rw [Nat.zero_add, String.length_toList] at hlt
    simpa using Nat.le_of_lt hlt

theorem atom?_located {fault : Fault} (ht : t.offset ≤ scope.description.length)
    (h : atom? scope inSequence t = some (.error fault)) : Located scope fault := by
  rw [atom?] at h
  split at h
  next => exact ⟨_, _, (Except.error.inj (Option.some.inj h)).symm, ht⟩
  next =>
    split at h
    · cases h
    · exact ⟨_, _, (Except.error.inj (Option.some.inj h)).symm, ht⟩
  next => cases h
  next => cases h
  next => cases h
  next =>
    dsimp only at h
    split at h
    · cases h
    · exact ⟨_, _, (Except.error.inj (Option.some.inj h)).symm, ht⟩
  next =>
    split at h
    · cases h
    split at h
    · cases h
    · exact ⟨_, _, (Except.error.inj (Option.some.inj h)).symm, ht⟩
  next => cases h

theorem makeChoice_located {first last : Nat} {branches : List Pattern} {fault : Fault}
    (hfirst : first ≤ scope.description.length)
    (h : makeChoice scope first last branches = .error fault) : Located scope fault := by
  cases branches with
  | nil => exact ⟨_, _, (Except.error.inj h).symm, hfirst⟩
  | cons p ps =>
      rw [makeChoice] at h
      split at h
      · cases h
      · exact ⟨_, _, (Except.error.inj h).symm, hfirst⟩

theorem makeNode_located {first last : Nat} {kind : String} {items : List Pattern} {fault : Fault}
    (hfirst : first ≤ scope.description.length)
    (h : makeNode scope first last kind items = .error fault) : Located scope fault := by
  rw [makeNode] at h
  split at h
  · exact ⟨_, _, (Except.error.inj h).symm, hfirst⟩
  · cases h

mutual

theorem compileOne_located (scope : Scope) : ∀ (depth : Nat) (inSequence : Bool) (ts : List Token)
    {fault : Fault}, (∀ t ∈ ts, t.offset ≤ scope.description.length) →
      compileOne scope depth inSequence ts = .error fault → Located scope fault
  | 0, _, _, _, _, h => ⟨_, _, (Except.error.inj h).symm, Nat.le_refl _⟩
  | _ + 1, _, [], _, _, h => ⟨_, _, (Except.error.inj h).symm, Nat.le_refl _⟩
  | depth + 1, inSequence, t :: ts, fault, hts, h => by
      obtain ⟨ht, hts⟩ := List.forall_mem_cons.1 hts
      rw [compileOne.eq_def] at h
      dsimp only at h
      split at h
      next result hatom =>
        exact atom?_located ht (hatom.trans (congrArg some (map_eq_error h)))
      split at h
      next =>
        split at h
        · exact ⟨_, _, (Except.error.inj h).symm, ht⟩
        rcases bind_eq_error h with h | ⟨_, -, h⟩
        · exact compileOne_located scope depth _ ts hts h
        · cases h
      next =>
        rcases bind_eq_error h with h | ⟨_, -, h⟩
        · exact compileOne_located scope depth _ ts hts h
        split at h
        · exact ⟨_, _, (Except.error.inj h).symm, ht⟩
        · cases h
      next =>
        rcases bind_eq_error h with h | ⟨⟨branches, last, ts'⟩, -, h⟩
        · exact compileUntil_located scope depth _ _ ts ht hts h
        rcases bind_eq_error h with h | ⟨_, -, h⟩
        · exact makeChoice_located ht h
        · cases h
      next =>
        split at h
        · exact ⟨_, _, (Except.error.inj h).symm, ht⟩
        next head ts _ =>
        obtain ⟨hhead, hts⟩ := List.forall_mem_cons.1 hts
        split at h
        · exact ⟨_, _, (Except.error.inj h).symm, hhead⟩
        split at h
        · exact ⟨_, _, (Except.error.inj h).symm, hhead⟩
        rcases bind_eq_error h with h | ⟨⟨items, last, ts'⟩, -, h⟩
        · exact compileUntil_located scope depth _ _ ts ht hts h
        rcases bind_eq_error h with h | ⟨_, -, h⟩
        · exact makeNode_located ht h
        · cases h

theorem compileUntil_located (scope : Scope) : ∀ (depth : Nat) (bracket : Bracket) (first : Nat)
    (ts : List Token) {fault : Fault}, first ≤ scope.description.length →
      (∀ t ∈ ts, t.offset ≤ scope.description.length) →
      compileUntil scope depth bracket first ts = .error fault → Located scope fault
  | 0, _, _, _, _, hfirst, _, h => ⟨_, _, (Except.error.inj h).symm, hfirst⟩
  | _ + 1, _, _, [], _, hfirst, _, h => ⟨_, _, (Except.error.inj h).symm, hfirst⟩
  | depth + 1, bracket, first, t :: ts, fault, hfirst, hts, h => by
      rw [compileUntil] at h
      split at h
      next =>
        split at h
        · cases h
        · exact ⟨_, _, (Except.error.inj h).symm, hts t List.mem_cons_self⟩
      next =>
        rcases bind_eq_error h with h | ⟨⟨item, ts'⟩, hitem, h⟩
        · exact compileOne_located scope depth _ (t :: ts) hts h
        rcases bind_eq_error h with h | ⟨⟨items, last, ts''⟩, -, h⟩
        · obtain ⟨used, hused, -⟩ := compileOne_derives scope depth _ (t :: ts) hitem
          refine compileUntil_located scope depth bracket first ts' hfirst
            (fun t' ht' => hts t' ?_) h
          exact hused ▸ List.mem_append_right used ht'
        · cases h

end

theorem compileTokens_located {fault : Fault} (hts : ∀ t ∈ ts, t.offset ≤ scope.description.length)
    (h : compileTokens scope ts = .error fault) :
    ∀ offset ∈ fault.offset, offset ≤ scope.description.length := by
  have hlocated : ts = [] ∨ Located scope fault := by
    rw [compileTokens] at h
    split at h
    next hempty => exact .inl (List.isEmpty_iff.1 hempty)
    rcases bind_eq_error h with h | ⟨⟨root, following⟩, hroot, h⟩
    · exact .inr (compileOne_located scope _ false ts hts h)
    obtain ⟨used, hused, -⟩ := compileOne_derives scope _ false ts hroot
    cases following with
    | nil => cases h
    | cons t following =>
        have ht : t ∈ ts := hused ▸ List.mem_append_right used List.mem_cons_self
        exact .inr ⟨_, _, (Except.error.inj h).symm, hts t ht⟩
  rcases hlocated with rfl | ⟨cause, offset, rfl, hoffset⟩
  · obtain rfl := Except.error.inj h
    simp
  · simpa [Scope.fault] using hoffset

end RubyLint.Pattern
