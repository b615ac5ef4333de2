import RubyLint.Text.Glob

/-!
# What a glob matches

A glob matches a text that its parts describe one after the other.  The search answers for all tails
of the text at once; its answer for one tail depends on nothing before that tail, so it can be
followed from part to part and from character to character.
-/

namespace RubyLint.Glob

/-- A text that parts describe from one end to the other: a star describes any text, separators
included, and every other part one character that it accepts. -/
inductive Matches : List Part → List Char → Prop where
  | nil : Matches [] []
  | one {p : Part} {rest : List Part} {c : Char} {s : List Char} :
      p.accepts c = true → Matches rest s → Matches (p :: rest) (c :: s)
  | many {rest : List Part} {s : List Char} (front : List Char) :
      Matches rest s → Matches (.many :: rest) (front ++ s)

variable {p : Part} {rest : List Part} {c : Char} {s : List Char}

/-! ## One answer for each tail -/

theorem matchTails_of_ne_many (h : p ≠ .many) (rest : List Part) (s : List Char) :
    matchTails (p :: rest) s =
      s.zipWith (fun c next => p.accepts c && next) (matchTails rest s).tail ++ [false] := by
  cases p with
  | many => exact absurd rfl h
  | _ => rfl

theorem matchTails_nil (parts : List Part) : ∃ here, matchTails parts [] = [here] := by
  induction parts with
  | nil => exact ⟨true, rfl⟩
  | cons p rest ih =>
      obtain ⟨here, hhere⟩ := ih
      by_cases hp : p = .many
      · rw [hp, matchTails, hhere]
        exact ⟨_, rfl⟩
      · rw [matchTails_of_ne_many hp]
        exact ⟨_, rfl⟩

/-- The answer for a text comes before the answers for its tails, which stay as they are. -/
theorem matchTails_cons (parts : List Part) (c : Char) (s : List Char) :
    ∃ here, matchTails parts (c :: s) = here :: matchTails parts s := by
  induction parts generalizing c s with
  | nil => exact ⟨false, rfl⟩
  | cons p rest ih =>
      obtain ⟨here, hhere⟩ := ih c s
      by_cases hp : p = .many
      · rw [hp, matchTails, hhere]
        exact ⟨_, rfl⟩
      obtain ⟨next, tails, hnext⟩ : ∃ next tails, matchTails rest s = next :: tails := by
        cases s with
        | nil => exact (matchTails_nil rest).imp fun next hnext => ⟨[], hnext⟩
        | cons d s => exact (ih d s).imp fun next hnext => ⟨_, hnext⟩
      rw [matchTails_of_ne_many hp, matchTails_of_ne_many hp, hhere, hnext]
      exact ⟨_, rfl⟩

def matchesAll (parts : List Part) (s : List Char) : Bool :=
  (matchTails parts s).headD false

theorem matchTails_cons_eq (parts : List Part) (c : Char) (s : List Char) :
    matchTails parts (c :: s) = matchesAll parts (c :: s) :: matchTails parts s := by
  obtain ⟨here, hhere⟩ := matchTails_cons parts c s
  rw [matchesAll, hhere, List.headD_cons]

/-! ## From part to part -/

theorem matchesAll_many_nil (rest : List Part) :
    matchesAll (.many :: rest) [] = matchesAll rest [] := by
  obtain ⟨here, hhere⟩ := matchTails_nil rest
  rw [matchesAll, matchTails, matchesAll, hhere]
  exact Bool.or_false here

/-- A star is done here, or it takes the first character and goes on. -/
theorem matchesAll_many_cons (rest : List Part) (c : Char) (s : List Char) :
    matchesAll (.many :: rest) (c :: s) =
      (matchesAll rest (c :: s) || matchesAll (.many :: rest) s) := by
  rw [matchesAll, matchTails, matchTails_cons_eq, List.foldr_cons, List.headD_cons]
  rfl

theorem matchesAll_nil_of_ne_many (hp : p ≠ .many) (rest : List Part) :
    matchesAll (p :: rest) [] = false := by
  rw [matchesAll, matchTails_of_ne_many hp]
  rfl

theorem matchesAll_cons_of_ne_many (hp : p ≠ .many) (rest : List Part) (c : Char) (s : List Char) :
    matchesAll (p :: rest) (c :: s) = (p.accepts c && matchesAll rest s) := by
  rw [matchesAll, matchTails_of_ne_many hp, matchTails_cons_eq, List.tail_cons, matchesAll]
  cases s with
  | nil =>
      obtain ⟨here, hhere⟩ := matchTails_nil rest
      rw [hhere]
      rfl
  | cons d s =>
      rw [matchTails_cons_eq]
      rfl

/-! ## The search and the meaning -/

theorem matches_nil_iff : Matches [] s ↔ s = [] :=
  ⟨fun h => by cases h; rfl, fun h => h ▸ .nil⟩

theorem matches_many_iff :
    Matches (.many :: rest) s ↔ ∃ front back, s = front ++ back ∧ Matches rest back := by
  constructor
  · rintro (_ | ⟨haccepts, _⟩ | ⟨front, h⟩)
    · exact absurd haccepts Bool.false_ne_true
    · exact ⟨front, _, rfl, h⟩
  · rintro ⟨front, back, rfl, h⟩
    exact .many front h

theorem matches_cons_iff (hp : p ≠ .many) :
    Matches (p :: rest) s ↔ ∃ c back, s = c :: back ∧ p.accepts c = true ∧ Matches rest back := by
  constructor
  · rintro (_ | ⟨haccepts, h⟩ | _)
    · exact ⟨_, _, rfl, haccepts, h⟩
    · exact absurd rfl hp
  · rintro ⟨c, back, rfl, haccepts, h⟩
    exact .one haccepts h

theorem matchesAll_many_iff (ih : ∀ s, matchesAll rest s = true ↔ Matches rest s)
    (s : List Char) : matchesAll (.many :: rest) s = true ↔ Matches (.many :: rest) s := by
  induction s with
  | nil =>
      rw [matchesAll_many_nil, ih, matches_many_iff]
      constructor
      · exact fun h => ⟨[], [], rfl, h⟩
      · rintro ⟨front, back, hnil, h⟩
        rwa [(List.append_eq_nil_iff.1 hnil.symm).2] at h
  | cons c s ihs =>
      rw [matchesAll_many_cons, Bool.or_eq_true, ih, ihs, matches_many_iff, matches_many_iff]
      constructor
      · rintro (h | ⟨front, back, rfl, h⟩)
        · exact ⟨[], c :: s, rfl, h⟩
        · exact ⟨c :: front, back, rfl, h⟩
      · rintro ⟨front, back, hsplit, h⟩
        rcases List.cons_eq_append_iff.1 hsplit with ⟨-, rfl⟩ | ⟨front, -, hrest⟩
        · exact .inl h
        · exact .inr ⟨front, back, hrest, h⟩

theorem matchesAll_iff (parts : List Part) (s : List Char) :
    matchesAll parts s = true ↔ Matches parts s := by
  induction parts generalizing s with
  | nil =>
      rw [matches_nil_iff]
      cases s with
      | nil => exact iff_of_true rfl rfl
      | cons c s => exact iff_of_false Bool.false_ne_true (List.cons_ne_nil c s)
  | cons p rest ih =>
      by_cases hp : p = .many
      · subst hp
        exact matchesAll_many_iff ih s
      rw [matches_cons_iff hp]
      cases s with
      | nil =>
          rw [matchesAll_nil_of_ne_many hp]
          exact iff_of_false Bool.false_ne_true nofun
      | cons c s =>
          rw [matchesAll_cons_of_ne_many hp, Bool.and_eq_true, ih]
          constructor
          · exact fun h => ⟨c, s, rfl, h⟩
          · rintro ⟨_, _, hsplit, h⟩
            obtain ⟨rfl, rfl⟩ := List.cons_eq_cons.1 hsplit
            exact h

/-- A pattern matches a text if the text is what its parts describe. -/
theorem matchesText_iff (pattern text : String) :
    matchesText pattern text = true ↔ Matches (parts pattern) text.toList :=
  matchesAll_iff (parts pattern) text.toList

/-- A star takes in the slashes between names; the dot after it stands for itself. -/
example : Matches (parts "lib/*.rb") "lib/a/b.rb".toList :=
  (matchesText_iff _ _).1 (by decide +kernel)

end RubyLint.Glob
