import Mathlib.Data.List.Nodup
import RubyLint.Proofs.Lookup
import RubyLint.Proofs.Suppression
import RubyLint.Proofs.Suppression.Lines
import RubyLint.Proofs.Text.Class

/-!
# The two readings of directives

What suppresses offenses and what reports mistakes read a line in two ways, each from left to right
and each going on behind what it has read.  They stay in step: where the stricter reading finds a
list, the more generous one finds the same list and goes on at the same place; and what only the
more generous one takes holds no further directive.  So a directive is reported exactly if no
pattern comes from it.
-/

namespace RubyLint.Suppression

variable {α : Type} {read : List Char → Option (α × List Char)}
variable {s rest body skipped line : List Char} {fuel i : Nat} {closed : Bool} {o : Occurrence}

/-! ## Readings with their places -/

/-- What a reading finds behind the hashes of a text, from left to right, each with the place of its
hash. -/
def hitsFrom (read : List Char → Option (α × List Char)) :
    Nat → Nat → List Char → List (Nat × α)
  | 0, _, _ => []
  | _ + 1, _, [] => []
  | fuel + 1, i, c :: s =>
    if c == '#' then
      match read s with
      | some (a, rest) => (i, a) :: hitsFrom read fuel (i + 1 + (s.length - rest.length)) rest
      | none => hitsFrom read fuel (i + 1) s
    else hitsFrom read fuel (i + 1) s

def directivesAt (line : List Char) : List (Nat × List Char) :=
  hitsFrom directive? (line.length + 1) 0 line

def occurrencesAt (line : List Char) : List (Nat × Occurrence) :=
  hitsFrom occurrence? (line.length + 1) 0 line

theorem hitsFrom_nil (read : List Char → Option (α × List Char)) (fuel i : Nat) :
    hitsFrom read fuel i [] = [] := by
  cases fuel <;> rfl

theorem hitsFrom_other {c : Char} (hc : c ≠ '#') :
    hitsFrom read (fuel + 1) i (c :: s) = hitsFrom read fuel (i + 1) s := by
  rw [hitsFrom, if_neg (by simpa using hc)]

theorem hitsFrom_miss (hread : read s = none) :
    hitsFrom read (fuel + 1) i ('#' :: s) = hitsFrom read fuel (i + 1) s := by
  rw [hitsFrom, if_pos (beq_self_eq_true _), hread]

theorem hitsFrom_hit {a : α} (hread : read (skipped ++ rest) = some (a, rest)) :
    hitsFrom read (fuel + 1) i ('#' :: (skipped ++ rest)) =
      (i, a) :: hitsFrom read fuel (i + 1 + skipped.length) rest := by
  rw [hitsFrom, if_pos (beq_self_eq_true _), hread]
  simp only [List.length_append, Nat.add_sub_cancel]

/-- What holds no hash is passed over. -/
theorem hitsFrom_append (hskipped : '#' ∉ skipped) :
    hitsFrom read (skipped.length + fuel) i (skipped ++ rest) =
      hitsFrom read fuel (i + skipped.length) rest := by
  induction skipped generalizing i with
  | nil => rw [List.length_nil, Nat.zero_add, Nat.add_zero, List.nil_append]
  | cons c skipped ih =>
      rw [List.mem_cons, not_or] at hskipped
      rw [List.length_cons, Nat.add_right_comm, List.cons_append,
        hitsFrom_other (Ne.symm hskipped.1), ih hskipped.2, Nat.add_assoc, Nat.add_comm 1]

theorem hitsFrom_directive? (fuel i : Nat) (s : List Char) :
    (hitsFrom directive? fuel i s).map (·.2) = directivesIn fuel s := by
  fun_induction hitsFrom directive? fuel i s with
  | case1 => rfl
  | case2 => rfl
  | case3 fuel i c s hc body rest hread ih =>
      rw [List.map_cons, ih, directivesIn, if_pos hc, hread]
  | case4 fuel i c s hc hread ih => rw [ih, directivesIn, if_pos hc, hread]
  | case5 fuel i c s hc ih => rw [ih, directivesIn, if_neg hc]

theorem hitsFrom_occurrence? (fuel i : Nat) (s : List Char) :
    (hitsFrom occurrence? fuel i s).map (·.2) = occurrencesIn fuel s := by
  fun_induction hitsFrom occurrence? fuel i s with
  | case1 => rfl
  | case2 => rfl
  | case3 fuel i c s hc o rest hread ih =>
      rw [List.map_cons, ih, occurrencesIn, if_pos hc, hread]
  | case4 fuel i c s hc hread ih => rw [ih, occurrencesIn, if_pos hc, hread]
  | case5 fuel i c s hc ih => rw [ih, occurrencesIn, if_neg hc]

theorem le_of_mem_hitsFrom {hit : Nat × α} (h : hit ∈ hitsFrom read fuel i s) : i ≤ hit.1 := by
  fun_induction hitsFrom read fuel i s with
  | case1 => nomatch h
  | case2 => nomatch h
  | case3 fuel i c s hc a rest hread ih =>
      rcases List.mem_cons.1 h with rfl | h
      · exact Nat.le_refl _
      · have := ih h
        omega
  | case4 fuel i c s hc hread ih => exact Nat.le_of_succ_le (ih h)
  | case5 fuel i c s hc ih => exact Nat.le_of_succ_le (ih h)

/-- No two hits stand at one place. -/
theorem pairwise_hitsFrom (read : List Char → Option (α × List Char)) (fuel i : Nat)
    (s : List Char) : (hitsFrom read fuel i s).Pairwise fun hit later => hit.1 < later.1 := by
  fun_induction hitsFrom read fuel i s with
  | case1 => exact .nil
  | case2 => exact .nil
  | case3 fuel i c s hc a rest hread ih =>
      refine List.pairwise_cons.2 ⟨fun later hlater => ?_, ih⟩
      have := le_of_mem_hitsFrom hlater
      omega
  | case4 fuel i c s hc hread ih => exact ih
  | case5 fuel i c s hc ih => exact ih

/-- A hit is what is read behind the hash at its place. -/
theorem read_of_mem_hitsFrom (hread : ∀ {s a rest}, read s = some (a, rest) → rest <:+ s)
    {before : List Char} (hi : i = before.length) {hit : Nat × α}
    (h : hit ∈ hitsFrom read fuel i s) :
    (before ++ s)[hit.1]? = some '#' ∧
      ∃ rest, read ((before ++ s).drop (hit.1 + 1)) = some (hit.2, rest) := by
  fun_induction hitsFrom read fuel i s generalizing before with
  | case1 => nomatch h
  | case2 => nomatch h
  | case3 fuel i c s hc a rest hhit ih =>
      obtain rfl := beq_iff_eq.1 hc
      rcases List.mem_cons.1 h with rfl | h
      · subst hi
        refine ⟨by simp, rest, ?_⟩
        rwa [List.append_cons, List.drop_left' (by simp)]
      · obtain ⟨skipped, rfl⟩ := hread hhit
        have hnext : i + 1 + ((skipped ++ rest).length - rest.length) =
            (before ++ '#' :: skipped).length := by
          simp only [hi, List.length_append, List.length_cons]
          omega
        have hplace := ih hnext h
        simpa using hplace
  | case4 fuel i c s hc hnone ih =>
      have hnext : i + 1 = (before ++ [c]).length := by simp [hi]
      simpa using ih hnext h
  | case5 fuel i c s hc ih =>
      have hnext : i + 1 = (before ++ [c]).length := by simp [hi]
      simpa using ih hnext h

/-! ## What a reading takes -/

theorem hash_notMem_trimLeft (s : List Char) :
    ∃ blanks, s = blanks ++ Text.trimLeft s ∧ '#' ∉ blanks ∧ ']' ∉ blanks := by
  obtain ⟨blanks, hs, hblanks⟩ := Text.trimLeft_eq_append s
  refine ⟨blanks, hs, fun hmem => ?_, fun hmem => ?_⟩
  · exact absurd (hblanks _ hmem) (by decide)
  · exact absurd (hblanks _ hmem) (by decide)

/-- The words of a directive hold no hash and no bracket. -/
theorem dropWords?_eq_some (h : dropWords? s = some rest) :
    ∃ words, s = words ++ rest ∧ '#' ∉ words ∧ ']' ∉ words := by
  obtain ⟨after, hafter, hrest⟩ := Option.bind_eq_some_iff.1 h
  obtain ⟨blanks, hs, hhash, hbracket⟩ := hash_notMem_trimLeft s
  obtain ⟨blanks', hs', hhash', hbracket'⟩ := hash_notMem_trimLeft after
  obtain ⟨tool, htool, hname⟩ := dropWord?_eq_some hafter
  obtain ⟨verb, hverb, hname'⟩ := dropWord?_eq_some hrest
  have hfold : ∀ {c : Char} {spelling word : List Char}, spelling.map foldCase = word →
      foldCase c ∉ word → c ∉ spelling := fun hword hc hmem => hc (hword ▸ List.mem_map_of_mem hmem)
  refine ⟨blanks ++ tool ++ blanks' ++ verb, ?_, ?_, ?_⟩
  · rw [List.append_assoc, List.append_assoc, List.append_assoc, ← hverb, ← hs', ← htool, ← hs]
  · have htool' := hfold (c := '#') hname (by decide)
    have hverb' := hfold (c := '#') hname' (by decide)
    simp only [List.mem_append, not_or]
    exact ⟨⟨⟨hhash, htool'⟩, hhash'⟩, hverb'⟩
  · have htool' := hfold (c := ']') hname (by decide)
    have hverb' := hfold (c := ']') hname' (by decide)
    simp only [List.mem_append, not_or]
    exact ⟨⟨⟨hbracket, htool'⟩, hbracket'⟩, hverb'⟩

/-- A list that is not closed takes all of the text, which then has no closing bracket. -/
theorem bracketed?_eq_some (h : bracketed? s = some (body, closed, rest)) :
    ']' ∉ body ∧ ∃ blanks, '#' ∉ blanks ∧ ']' ∉ blanks ∧
      ((closed = true ∧ s = blanks ++ '[' :: (body ++ ']' :: rest)) ∨
        (closed = false ∧ s = blanks ++ '[' :: body ∧ rest = [])) := by
  obtain ⟨blanks, hs, hhash, hbracket⟩ := hash_notMem_trimLeft s
  rw [bracketed?] at h
  split at h
  next after htrim =>
    simp only [Option.some.injEq, Prod.mk.injEq] at h
    obtain ⟨hbody, hclosed, hrest⟩ := h
    have hafter : body ++ after.dropWhile (· != ']') = after := by
      rw [← hbody]
      exact List.takeWhile_append_dropWhile
    have hnot : ']' ∉ body := by
      intro hmem
      rw [← hbody] at hmem
      simpa using List.mem_takeWhile_imp hmem
    rw [hbody] at hclosed hrest
    rw [htrim] at hs
    refine ⟨hnot, blanks, hhash, hbracket, ?_⟩
    cases htail : after.dropWhile (· != ']') with
    | nil =>
        rw [htail, List.append_nil] at hafter
        obtain rfl := hafter
        exact .inr ⟨by simp [← hclosed], hs, by simp [← hrest]⟩
    | cons c tail =>
        have hc : c = ']' := by
          have := List.head?_dropWhile_not (· != ']') after
          simpa [htail] using this
        rw [htail, hc] at hafter
        rw [← hafter] at hclosed hrest hs
        have htail' : rest = tail := by simp [← hrest]
        exact .inl ⟨by simp [← hclosed], by rw [htail']; exact hs⟩
  next => nomatch h

/-! ## One reading against the other -/

/-- The list that the stricter reading takes of an occurrence. -/
def Occurrence.list? : Occurrence → Option (List Char)
  | .bare => none
  | .list body closed => if closed && !body.isEmpty then some body else none

theorem bracketed?_of_isWord {c : Char} (hc : Text.isWord c = true) (s : List Char) :
    bracketed? (c :: s) = none := by
  have hblank : Text.isBlank c = false := by
    by_contra h
    have := Text.isWord_of_isBlank (Bool.eq_true_of_not_eq_false h)
    simp [hc] at this
  rw [bracketed?, Text.trimLeft, List.dropWhile_cons_of_neg (by simp [hblank])]
  split
  next heq =>
    rw [(List.cons.inj heq).1] at hc
    exact absurd hc (by decide)
  next => rfl

/-- The stricter reading finds what the more generous one finds, if that is a list for it. -/
theorem directive?_eq (s : List Char) :
    directive? s = (occurrence? s).bind fun hit => hit.1.list?.map (·, hit.2) := by
  rw [directive?, occurrence?]
  cases hwords : dropWords? s with
  | none => rfl
  | some t =>
      simp only [Option.bind_eq_bind, Option.bind_some]
      cases hhead : (t.head?.map Text.isWord).getD false with
      | true =>
          -- The word goes on, so no bracket follows it.
          obtain ⟨c, t, rfl⟩ : ∃ c after, t = c :: after := by
            cases t with
            | nil => nomatch hhead
            | cons c after => exact ⟨c, after, rfl⟩
          rw [bracketed?_of_isWord hhead]
          rfl
      | false =>
          cases bracketed? t with
          | none => rfl
          | some hit =>
              obtain ⟨body, closed, rest⟩ := hit
              simp only [Option.bind_some, Option.pure_def, Bool.false_eq_true, if_false,
                Occurrence.list?]
              split <;> rfl

/-- What the more generous reading takes ends with it, and either no directive begins inside or
nothing is closed any more. -/
theorem occurrence?_eq_some (h : occurrence? s = some (o, rest)) :
    ∃ skipped, s = skipped ++ rest ∧
      (o.list? = none → '#' ∉ skipped ∨ rest = [] ∧ ']' ∉ s) := by
  obtain ⟨t, hwords, hread⟩ := Option.bind_eq_some_iff.1 h
  obtain ⟨words, rfl, hhash, hbracket⟩ := dropWords?_eq_some hwords
  split at hread
  next => nomatch hread
  next =>
    split at hread
    next =>
      obtain ⟨rfl, rfl⟩ := Prod.mk.inj (Option.some.inj hread)
      exact ⟨words, rfl, fun _ => .inl hhash⟩
    next body closed after hlist =>
      obtain ⟨rfl, rfl⟩ := Prod.mk.inj (Option.some.inj hread)
      obtain ⟨hbody, blanks, hhash', hbracket', ⟨rfl, rfl⟩ | ⟨rfl, rfl, rfl⟩⟩ :=
        bracketed?_eq_some hlist
      · refine ⟨words ++ blanks ++ '[' :: (body ++ [']']), by simp, fun hnone => .inl ?_⟩
        have hempty : body = [] := by simpa [Occurrence.list?] using hnone
        simp [hempty, hhash, hhash']
      · refine ⟨words ++ (blanks ++ '[' :: body), by simp, fun _ => .inr ⟨rfl, ?_⟩⟩
        simp [hbracket, hbracket', hbody]

theorem mem_of_directive?_eq_some (h : directive? s = some (body, rest)) : ']' ∈ s := by
  obtain ⟨t, hwords, hread⟩ := Option.bind_eq_some_iff.1 h
  obtain ⟨⟨body, closed, after⟩, hlist, hread⟩ := Option.bind_eq_some_iff.1 hread
  obtain ⟨words, rfl, -, -⟩ := dropWords?_eq_some hwords
  obtain ⟨-, blanks, -, -, ⟨-, rfl⟩ | ⟨rfl, -, -⟩⟩ := bracketed?_eq_some hlist
  · simp
  · simp at hread

theorem hitsFrom_directive?_of_unclosed (hs : ']' ∉ s) (fuel i : Nat) :
    hitsFrom directive? fuel i s = [] := by
  fun_induction hitsFrom directive? fuel i s with
  | case1 => rfl
  | case2 => rfl
  | case3 fuel i c s hc body rest hread ih =>
      exact absurd (List.mem_cons_of_mem c (mem_of_directive?_eq_some hread)) hs
  | case4 fuel i c s hc hread ih => exact ih (List.not_mem_of_not_mem_cons hs)
  | case5 fuel i c s hc ih => exact ih (List.not_mem_of_not_mem_cons hs)

/-- The two readings find the same lists at the same places of a text, whatever fuel they have to
spare. -/
def InStep (s : List Char) : Prop :=
  ∀ fuel fuel' i, s.length < fuel → s.length < fuel' →
    hitsFrom directive? fuel i s =
      (hitsFrom occurrence? fuel' i s).filterMap fun hit => hit.2.list?.map (hit.1, ·)

theorem inStep_nil : InStep [] := by
  intro fuel fuel' i _ _
  rw [hitsFrom_nil, hitsFrom_nil, List.filterMap_nil]

theorem inStep_other {c : Char} (hc : c ≠ '#') (h : InStep s) : InStep (c :: s) := by
  rintro (_ | fuel) (_ | fuel') i hfuel hfuel'
  · nomatch hfuel
  · nomatch hfuel
  · nomatch hfuel'
  · rw [hitsFrom_other hc, hitsFrom_other hc]
    exact h _ _ _ (Nat.lt_of_succ_lt_succ hfuel) (Nat.lt_of_succ_lt_succ hfuel')

/-- Behind a hash both readings take a list, or the generous one takes something in which the strict
one finds nothing. -/
theorem inStep_hash (h : ∀ t : List Char, t.length ≤ s.length → InStep t) :
    InStep ('#' :: s) := by
  rintro (_ | fuel) (_ | fuel') i hfuel hfuel'
  · nomatch hfuel
  · nomatch hfuel
  · nomatch hfuel'
  replace hfuel := Nat.lt_of_succ_lt_succ hfuel
  replace hfuel' := Nat.lt_of_succ_lt_succ hfuel'
  have hstrict := directive?_eq s
  cases hread : occurrence? s with
  | none =>
      rw [hread, Option.bind_none] at hstrict
      rw [hitsFrom_miss hstrict, hitsFrom_miss hread]
      exact h s (Nat.le_refl _) _ _ _ hfuel hfuel'
  | some hit =>
      obtain ⟨o, rest⟩ := hit
      obtain ⟨skipped, rfl, hskipped⟩ := occurrence?_eq_some hread
      rw [hread, Option.bind_some] at hstrict
      rw [hitsFrom_hit hread]
      rw [List.length_append] at hfuel hfuel'
      have hrest : InStep rest := h rest (by simp)
      cases hlist : o.list? with
      | some body =>
          rw [hlist, Option.map_some] at hstrict
          rw [hitsFrom_hit hstrict, List.filterMap_cons_some (by rw [hlist]; rfl)]
          congr 1
          exact hrest _ _ _ (by omega) (by omega)
      | none =>
          rw [hlist, Option.map_none] at hstrict
          rw [hitsFrom_miss hstrict, List.filterMap_cons_none (by rw [hlist]; rfl)]
          rcases hskipped hlist with hhash | ⟨rfl, hbracket⟩
          · obtain ⟨spare, rfl⟩ := Nat.exists_eq_add_of_le (show skipped.length ≤ fuel by omega)
            rw [hitsFrom_append hhash]
            exact hrest _ _ _ (by omega) (by omega)
          · rw [hitsFrom_nil, List.filterMap_nil, hitsFrom_directive?_of_unclosed hbracket]

theorem inStep (s : List Char) : InStep s := by
  induction hlength : s.length using Nat.strongRecOn generalizing s with
  | ind length ih =>
      subst hlength
      cases s with
      | nil => exact inStep_nil
      | cons c s =>
          have hshorter : ∀ t : List Char, t.length ≤ s.length → InStep t := fun t ht =>
            ih t.length (Nat.lt_succ_of_le ht) t rfl
          by_cases hc : c = '#'
          · subst hc
            exact inStep_hash hshorter
          · exact inStep_other hc (hshorter s (Nat.le_refl _))

/-- The directives of a line are those occurrences that have a list, at the same places. -/
theorem directivesAt_eq (line : List Char) :
    directivesAt line = (occurrencesAt line).filterMap fun hit => hit.2.list?.map (hit.1, ·) :=
  inStep line _ _ 0 (Nat.lt_succ_self _) (Nat.lt_succ_self _)

/-! ## Lists without patterns -/

theorem patternsOf_eq_nil_iff :
    patternsOf body = [] ↔ (body.all fun c => Text.isBlank c || c == ',') = true := by
  have hsplit : (∀ part ∈ body.splitOn ',', ∀ c ∈ part, Text.isBlank c = true) ↔
      ∀ c ∈ body, Text.isBlank c = true ∨ c = ',' := forall_mem_splitOn body
  simp only [patternsOf, List.map_eq_nil_iff, List.filter_eq_nil_iff, List.forall_mem_map,
    Bool.not_eq_true', Bool.not_eq_false, List.isEmpty_iff, Text.trim_eq_nil_iff, List.all_eq_true,
    Bool.or_eq_true, beq_iff_eq]
  exact hsplit

/-- An occurrence has no mistake exactly if it has a list with patterns. -/
theorem Occurrence.mistake?_eq_none_iff (o : Occurrence) :
    o.mistake? = none ↔ ∃ body, o.list? = some body ∧ patternsOf body ≠ [] := by
  cases o with
  | bare => simp [mistake?, list?]
  | list body closed =>
      cases closed with
      | false => simp [mistake?, list?]
      | true =>
          cases body with
          | nil => simp [mistake?, list?]
          | cons c body =>
              have hlist : (Occurrence.list (c :: body) true).list? = some (c :: body) := rfl
              have hmistake : (Occurrence.list (c :: body) true).mistake? = none ↔
                  ¬((c :: body).all fun c => Text.isBlank c || c == ',') = true := by
                rw [mistake?]
                split <;> simp_all
              rw [hmistake, ← patternsOf_eq_nil_iff, hlist]
              simp only [Option.some.injEq, exists_eq_left', ne_eq]

/-! ## Reports and patterns of a line -/

/-- Whether a pattern comes from what stands at a place of a line. -/
def Extracts (line : List Char) (i : Nat) (pattern : String) : Prop :=
  ∃ body, (i, body) ∈ directivesAt line ∧ pattern ∈ patternsOf body

theorem mem_directivesAt_iff (i : Nat) (body : List Char) :
    (i, body) ∈ directivesAt line ↔
      ∃ o, (i, o) ∈ occurrencesAt line ∧ o.list? = some body := by
  rw [directivesAt_eq, List.mem_filterMap]
  constructor
  · rintro ⟨⟨j, o⟩, hmem, hhit⟩
    obtain ⟨body', hlist, heq⟩ := Option.map_eq_some_iff.1 hhit
    obtain ⟨rfl, rfl⟩ := Prod.mk.inj heq
    exact ⟨o, hmem, hlist⟩
  · rintro ⟨o, hmem, hlist⟩
    exact ⟨_, hmem, by rw [hlist]; rfl⟩

/-- At one place of a line stands one occurrence. -/
theorem occurrence_unique {o' : Occurrence} (h : (i, o) ∈ occurrencesAt line)
    (h' : (i, o') ∈ occurrencesAt line) : o' = o := by
  have hplaces : ((occurrencesAt line).map (·.1)).Nodup :=
    (List.pairwise_map.2 (pairwise_hitsFrom occurrence? _ 0 line)).imp Nat.ne_of_lt
  exact (Prod.mk.inj (List.inj_on_of_nodup_map hplaces h' h rfl)).2

theorem mistake?_eq_none_iff_extracts (h : (i, o) ∈ occurrencesAt line) :
    o.mistake? = none ↔ ∃ pattern, Extracts line i pattern := by
  rw [Occurrence.mistake?_eq_none_iff]
  constructor
  · rintro ⟨body, hlist, hpatterns⟩
    obtain ⟨pattern, hpattern⟩ := List.exists_mem_of_ne_nil _ hpatterns
    exact ⟨pattern, body, (mem_directivesAt_iff i body).2 ⟨o, h, hlist⟩, hpattern⟩
  · rintro ⟨pattern, body, hbody, hpattern⟩
    obtain ⟨o', ho', hlist⟩ := (mem_directivesAt_iff i body).1 hbody
    obtain rfl := occurrence_unique h ho'
    exact ⟨body, hlist, List.ne_nil_of_mem hpattern⟩

/-- The patterns of a line are those that come from its places. -/
theorem mem_linePatterns_iff_extracts {pattern : String} :
    pattern ∈ linePatterns line ↔ ∃ i, Extracts line i pattern := by
  rw [mem_linePatterns, Lists, ← hitsFrom_directive? _ 0 line]
  constructor
  · rintro ⟨body, hbody, hpattern⟩
    obtain ⟨⟨i, body⟩, hmem, rfl⟩ := List.mem_map.1 hbody
    exact ⟨i, body, hmem, hpattern⟩
  · rintro ⟨i, body, hmem, hpattern⟩
    exact ⟨body, List.mem_map_of_mem hmem, hpattern⟩

theorem ne_empty_of_extracts {pattern : String} (h : Extracts line i pattern) : pattern ≠ "" := by
  obtain ⟨body, -, hpattern⟩ := h
  obtain ⟨part, hpart, rfl⟩ := List.mem_map.1 hpattern
  have hnonempty : part ≠ [] := by simpa using (List.mem_filter.1 hpart).2
  exact fun hempty => hnonempty (by simpa using hempty)

variable {text : String} {k : Nat}

/-- What is reported for a line, given with its number counted from zero. -/
def reportsOf (entry : List Char × Nat) : List (Nat × Mistake) :=
  (occurrencesAt entry.1).filterMap fun hit => hit.2.mistake?.map fun m => (entry.2 + 1, m)

theorem mistakes_eq_flatMap (text : String) :
    mistakes text = (linesOf text).zipIdx.flatMap reportsOf := by
  rw [mistakes, List.mapIdx_eq_zipIdx_map, List.flatMap_def]
  congr 2
  funext ⟨line, k⟩
  dsimp only
  rw [reportsOf, occurrencesAt, ← hitsFrom_occurrence? _ 0 line, List.filterMap_map]
  rfl

theorem line_of_mem_reportsOf {entry : List Char × Nat} {report : Nat × Mistake}
    (h : report ∈ reportsOf entry) : report.1 = entry.2 + 1 := by
  obtain ⟨hit, -, hmistake⟩ := List.mem_filterMap.1 h
  obtain ⟨m, -, rfl⟩ := Option.map_eq_some_iff.1 hmistake
  rfl

/-- Different lines have different numbers. -/
theorem nodup_numbers (lines : List (List Char)) :
    (lines.zipIdx.map fun entry => entry.2 + 1).Nodup := by
  have hmap : (lines.zipIdx.map fun entry => entry.2 + 1) =
      (List.range' 0 lines.length).map (· + 1) := by
    rw [← List.zipIdx_map_snd, List.map_map]
    rfl
  rw [hmap]
  exact (List.nodup_range' 1).map fun _ _ => Nat.succ.inj

/-- The mistakes reported for a line are those of its occurrences, one after the other. -/
theorem mistakes_of_line (hline : (linesOf text)[k]? = some line) :
    (mistakes text).filter (·.1 == k + 1) =
      (occurrencesAt line).filterMap fun hit => hit.2.mistake?.map fun m => (k + 1, m) := by
  have hentry : (line, k) ∈ (linesOf text).zipIdx := List.mk_mem_zipIdx_iff_getElem?.2 hline
  rw [mistakes_eq_flatMap]
  exact filter_flatMap_name (fun _ _ => line_of_mem_reportsOf) (nodup_numbers _) hentry

theorem mistakes_of_line_eq_nil_iff (hline : (linesOf text)[k]? = some line) :
    (∀ m, (k + 1, m) ∉ mistakes text) ↔ ∀ i o, (i, o) ∈ occurrencesAt line → o.mistake? = none := by
  have hreports : (∀ m, (k + 1, m) ∉ mistakes text) ↔
      (mistakes text).filter (·.1 == k + 1) = [] := by
    rw [List.filter_eq_nil_iff]
    constructor
    · rintro h ⟨number, m⟩ hmem hnumber
      obtain rfl : number = k + 1 := beq_iff_eq.1 hnumber
      exact h m hmem
    · exact fun h m hmem => h _ hmem (beq_self_eq_true _)
  rw [hreports, mistakes_of_line hline, List.filterMap_eq_nil_iff]
  simp only [Option.map_eq_none_iff, Prod.forall]

/-- The reports of a line are the mistakes of its occurrences, and an occurrence, which stands
behind a hash, has a mistake exactly if no pattern comes from it.  So a line is reported nothing
exactly if every occurrence on it adds a pattern to those of the line, and each of these patterns
comes from an occurrence without a mistake. -/
theorem mistakes_iff_extracts_none (text : String) (k : Nat) (s : List Char)
    (hline : (linesOf text)[k]? = some s) :
    (mistakes text).filter (·.1 == k + 1) =
      ((occurrencesAt s).filterMap fun hit => hit.2.mistake?.map fun m => (k + 1, m)) ∧
    (∀ i o, (i, o) ∈ occurrencesAt s →
      (s[i]? = some '#' ∧ ∃ rest, occurrence? (s.drop (i + 1)) = some (o, rest)) ∧
      (o.mistake?.isSome ↔ ¬∃ pattern, Extracts s i pattern)) ∧
    ((∀ m, (k + 1, m) ∉ mistakes text) ↔ ∀ i o, (i, o) ∈ occurrencesAt s →
      ∃ pattern, pattern ≠ "" ∧ Extracts s i pattern ∧
        pattern ∈ ((ofText text).lines.lookup (k + 1)).getD []) ∧
    ∀ pattern ∈ ((ofText text).lines.lookup (k + 1)).getD [],
      ∃ i o, (i, o) ∈ occurrencesAt s ∧ Extracts s i pattern ∧ o.mistake? = none := by
  rw [lookup_lines hline]
  refine ⟨mistakes_of_line hline, fun i o h => ⟨?_, ?_⟩, ?_, fun pattern hpattern => ?_⟩
  · have hsuffix : ∀ {s : List Char} {o : Occurrence} {rest : List Char},
        occurrence? s = some (o, rest) → rest <:+ s := fun hread =>
      have ⟨skipped, hs, _⟩ := occurrence?_eq_some hread
      ⟨skipped, hs.symm⟩
    have hstart : 0 = ([] : List Char).length := rfl
    exact read_of_mem_hitsFrom hsuffix hstart h
  · rw [← mistake?_eq_none_iff_extracts h, ← ne_eq, Option.isSome_iff_ne_none]
  · rw [mistakes_of_line_eq_nil_iff hline]
    refine forall₃_congr fun i o h => ?_
    rw [mistake?_eq_none_iff_extracts h]
    refine exists_congr fun pattern => ⟨fun hextracts => ?_, fun hextracts => hextracts.2.1⟩
    exact ⟨ne_empty_of_extracts hextracts, hextracts,
      mem_linePatterns_iff_extracts.2 ⟨i, hextracts⟩⟩
  · obtain ⟨i, hextracts⟩ := mem_linePatterns_iff_extracts.1 hpattern
    obtain ⟨body, hbody, -⟩ := id hextracts
    obtain ⟨o, ho, -⟩ := (mem_directivesAt_iff i body).1 hbody
    exact ⟨i, o, ho, hextracts, (mistake?_eq_none_iff_extracts ho).2 ⟨pattern, hextracts⟩⟩

/-- A line with a list, a directive without one, an empty list and a list that is not closed. -/
def mixedLine : String :=
  "# treecop: ignore[a] # Treecop:ignore # treecop: ignore [ , ] # treecop: ignore[b # treecop"

theorem mistakes_iff_extracts_none_mixed :
    (linesOf mixedLine)[0]? = some mixedLine.toList ∧
    mistakes mixedLine = [(1, .noList), (1, .empty), (1, .unclosed)] ∧
    (62, .list "b # treecop".toList false) ∈ occurrencesAt mixedLine.toList ∧
    (¬∃ pattern, Extracts mixedLine.toList 62 pattern) ∧
    ∃ i o, (i, o) ∈ occurrencesAt mixedLine.toList ∧ Extracts mixedLine.toList i "a" ∧
      o.mistake? = none := by
  have hline : (linesOf mixedLine)[0]? = some mixedLine.toList := by decide +kernel
  have hunclosed : (62, .list "b # treecop".toList false) ∈ occurrencesAt mixedLine.toList := by
    decide +kernel
  obtain ⟨-, hreported, -, hpatterns⟩ := mistakes_iff_extracts_none mixedLine 0 _ hline
  exact ⟨hline, by decide +kernel, hunclosed, (hreported _ _ hunclosed).2.1 rfl,
    hpatterns "a" (by decide +kernel)⟩

end RubyLint.Suppression
