import Mathlib.Data.List.Infix
import RubyLint.Proofs.Pattern.Captures

/-!
# Capture marks

The capture marks of a description are those of the compiled pattern, and on any choice of branches
they are as many as the pattern captures values.  A match gives a value to just the names that are
written outside the branches it does not take.  There is one exception: of several marks in front of
one rest marker only the first is kept.
-/

namespace RubyLint.Pattern

variable {scope : Scope} {inSequence : Bool} {ts : List Token} {setting : Setting}
variable {p : Pattern} {ps items : List Pattern} {c : Cursor} {children : List Cursor}
variable {entries first second : Entries} {kept taken : List (Option String)}

/-! ## Marks as they are written -/

def Token.mark? (t : Token) : Option (Option String) :=
  match t.kind with
  | .capture name => some name
  | _ => none

/-- No rest marker has two capture marks in front of it. -/
def Unstacked (ts : List Token) : Prop :=
  ∀ s t u, [s, t, u] <:+: ts → s.mark?.isSome → t.mark?.isSome → u.kind ≠ .rest

theorem Unstacked.of_infix {inner : List Token} (h : Unstacked ts) (hinner : inner <:+: ts) :
    Unstacked inner :=
  fun s t u htokens => h s t u (htokens.trans hinner)

instance (ts : List Token) : Decidable (Unstacked ts) :=
  decidable_of_iff (∀ tail ∈ ts.tails, ∀ s ∈ tail[0]?, ∀ t ∈ tail[1]?, ∀ u ∈ tail[2]?,
    s.mark?.isSome → t.mark?.isSome → u.kind ≠ .rest) <| by
  constructor
  · rintro h s t u ⟨before, after, rfl⟩
    refine h ([s, t, u] ++ after) ((List.mem_tails _ _).2 ?_) s rfl t rfl u rfl
    exact List.append_assoc before [s, t, u] after ▸ List.suffix_append before _
  · intro h tail htail s hs t ht u hu
    refine h s t u (.trans ?_ ((List.mem_tails _ _).1 htail).isInfix)
    match tail with
    | s' :: t' :: u' :: others =>
        obtain rfl : s' = s := by simpa using hs
        obtain rfl : t' = t := by simpa using ht
        obtain rfl : u' = u := by simpa using hu
        exact (List.prefix_append [s', t', u'] others).isInfix

mutual

/-- The capture marks of a pattern, as they are written from left to right. -/
def marks : Pattern → List (Option String)
  | .rest _ mark => mark.toList
  | .capture name body => name :: body.marks
  | .negation body => body.marks
  | .choice _ branches => marksOfAll branches
  | .node _ _ items => marksOfAll items
  | _ => []

def marksOfAll : List Pattern → List (Option String)
  | [] => []
  | p :: ps => p.marks ++ marksOfAll ps

end

@[simp]
theorem mark?_of_kind {t : Token} {name : Option String} (h : t.kind = .capture name) :
    t.mark? = some name := by
  rw [Token.mark?, h]

theorem mark?_eq_none {t : Token} (h : ∀ name, t.kind ≠ .capture name) : t.mark? = none := by
  rw [Token.mark?]
  split
  next name hkind => exact absurd hkind (h name)
  next => rfl

/-- A rest marker is derived from its token, or from a capture mark in front of another. -/
theorem rest_cases {source : String} {mark : Option (Option String)}
    (h : Derives scope inSequence ts (.rest source mark)) :
    (∃ r, ts = [r] ∧ r.kind = .rest ∧ mark = none) ∨
      ∃ t following name source' mark', ts = t :: following ∧ t.kind = .capture name ∧
        mark = some name ∧ Derives scope inSequence following (.rest source' mark') := by
  generalize hp : Pattern.rest source mark = p at h
  cases h with
  | rest ht =>
      obtain ⟨-, rfl⟩ := Pattern.rest.inj hp
      exact .inl ⟨_, rfl, ht, rfl⟩
  | @capture _ t name following body ht hbody =>
      cases body with
      | rest source' mark' =>
          obtain ⟨-, rfl⟩ := Pattern.rest.inj hp
          exact .inr ⟨t, following, name, source', mark', rfl, ht, rfl, hbody⟩
      | _ => nomatch hp
  | _ => nomatch hp

/-- Where marks are not stacked, what stands behind the mark of a captured rest marker is the bare
marker. -/
theorem bare_of_unstacked {t : Token} {name : Option String} {source : String}
    {mark : Option (Option String)} (h : Derives scope inSequence ts (.rest source mark))
    (ht : t.kind = .capture name) (hstack : Unstacked (t :: ts))
    (hmarks : mark.toList = ts.filterMap Token.mark?) : mark = none := by
  rcases rest_cases h with ⟨-, -, -, rfl⟩ | ⟨s, others, name', _, _, rfl, hs, rfl, hothers⟩
  · rfl
  -- The mark of `s` is all there is, so the marker stands right behind it.
  rcases rest_cases hothers with ⟨r, rfl, hr, -⟩ | ⟨s', _, _, _, _, rfl, hs', -, -⟩
  · exact absurd hr (hstack t s r List.infix_rfl (by simp [ht]) (by simp [hs]))
  · simp [mark?_of_kind hs, mark?_of_kind hs'] at hmarks

theorem marks_captured {t : Token} {name : Option String} (h : Derives scope inSequence ts p)
    (ht : t.kind = .capture name) (hstack : Unstacked (t :: ts))
    (hmarks : p.marks = ts.filterMap Token.mark?) :
    (captured name p).marks = (t :: ts).filterMap Token.mark? := by
  rw [List.filterMap_cons_some (mark?_of_kind ht), ← hmarks]
  cases p with
  | rest source mark =>
      obtain rfl := bare_of_unstacked h ht hstack hmarks
      rfl
  | _ => rfl

mutual

/-- Every capture mark of a derived sequence is a mark of the pattern. -/
theorem Derives.marks_eq : ∀ {inSequence : Bool} {ts : List Token} {p : Pattern},
    Derives scope inSequence ts p → Unstacked ts → p.marks = ts.filterMap Token.mark?
  | _, _, _, .node hopening hhead _ hitems _ hclosing, hstack => by
      rw [marks, hitems.marks_eq (hstack.of_infix ⟨[_, _], [_], rfl⟩)]
      simp [mark?_eq_none, hopening, hhead, hclosing]
  | _, _, _, .choice hopening hbranches _ _ hclosing, hstack => by
      rw [marks, hbranches.marks_eq (hstack.of_infix ⟨[_], [_], rfl⟩)]
      simp [mark?_eq_none, hopening, hclosing]
  | _, _, _, .capture ht hbody, hstack =>
      marks_captured hbody ht hstack
        (hbody.marks_eq (hstack.of_infix (List.suffix_cons _ _).isInfix))
  | _, _, _, .negation ht hbody _, hstack => by
      rw [marks, hbody.marks_eq (hstack.of_infix (List.suffix_cons _ _).isInfix),
        List.filterMap_cons_none (mark?_eq_none (by simp [ht]))]
  | _, _, _, .rest ht, _ => by simp [marks, mark?_eq_none, ht]
  | _, _, _, .string ht, _ => by simp [marks, mark?_eq_none, ht]
  | _, _, _, .symbol ht, _ => by simp [marks, mark?_eq_none, ht]
  | _, _, _, .number ht, _ => by simp [marks, mark?_eq_none, ht]
  | _, _, _, .predicate ht _, _ => by simp [marks, mark?_eq_none, ht]
  | _, _, _, .any ht _, _ => by simp [marks, mark?_eq_none, ht]
  | _, _, _, .kind ht _ _, _ => by simp [marks, mark?_eq_none, ht]

theorem DerivesAll.marks_eq : ∀ {inSequence : Bool} {ts : List Token} {ps : List Pattern},
    DerivesAll scope inSequence ts ps → Unstacked ts → marksOfAll ps = ts.filterMap Token.mark?
  | _, _, _, .nil, _ => rfl
  | _, _, _, .cons hfirst hrest, hstack => by
      rw [marksOfAll, List.filterMap_append,
        hfirst.marks_eq (hstack.of_infix (List.prefix_append _ _).isInfix),
        hrest.marks_eq (hstack.of_infix (List.suffix_append _ _).isInfix)]

end

/-! ## One branch of every choice -/

mutual

/-- The marks that are left of a pattern when one branch of every choice is kept. -/
def Keeps : Pattern → List (Option String) → Prop
  | .rest _ mark, kept => kept = mark.toList
  | .capture name body, kept => ∃ inner, Keeps body inner ∧ kept = name :: inner
  | .negation body, kept => Keeps body kept
  | .choice _ branches, kept => KeepsOne branches kept
  | .node _ _ items, kept => KeepsAll items kept
  | _, kept => kept = []

/-- The marks that are left when one of some branches is kept. -/
def KeepsOne : List Pattern → List (Option String) → Prop
  | [], _ => False
  | p :: ps, kept => Keeps p kept ∨ KeepsOne ps kept

def KeepsAll : List Pattern → List (Option String) → Prop
  | [], kept => kept = []
  | p :: ps, kept => ∃ first rest, Keeps p first ∧ KeepsAll ps rest ∧ kept = first ++ rest

end

theorem keepsOne_iff : KeepsOne ps kept ↔ ∃ q ∈ ps, Keeps q kept := by
  induction ps with
  | nil => simp [KeepsOne]
  | cons p ps ih => simp [KeepsOne, ih]

mutual

theorem Keeps.sublist : ∀ (p : Pattern) {kept : List (Option String)}, Keeps p kept →
    kept.Sublist p.marks
  | .any, _, h | .kind _, _, h | .literal _ _, _, h | .predicate _, _, h | .rest _ _, _, h => by
      obtain rfl := h
      exact List.Sublist.refl _
  | .capture _ body, _, h => by
      obtain ⟨inner, hinner, rfl⟩ := h
      exact (Keeps.sublist body hinner).cons_cons _
  | .negation body, _, h => Keeps.sublist body h
  | .choice _ branches, _, h => KeepsOne.sublist branches h
  | .node _ _ items, _, h => KeepsAll.sublist items h

theorem KeepsOne.sublist : ∀ (ps : List Pattern) {kept : List (Option String)}, KeepsOne ps kept →
    kept.Sublist (marksOfAll ps)
  | [], _, h => h.elim
  | p :: ps, _, h => by
      rcases h with h | h
      · exact (Keeps.sublist p h).trans (List.sublist_append_left _ _)
      · exact (KeepsOne.sublist ps h).trans (List.sublist_append_right _ _)

theorem KeepsAll.sublist : ∀ (ps : List Pattern) {kept : List (Option String)}, KeepsAll ps kept →
    kept.Sublist (marksOfAll ps)
  | [], _, h => by
      obtain rfl := h
      exact List.Sublist.refl _
  | p :: ps, _, h => by
      obtain ⟨first, rest, hfirst, hrest, rfl⟩ := h
      exact (Keeps.sublist p hfirst).append (KeepsAll.sublist ps hrest)

end

theorem exists_keepsAll (h : ∀ q ∈ items, ∃ kept, Keeps q kept) : ∃ kept, KeepsAll items kept := by
  induction items with
  | nil => exact ⟨[], rfl⟩
  | cons p items ih =>
      obtain ⟨hp, hitems⟩ := List.forall_mem_cons.1 h
      obtain ⟨first, hfirst⟩ := hp
      obtain ⟨others, hothers⟩ := ih hitems
      exact ⟨first ++ others, first, others, hfirst, hothers, rfl⟩

theorem exists_keeps_captured (h : ∃ kept, Keeps p kept) (name : Option String) :
    ∃ kept, Keeps (captured name p) kept := by
  obtain ⟨inner, hinner⟩ := h
  cases p <;> first | exact ⟨_, rfl⟩ | exact ⟨_, inner, hinner, rfl⟩

mutual

/-- No choice is without a branch to keep. -/
theorem Derives.exists_keeps : ∀ {inSequence : Bool} {ts : List Token} {p : Pattern},
    Derives scope inSequence ts p → ∃ kept, Keeps p kept
  | _, _, _, .node _ _ _ hitems _ _ => exists_keepsAll hitems.exists_keeps
  | _, _, _, .choice _ hbranches hne _ _ => by
      obtain ⟨q, hq⟩ := List.exists_mem_of_ne_nil _ hne
      obtain ⟨kept, hkept⟩ := hbranches.exists_keeps q hq
      exact ⟨kept, keepsOne_iff.2 ⟨q, hq, hkept⟩⟩
  | _, _, _, .capture _ hbody => exists_keeps_captured hbody.exists_keeps _
  | _, _, _, .negation _ hbody _ => hbody.exists_keeps
  | _, _, _, .rest _ | _, _, _, .string _ | _, _, _, .symbol _ | _, _, _, .number _
  | _, _, _, .predicate _ _ | _, _, _, .any _ _ | _, _, _, .kind _ _ _ => ⟨_, rfl⟩

theorem DerivesAll.exists_keeps : ∀ {inSequence : Bool} {ts : List Token} {ps : List Pattern},
    DerivesAll scope inSequence ts ps → ∀ q ∈ ps, ∃ kept, Keeps q kept
  | _, _, _, .nil => by simp
  | _, _, _, .cons hfirst hrest => List.forall_mem_cons.2 ⟨hfirst.exists_keeps, hrest.exists_keeps⟩

end

/-- A pattern of which, whichever branches are kept, every mark that is left counts. -/
def MarksCount (p : Pattern) : Prop :=
  ∀ kept, Keeps p kept → kept.length = p.captures

theorem length_of_keepsAll (hitems : ∀ q ∈ items, MarksCount q) (h : KeepsAll items kept) :
    kept.length = capturesOfAll items := by
  induction items generalizing kept with
  | nil => exact congrArg List.length h
  | cons p items ih =>
      obtain ⟨hp, hitems⟩ := List.forall_mem_cons.1 hitems
      obtain ⟨first, others, hfirst, hothers, rfl⟩ := h
      rw [List.length_append, hp first hfirst, ih hitems hothers, capturesOfAll]

theorem MarksCount.captured (h : MarksCount p) (name : Option String) :
    MarksCount (captured name p) := by
  intro kept hkept
  cases p with
  | rest source mark =>
      obtain rfl := hkept
      rfl
  | _ =>
      obtain ⟨inner, hinner, rfl⟩ := hkept
      exact congrArg (· + 1) (h inner hinner)

mutual

theorem Derives.marksCount : ∀ {inSequence : Bool} {ts : List Token} {p : Pattern},
    Derives scope inSequence ts p → MarksCount p
  | _, _, _, .node _ _ _ hitems _ _ => fun _ h => length_of_keepsAll hitems.marksCount h
  | _, _, _, .choice _ hbranches _ heven _ => fun kept h => by
      obtain ⟨q, hq, hkept⟩ := keepsOne_iff.1 h
      exact (hbranches.marksCount q hq kept hkept).trans (captures_of_even heven hq)
  | _, _, _, .capture _ hbody => hbody.marksCount.captured _
  | _, _, _, .negation _ hbody hnone => fun kept h => (hbody.marksCount kept h).trans hnone
  | _, _, _, .rest _ | _, _, _, .string _ | _, _, _, .symbol _ | _, _, _, .number _
  | _, _, _, .predicate _ _ | _, _, _, .any _ _ | _, _, _, .kind _ _ _ =>
      fun _ h => congrArg List.length h

theorem DerivesAll.marksCount : ∀ {inSequence : Bool} {ts : List Token} {ps : List Pattern},
    DerivesAll scope inSequence ts ps → ∀ q ∈ ps, MarksCount q
  | _, _, _, .nil => by simp
  | _, _, _, .cons hfirst hrest => List.forall_mem_cons.2 ⟨hfirst.marksCount, hrest.marksCount⟩

end

/-! ## The branches that are taken -/

mutual

/-- The marks of a pattern outside the branches that are not taken when it is matched against a
node.  The branch that is taken is the first that has a result. -/
def Takes (setting : Setting) : Pattern → Cursor → List (Option String) → Prop
  | .rest _ mark, _, taken => taken = mark.toList
  | .capture name body, c, taken => ∃ inner, Takes setting body c inner ∧ taken = name :: inner
  | .negation body, _, taken => Keeps body taken
  | .choice _ branches, c, taken => TakesFirst setting branches c taken
  | .node _ _ items, c, taken => TakesAll setting items c.namedChildren taken
  | _, _, taken => taken = []

def TakesFirst (setting : Setting) : List Pattern → Cursor → List (Option String) → Prop
  | [], _, _ => False
  | p :: ps, c, taken => (∃ b, run setting p c = .ok (some b)) ∧ Takes setting p c taken ∨
    run setting p c = .ok none ∧ TakesFirst setting ps c taken

/-- The marks of items that are matched against children: a rest marker takes those that the other
items leave, any other item one. -/
def TakesAll (setting : Setting) : List Pattern → List Cursor → List (Option String) → Prop
  | [], _, taken => taken = []
  | .rest _ mark :: items, children, taken => ∃ after,
    TakesAll setting items (children.drop (children.length - fixedCount items)) after ∧
      taken = mark.toList ++ after
  | p :: items, children, taken => ∃ c others first after, children = c :: others ∧
    Takes setting p c first ∧ TakesAll setting items others after ∧ taken = first ++ after

end

theorem takesAll_fixed (h : p.isRest = false) :
    TakesAll setting (p :: items) children taken ↔ ∃ c others first after, children = c :: others ∧
      Takes setting p c first ∧ TakesAll setting items others after ∧ taken = first ++ after := by
  cases p <;> first | rfl | simp [isRest] at h

mutual

theorem Takes.keeps (setting : Setting) : ∀ (p : Pattern) {c : Cursor}
    {taken : List (Option String)}, Takes setting p c taken → Keeps p taken
  | .any, _, _, h | .kind _, _, _, h | .literal _ _, _, _, h | .predicate _, _, _, h
  | .rest _ _, _, _, h | .negation _, _, _, h => h
  | .capture _ body, _, _, h => by
      obtain ⟨inner, hinner, rfl⟩ := h
      exact ⟨inner, Takes.keeps setting body hinner, rfl⟩
  | .choice _ branches, _, _, h => TakesFirst.keeps setting branches h
  | .node _ _ items, _, _, h => TakesAll.keeps setting items h

theorem TakesFirst.keeps (setting : Setting) : ∀ (ps : List Pattern) {c : Cursor}
    {taken : List (Option String)}, TakesFirst setting ps c taken → KeepsOne ps taken
  | [], _, _, h => h.elim
  | p :: ps, _, _, h => h.imp
      (fun h => Takes.keeps setting p h.2) (fun h => TakesFirst.keeps setting ps h.2)

theorem TakesAll.keeps (setting : Setting) : ∀ (items : List Pattern) {children : List Cursor}
    {taken : List (Option String)}, TakesAll setting items children taken → KeepsAll items taken
  | [], _, _, h => h
  | p :: items, _, _, h => by
      cases hp : p.isRest with
      | true =>
          obtain ⟨source, mark, rfl⟩ := exists_of_isRest hp
          obtain ⟨after, hafter, rfl⟩ := h
          exact ⟨mark.toList, after, rfl, TakesAll.keeps setting items hafter, rfl⟩
      | false =>
          obtain ⟨c, others, first, after, rfl, hfirst, hafter, rfl⟩ := (takesAll_fixed hp).1 h
          exact ⟨first, after, Takes.keeps setting p hfirst,
            TakesAll.keeps setting items hafter, rfl⟩

end

/-! ## Names -/

/-- The entries give a value to just the names of some marks. -/
def Entries.Names (entries : Entries) (written : List (Option String)) : Prop :=
  ∀ name, (∃ value, (name, value) ∈ entries.named) ↔ some name ∈ written

namespace Entries

variable {written more : List (Option String)}

theorem names_empty : empty.Names [] := by
  simp [Names, empty]

theorem Names.append (hfirst : first.Names written) (hsecond : second.Names more) :
    (first.append second).Names (written ++ more) := by
  intro name
  rw [List.mem_append, ← hfirst name, ← hsecond name]
  simp [Entries.append, exists_or]

theorem Names.around (h : entries.Names written) (value : Capture) (mark : Option String) :
    (entries.around value mark).Names (mark :: written) := by
  intro name
  rw [List.mem_cons, ← h name]
  cases mark <;> simp [Entries.around, exists_or, or_comm, eq_comm]

theorem names_ofRun (mark : Option (Option String)) (run : List Cursor) :
    (ofRun mark run).Names mark.toList := by
  cases mark with
  | none => exact names_empty
  | some name => exact names_empty.around (.run run) name

end Entries

open Entries

theorem run_isSome_iff (h : p.wellPlaced = true) :
    (∃ b, run setting p c = .ok (some b)) ↔ ∃ entries, Matches setting p c entries := by
  rcases run_spec setting c h with ⟨entries, hentries, -, hrun⟩ | ⟨hnone, -, hrun⟩
  · exact ⟨fun _ => ⟨entries, hentries⟩, fun _ => ⟨_, hrun⟩⟩
  · simp [hrun, hnone]

theorem run_eq_none_iff (h : p.wellPlaced = true) :
    run setting p c = .ok none ↔ ∀ entries, ¬Matches setting p c entries := by
  rcases run_spec setting c h with ⟨entries, hentries, -, hrun⟩ | ⟨hnone, -, hrun⟩
  · simp only [hrun, Except.ok.injEq, reduceCtorEq, false_iff]
    exact fun hnone => hnone entries hentries
  · simp [hrun, hnone]

/-- Some marks are those taken of a pattern, and all of them give their names to a value. -/
def NamesTaken (takes : List (Option String) → Prop) (entries : Entries) : Prop :=
  (∃ taken, takes taken) ∧ ∀ taken, takes taken → entries.Names taken

/-- A match of a pattern names what is marked where it takes its branches. -/
def Naming (setting : Setting) (p : Pattern) : Prop :=
  ∀ c entries, Matches setting p c entries → NamesTaken (Takes setting p c) entries

theorem namesTaken_eq {written : List (Option String)} (h : entries.Names written) :
    NamesTaken (· = written) entries :=
  ⟨⟨written, rfl⟩, fun _ htaken => htaken ▸ h⟩

theorem namesTaken_first (hps : ∀ q ∈ ps, q.wellPlaced = true ∧ Naming setting q)
    (h : MatchesFirst setting ps c entries) :
    NamesTaken (TakesFirst setting ps c) entries := by
  induction ps with
  | nil => exact h.elim
  | cons p ps ih =>
      obtain ⟨⟨hplaced, hnaming⟩, hps⟩ := List.forall_mem_cons.1 hps
      rcases h with h | ⟨hnone, h⟩
      · obtain ⟨⟨taken, htaken⟩, hnames⟩ := hnaming c entries h
        refine ⟨⟨taken, .inl ⟨(run_isSome_iff hplaced).2 ⟨entries, h⟩, htaken⟩⟩, ?_⟩
        rintro other (hother | ⟨hfail, -⟩)
        · exact hnames other hother.2
        · exact absurd h ((run_eq_none_iff hplaced).1 hfail entries)
      · obtain ⟨⟨taken, htaken⟩, hnames⟩ := ih hps h
        refine ⟨⟨taken, .inr ⟨(run_eq_none_iff hplaced).2 hnone, htaken⟩⟩, ?_⟩
        rintro other (⟨hfound, -⟩ | hother)
        · obtain ⟨found, hfound⟩ := (run_isSome_iff hplaced).1 hfound
          exact absurd hfound (hnone found)
        · exact hnames other hother.2

theorem namesTaken_items (hitems : ∀ q ∈ items, q.isRest = false → Naming setting q)
    (hrest : (items.filter isRest).length ≤ 1) (h : MatchesItems setting items children entries) :
    NamesTaken (TakesAll setting items children) entries := by
  induction items generalizing children entries with
  | nil =>
      obtain ⟨rfl, rfl⟩ := h
      exact namesTaken_eq names_empty
  | cons p items ih =>
      obtain ⟨hp, hothers⟩ := List.forall_mem_cons.1 hitems
      cases hkind : p.isRest with
      | true =>
          obtain ⟨source, mark, rfl⟩ := exists_of_isRest hkind
          obtain ⟨hnone, hrest⟩ := only_rest hrest
          obtain ⟨run, others, after, rfl, hafter, rfl⟩ := h
          -- The marker takes the run, since the other items leave just that.
          have hdrop : (run ++ others).drop ((run ++ others).length - fixedCount items) =
              others := by
            rw [← hafter.length.2 hnone, List.length_append, Nat.add_sub_cancel, List.drop_left]
          obtain ⟨⟨taken, htaken⟩, hnames⟩ := ih hothers hrest hafter
          rw [← hdrop] at htaken hnames
          refine ⟨⟨_, taken, htaken, rfl⟩, ?_⟩
          rintro _ ⟨taken', htaken', rfl⟩
          exact (names_ofRun mark run).append (hnames taken' htaken')
      | false =>
          have hrest : (items.filter isRest).length ≤ 1 := by
            simpa [List.filter_cons, hkind] using hrest
          obtain ⟨d, others, own, after, rfl, hown, hafter, rfl⟩ := (matchesItems_fixed hkind).1 h
          obtain ⟨⟨first, hfirst⟩, hfirsts⟩ := hp hkind d own hown
          obtain ⟨⟨taken, htaken⟩, hnames⟩ := ih hothers hrest hafter
          refine ⟨⟨_, (takesAll_fixed hkind).2 ⟨d, others, first, taken, rfl, hfirst, htaken, rfl⟩⟩,
            fun all hall => ?_⟩
          obtain ⟨d', others', first', taken', heq, hfirst', htaken', rfl⟩ :=
            (takesAll_fixed hkind).1 hall
          obtain ⟨rfl, rfl⟩ := List.cons.inj heq
          exact (hfirsts first' hfirst').append (hnames taken' htaken')

theorem Naming.captured (h : p.isRest = false → Naming setting p) (name : Option String) :
    Naming setting (captured name p) := by
  intro c entries hmatches
  cases p with
  | rest source mark => exact hmatches.elim
  | _ =>
      obtain ⟨inner, hinner, rfl⟩ := hmatches
      obtain ⟨⟨taken, htaken⟩, hnames⟩ := h rfl c inner hinner
      refine ⟨⟨name :: taken, taken, htaken, rfl⟩, ?_⟩
      rintro _ ⟨taken', htaken', rfl⟩
      exact (hnames taken' htaken').around (.node c) name

mutual

theorem Derives.naming (setting : Setting) : ∀ {inSequence : Bool} {ts : List Token} {p : Pattern},
    Derives scope inSequence ts p → p.isRest = false → Naming setting p
  | _, _, _, .node _ _ _ hitems hrest _, _ => fun _ _ h =>
      namesTaken_items (hitems.naming setting) hrest h.2
  | _, _, _, .choice _ hbranches _ _ _, _ => fun _ _ h =>
      namesTaken_first (fun q hq =>
        have hplaced := (hbranches.placed q hq).wellPlaced
        ⟨hplaced, hbranches.naming setting q hq (isRest_of_wellPlaced hplaced)⟩) h
  | _, _, _, .capture _ hbody, _ => .captured (hbody.naming setting) _
  | _, _, _, .negation _ hbody hnone, _ => fun _ _ h => by
      refine ⟨hbody.exists_keeps, fun taken htaken => ?_⟩
      obtain rfl := List.length_eq_zero_iff.1 ((hbody.marksCount taken htaken).trans hnone)
      exact h.2 ▸ names_empty
  | _, _, _, .rest _, hfixed => by simp [isRest] at hfixed
  | _, _, _, .string _, _ | _, _, _, .symbol _, _ | _, _, _, .number _, _
  | _, _, _, .predicate _ _, _ | _, _, _, .kind _ _ _, _ => fun _ _ h =>
      namesTaken_eq (h.2 ▸ names_empty)
  | _, _, _, .any _ _, _ => fun _ _ h => namesTaken_eq (h ▸ names_empty)

theorem DerivesAll.naming (setting : Setting) : ∀ {inSequence : Bool} {ts : List Token}
    {ps : List Pattern}, DerivesAll scope inSequence ts ps →
      ∀ q ∈ ps, q.isRest = false → Naming setting q
  | _, _, _, .nil => by simp
  | _, _, _, .cons hfirst hrest =>
      List.forall_mem_cons.2 ⟨hfirst.naming setting, hrest.naming setting⟩

end

/-- The capture marks of a compiled pattern are those of its description, unless some of them are
stacked in front of a rest marker.  Whichever branch of every choice is kept, all marks that are
left count.  When a match is found, its branches that are taken make such a choice, and the names
that have a value are just those that are written on it. -/
theorem compile_marks {vocabulary : Vocabulary} {description : String}
    (h : compile vocabulary description = .ok p) :
    (∃ ts, tokens description = .ok ts ∧ (Unstacked ts → p.marks = ts.filterMap Token.mark?)) ∧
      (∃ kept, Keeps p kept) ∧
      (∀ kept, Keeps p kept → kept.Sublist p.marks ∧ p.captures = kept.length) ∧
      ∀ setting c b, run setting p c = .ok (some b) → (∃ taken, Takes setting p c taken) ∧
        ∀ taken, Takes setting p c taken →
          Keeps p taken ∧ ∀ name, (b.get? name).isSome ↔ some name ∈ taken := by
  have hplaced := compile_placed h
  obtain ⟨ts, hts, hcompile⟩ := bind_eq_ok h
  have hderives := compileTokens_eq_ok_iff.1 hcompile
  refine ⟨⟨ts, hts, hderives.marks_eq⟩, hderives.exists_keeps,
    fun kept hkept => ⟨Keeps.sublist p hkept, (hderives.marksCount kept hkept).symm⟩, ?_⟩
  intro setting c b hb
  rcases run_spec setting c hplaced with ⟨entries, hentries, -, hrun⟩ | ⟨-, -, hrun⟩
  · obtain rfl := Option.some.inj (Except.ok.inj (hrun.symm.trans hb))
    obtain ⟨hexists, hnames⟩ :=
      hderives.naming setting (isRest_of_wellPlaced hplaced) c entries hentries
    refine ⟨hexists, fun taken htaken => ⟨Takes.keeps setting p htaken, fun name => ?_⟩⟩
    rw [← hnames taken htaken name, (Ledger.bindings_extend_empty entries).2 name, Entries.last?,
      lookup_isSome_iff]
    simp
  · nomatch hrun.symm.trans hb

/-- All marks of both branches are written in the pattern, and the branch that is taken gives its
name to a value. -/
theorem compile_marks_alternatives :
    ∃ ts p b, tokens alternatives = .ok ts ∧ Unstacked ts ∧
      compile ⟨none, []⟩ alternatives = .ok p ∧ run symbolSetting p symbolCall = .ok (some b) ∧
      p.marks = [some "x", none, none, some "x", some "x", none] ∧
      (∃ kept, Keeps p kept ∧ p.captures = kept.length) ∧
      ∃ taken, Takes symbolSetting p symbolCall taken ∧ some "x" ∈ taken := by
  obtain ⟨p, b, hp, hr, hfound, hnamed⟩ := exists_of_summary
    (show summary alternatives symbolSetting symbolCall = some
      ([.inl "identifier", .inl "simple_symbol", .inr 0], some (.inl "simple_symbol"))
      by decide +kernel)
  obtain ⟨⟨ts, hts, hmarks⟩, ⟨kept, hkept⟩, hcounts, hmatch⟩ := compile_marks hp
  obtain ⟨⟨taken, htaken⟩, hnames⟩ := hmatch symbolSetting symbolCall b hr
  have hwritten : ((tokens alternatives).toOption.map fun ts =>
      (decide (Unstacked ts), ts.filterMap Token.mark?)) =
        some (true, [some "x", none, none, some "x", some "x", none]) := by
    decide +kernel
  rw [hts] at hwritten
  obtain ⟨hstack, hwritten⟩ := Prod.mk.inj (Option.some.inj hwritten)
  refine ⟨ts, p, b, hts, of_decide_eq_true hstack, hp, hr,
    (hmarks (of_decide_eq_true hstack)).trans hwritten, ⟨kept, hkept, (hcounts kept hkept).2⟩,
    taken, htaken, ((hnames taken htaken).2 "x").1 ?_⟩
  rw [← Option.isSome_map, hnamed]
  rfl

def stacked : String :=
  "(call $a=$b=...)"

/-- The second mark does not count, and its name has no value. -/
theorem compile_marks_stacked :
    ∃ ts p b, tokens stacked = .ok ts ∧ compile ⟨none, []⟩ stacked = .ok p ∧
      run symbolSetting p symbolCall = .ok (some b) ∧
      ts.filterMap Token.mark? = [some "a", some "b"] ∧ p.captures = 1 ∧
      (b.get? "a").isSome ∧ b.get? "b" = none := by
  have hsummary : (do
      let ts ← (tokens stacked).toOption
      let p ← (compile ⟨none, []⟩ stacked).toOption
      let b ← (← (run symbolSetting p symbolCall).toOption)
      return (ts.filterMap Token.mark?, p.captures, (b.get? "a").isSome, (b.get? "b").isNone)) =
        some ([some "a", some "b"], 1, true, true) := by
    decide +kernel
  obtain ⟨ts, hts, hsummary⟩ := Option.bind_eq_some_iff.1 hsummary
  obtain ⟨p, hp, hsummary⟩ := Option.bind_eq_some_iff.1 hsummary
  obtain ⟨result, hr, hsummary⟩ := Option.bind_eq_some_iff.1 hsummary
  obtain ⟨b, rfl, hsummary⟩ := Option.bind_eq_some_iff.1 hsummary
  obtain ⟨hwritten, hcaptures, ha, hb⟩ := by simpa using Option.some.inj hsummary
  exact ⟨ts, p, b, toOption_eq_some hts, toOption_eq_some hp, toOption_eq_some hr, hwritten,
    hcaptures, ha, hb⟩

end RubyLint.Pattern
