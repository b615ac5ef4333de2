import RubyLint.Proofs.Pattern.Placement

/-!
# What patterns mean

A pattern matches a node in at most one way.  The way is told by the values that are captured, in
the order of their marks, and by the names that are given to them, in the order in which that is
done: an outer capture is listed before those inside it and named after them.  Nothing is said here
about how a match is found, and nothing is kept of an attempt that fails.
-/

namespace RubyLint.Pattern

/-- What a match captures: the values in the order of their marks, and the names with their values
in the order in which they are given. -/
structure Entries where
  captures : List Capture
  named : List (String × Capture)

namespace Entries

def empty : Entries :=
  ⟨[], []⟩

def append (first second : Entries) : Entries :=
  ⟨first.captures ++ second.captures, first.named ++ second.named⟩

/-- The entries of a match that is captured as a whole. -/
def around (value : Capture) (name : Option String) (inner : Entries) : Entries :=
  ⟨value :: inner.captures, inner.named ++ name.toList.map fun name => (name, value)⟩

/-- The entries of a rest marker: the run, if it is captured. -/
def ofRun (mark : Option (Option String)) (run : List Cursor) : Entries :=
  match mark with
  | none => empty
  | some name => around (.run run) name empty

def last? (entries : Entries) (name : String) : Option Capture :=
  entries.named.reverse.lookup name

end Entries

mutual

/-- A pattern matches a node with some entries. -/
def Matches (setting : Setting) : Pattern → Cursor → Entries → Prop
  | .any, _, entries => entries = .empty
  | .kind name, c, entries => c.node.kind = name ∧ entries = .empty
  | .literal _ value, c, entries => setting.source.valueOf c.node = some value ∧ entries = .empty
  | .predicate name, c, entries => setting.test name c = true ∧ entries = .empty
  | .rest _ _, _, _ => False
  | .capture name body, c, entries =>
    ∃ inner, Matches setting body c inner ∧ entries = .around (.node c) name inner
  | .negation body, c, entries => (∀ inner, ¬Matches setting body c inner) ∧ entries = .empty
  | .choice _ branches, c, entries => MatchesFirst setting branches c entries
  | .node _ head items, c, entries =>
    (∀ name ∈ head, c.node.kind = name) ∧ MatchesItems setting items c.namedChildren entries

/-- The first branch that matches a node does so with some entries. -/
def MatchesFirst (setting : Setting) : List Pattern → Cursor → Entries → Prop
  | [], _, _ => False
  | p :: ps, c, entries => Matches setting p c entries ∨
    (∀ other, ¬Matches setting p c other) ∧ MatchesFirst setting ps c entries

/-- Items match children with some entries: a rest marker a run of them, any other item one. -/
def MatchesItems (setting : Setting) : List Pattern → List Cursor → Entries → Prop
  | [], children, entries => children = [] ∧ entries = .empty
  | .rest _ mark :: items, children, entries => ∃ run others after,
    children = run ++ others ∧ MatchesItems setting items others after ∧
      entries = (Entries.ofRun mark run).append after
  | p :: items, children, entries => ∃ c others first after,
    children = c :: others ∧ Matches setting p c first ∧ MatchesItems setting items others after ∧
      entries = first.append after

end

variable {setting : Setting} {p : Pattern} {ps items : List Pattern} {c : Cursor}
variable {children : List Cursor} {entries : Entries}

/-- An item that is no rest marker matches one child. -/
theorem matchesItems_fixed (h : p.isRest = false) :
    MatchesItems setting (p :: items) children entries ↔ ∃ c others first after,
      children = c :: others ∧ Matches setting p c first ∧ MatchesItems setting items others after ∧
        entries = first.append after := by
  cases p <;> first | rfl | simp [isRest] at h

theorem exists_of_isRest (h : p.isRest = true) : ∃ source mark, p = .rest source mark := by
  cases p <;> first | exact ⟨_, _, rfl⟩ | simp [isRest] at h

/-! ## The number of children -/

theorem fixedCount_rest (source : String) (mark : Option (Option String)) (items : List Pattern) :
    fixedCount (.rest source mark :: items) = fixedCount items := by
  simp [fixedCount, isRest]

theorem fixedCount_fixed (h : p.isRest = false) (items : List Pattern) :
    fixedCount (p :: items) = fixedCount items + 1 := by
  simp [fixedCount, h]

/-- Items match no fewer children than they fix, and no more if there is no rest marker. -/
theorem MatchesItems.length (h : MatchesItems setting items children entries) :
    fixedCount items ≤ children.length ∧
      (items.any isRest = false → children.length = fixedCount items) := by
  induction items generalizing children entries with
  | nil =>
      obtain ⟨rfl, -⟩ := h
      exact ⟨Nat.le_refl 0, fun _ => rfl⟩
  | cons p items ih =>
      cases hp : p.isRest with
      | true =>
          obtain ⟨source, mark, rfl⟩ := exists_of_isRest hp
          obtain ⟨run, others, after, rfl, hafter, -⟩ := h
          rw [fixedCount_rest, List.length_append]
          exact ⟨Nat.le_trans (ih hafter).1 (Nat.le_add_left _ _), by simp [isRest]⟩
      | false =>
          obtain ⟨c, others, first, after, rfl, -, hafter, -⟩ := (matchesItems_fixed hp).1 h
          rw [fixedCount_fixed hp, List.length_cons]
          refine ⟨Nat.succ_le_succ (ih hafter).1, fun hany => ?_⟩
          rw [(ih hafter).2 (by simpa [hp] using hany)]

theorem MatchesItems.fits (h : MatchesItems setting items children entries) :
    fits items children.length = true := by
  rw [Pattern.fits]
  split
  next => exact decide_eq_true h.length.1
  next hany => exact beq_iff_eq.2 (h.length.2 (Bool.eq_false_iff.2 hany)).symm

/-- What a rest marker takes is as long as the other items leave it. -/
theorem MatchesItems.run_eq {run others run' others' : List Cursor} {after after' : Entries}
    (hnone : items.any isRest = false) (h : MatchesItems setting items others after)
    (h' : MatchesItems setting items others' after') (heq : run ++ others = run' ++ others') :
    run = run' ∧ others = others' :=
  List.append_inj' heq ((h.length.2 hnone).trans (h'.length.2 hnone).symm)

/-- There is no second rest marker behind the only one. -/
theorem only_rest {source : String} {mark : Option (Option String)}
    (h : ((Pattern.rest source mark :: items).filter isRest).length ≤ 1) :
    items.any isRest = false ∧ (items.filter isRest).length ≤ 1 := by
  rw [List.filter_cons_of_pos rfl, List.length_cons, Nat.succ_le_succ_iff, Nat.le_zero,
    List.length_eq_zero_iff] at h
  refine ⟨?_, by simp [h]⟩
  simpa [List.any_eq_false, List.filter_eq_nil_iff] using h

/-! ## A pattern matches in at most one way -/

mutual

theorem Matches.unique (setting : Setting) : ∀ (p : Pattern) {c : Cursor} {entries other : Entries},
    p.wellPlaced = true → Matches setting p c entries → Matches setting p c other → entries = other
  | .any, _, _, _, _, h, h' => h.trans h'.symm
  | .kind _, _, _, _, _, h, h' => h.2.trans h'.2.symm
  | .literal _ _, _, _, _, _, h, h' => h.2.trans h'.2.symm
  | .predicate _, _, _, _, _, h, h' => h.2.trans h'.2.symm
  | .rest _ _, _, _, _, _, h, _ => h.elim
  | .capture _ body, _, _, _, hplaced, h, h' => by
      obtain ⟨inner, hinner, rfl⟩ := h
      obtain ⟨inner', hinner', rfl⟩ := h'
      rw [Matches.unique setting body hplaced hinner hinner']
  | .negation _, _, _, _, _, h, h' => h.2.trans h'.2.symm
  | .choice _ branches, _, _, _, hplaced, h, h' => MatchesFirst.unique setting branches hplaced h h'
  | .node _ _ items, _, _, _, hplaced, h, h' =>
      have hitems := Bool.and_eq_true_iff.1 hplaced
      MatchesItems.unique setting items hitems.1 (of_decide_eq_true hitems.2) h.2 h'.2

theorem MatchesFirst.unique (setting : Setting) : ∀ (ps : List Pattern) {c : Cursor}
    {entries other : Entries}, branchesPlaced ps = true → MatchesFirst setting ps c entries →
      MatchesFirst setting ps c other → entries = other
  | [], _, _, _, _, h, _ => h.elim
  | p :: ps, _, _, _, hplaced, h, h' => by
      obtain ⟨hp, hps⟩ := Bool.and_eq_true_iff.1 hplaced
      rcases h with h | ⟨hnone, h⟩ <;> rcases h' with h' | ⟨hnone', h'⟩
      · exact Matches.unique setting p hp h h'
      · exact absurd h (hnone' _)
      · exact absurd h' (hnone _)
      · exact MatchesFirst.unique setting ps hps h h'

theorem MatchesItems.unique (setting : Setting) : ∀ (items : List Pattern) {children : List Cursor}
    {entries other : Entries}, itemsPlaced items = true → (items.filter isRest).length ≤ 1 →
      MatchesItems setting items children entries → MatchesItems setting items children other →
        entries = other
  | [], _, _, _, _, _, h, h' => h.2.trans h'.2.symm
  | p :: items, children, _, _, hplaced, hrest, h, h' => by
      obtain ⟨hp, hitems⟩ := Bool.and_eq_true_iff.1 hplaced
      cases hkind : p.isRest with
      | true =>
          obtain ⟨source, mark, rfl⟩ := exists_of_isRest hkind
          obtain ⟨hnone, hrest⟩ := only_rest hrest
          obtain ⟨run, others, after, rfl, hafter, rfl⟩ := h
          obtain ⟨run', others', after', heq, hafter', rfl⟩ := h'
          obtain ⟨rfl, rfl⟩ := hafter.run_eq hnone hafter' heq
          rw [MatchesItems.unique setting items hitems hrest hafter hafter']
      | false =>
          have hp : p.wellPlaced = true := by simpa [hkind] using hp
          have hrest : (items.filter isRest).length ≤ 1 := by
            simpa [List.filter_cons, hkind] using hrest
          obtain ⟨c, others, first, after, rfl, hfirst, hafter, rfl⟩ :=
            (matchesItems_fixed hkind).1 h
          obtain ⟨c', others', first', after', heq, hfirst', hafter', rfl⟩ :=
            (matchesItems_fixed hkind).1 h'
          obtain ⟨rfl, rfl⟩ := List.cons.inj heq
          rw [Matches.unique setting p hp hfirst hfirst',
            MatchesItems.unique setting items hitems hrest hafter hafter']

end

end RubyLint.Pattern
