import RubyLint.Pattern.Match
import RubyLint.Proofs.Pattern.Grammar

/-!
# Placement of rest markers

A rest marker stands for a run of children, so it has a meaning only among the items of a node, and
only one of them can take what the fixed items leave.  The grammar derives it nowhere else, and a
pattern whose rest markers are all in such places is matched against any node without a fault.
-/

namespace RubyLint.Pattern

mutual

/-- Whether rest markers stand only among the items of nodes, at most one among those of each. -/
def wellPlaced : Pattern → Bool
  | .rest _ _ => false
  | .capture _ body => body.wellPlaced
  | .negation body => body.wellPlaced
  | .choice _ branches => branchesPlaced branches
  | .node _ _ items => itemsPlaced items && decide ((items.filter isRest).length ≤ 1)
  | _ => true

/-- Whether rest markers stand in their places in all branches of a choice. -/
def branchesPlaced : List Pattern → Bool
  | [] => true
  | p :: ps => p.wellPlaced && branchesPlaced ps

/-- Whether rest markers stand in their places in the items of a node, where they may be items. -/
def itemsPlaced : List Pattern → Bool
  | [] => true
  | p :: ps => (p.isRest || p.wellPlaced) && itemsPlaced ps

end

theorem isRest_of_wellPlaced {p : Pattern} (h : p.wellPlaced = true) : p.isRest = false := by
  cases p <;> first | rfl | simp [wellPlaced] at h

/-! ## Items around a rest marker -/

/-- Items that are made up of the fixed items in front, the rest marker if there is one, and the
fixed items at the back. -/
def Split (items : List Pattern) : Prop :=
  items = front items ++ (restOf? items).toList ++ back items ∧
    ∀ p ∈ front items ++ back items, p.isRest = false

theorem split_of_length_le {items : List Pattern} (h : (items.filter isRest).length ≤ 1) :
    Split items := by
  induction items with
  | nil => exact ⟨rfl, by simp [front, back]⟩
  | cons p ps ih =>
      cases hp : p.isRest with
      | true =>
          have hnone : ∀ q ∈ ps, q.isRest = false := by
            simpa [List.filter_cons, hp, List.filter_eq_nil_iff] using h
          exact ⟨by simp [front, restOf?, back, hp], by simpa [front, back, hp] using hnone⟩
      | false =>
          obtain ⟨hitems, hfixed⟩ := ih (by simpa [List.filter_cons, hp] using h)
          refine ⟨?_, ?_⟩
          · simpa [front, restOf?, back, hp] using hitems
          · simpa [front, back, hp] using hfixed

/-! ## Matching -/

/-- An item that is no rest marker takes one child. -/
theorem matchItems_fixed (setting : Setting) {p : Pattern} (h : p.isRest = false)
    (ps : List Pattern) (c : Cursor) (cs : List Cursor) (l : Ledger) :
    matchItems setting (p :: ps) (c :: cs) l = (do
      match ← matchNode setting p c l with
      | (false, l) => return (false, l)
      | (true, l) => matchItems setting ps cs l) := by
  cases p <;> first | rfl | simp [isRest] at h

mutual

/-- A well placed pattern is matched without a fault. -/
theorem matchNode_ok (setting : Setting) : ∀ (p : Pattern) (c : Cursor) (l : Ledger),
    p.wellPlaced = true → ∃ r, matchNode setting p c l = .ok r
  | .any, _, _, _ => ⟨_, rfl⟩
  | .kind _, _, _, _ => ⟨_, rfl⟩
  | .literal _ _, _, _, _ => ⟨_, rfl⟩
  | .predicate _, _, _, _ => ⟨_, rfl⟩
  | .rest _ _, _, _, h => by simp [wellPlaced] at h
  | .capture name body, c, l, h => by
      obtain ⟨⟨found, l'⟩, hr⟩ := matchNode_ok setting body c l.reserve h
      rw [matchNode, hr]
      cases found <;> exact ⟨_, rfl⟩
  | .negation body, c, l, h => by
      obtain ⟨r, hr⟩ := matchNode_ok setting body c .empty h
      rw [matchNode, hr]
      exact ⟨_, rfl⟩
  | .choice _ branches, c, l, h => matchFirst_ok setting branches c l h
  | .node _ head items, c, l, h => by
      have hitems := (Bool.and_eq_true_iff.1 h).1
      rw [matchNode]
      split
      · exact ⟨_, rfl⟩
      split
      · obtain ⟨⟨found, l'⟩, hr⟩ := matchItems_ok setting items c.namedChildren l hitems
        rw [hr]
        cases found <;> exact ⟨_, rfl⟩
      · exact ⟨_, rfl⟩

theorem matchFirst_ok (setting : Setting) : ∀ (ps : List Pattern) (c : Cursor) (l : Ledger),
    branchesPlaced ps = true → ∃ r, matchFirst setting ps c l = .ok r
  | [], _, _, _ => ⟨_, rfl⟩
  | p :: ps, c, l, h => by
      obtain ⟨hp, hps⟩ := Bool.and_eq_true_iff.1 h
      obtain ⟨⟨found, l'⟩, hr⟩ := matchNode_ok setting p c l hp
      rw [matchFirst, hr]
      cases found with
      | false => exact matchFirst_ok setting ps c (l'.rewind l) hps
      | true => exact ⟨_, rfl⟩

theorem matchItems_ok (setting : Setting) : ∀ (ps : List Pattern) (cs : List Cursor) (l : Ledger),
    itemsPlaced ps = true → ∃ r, matchItems setting ps cs l = .ok r
  | [], _, _, _ => ⟨_, rfl⟩
  | p :: ps, cs, l, h => by
      obtain ⟨hp, hps⟩ := Bool.and_eq_true_iff.1 h
      by_cases hrest : p.isRest = true
      · cases p <;> simp [isRest] at hrest
        exact matchItems_ok setting ps _ _ hps
      · have hplaced : p.wellPlaced = true := by simpa [hrest] using hp
        cases cs with
        | nil =>
            refine ⟨(false, l), ?_⟩
            cases p <;> first | rfl | simp [isRest] at hrest
        | cons c cs =>
            obtain ⟨⟨found, l'⟩, hr⟩ := matchNode_ok setting p c l hplaced
            rw [matchItems_fixed setting (by simpa using hrest), hr]
            cases found with
            | false => exact ⟨_, rfl⟩
            | true => exact matchItems_ok setting ps cs l' hps

end

/-- A well placed pattern is matched against every node without a fault. -/
theorem run_ok (setting : Setting) {p : Pattern} (h : p.wellPlaced = true) (c : Cursor) :
    ∃ r, run setting p c = .ok r := by
  obtain ⟨⟨found, l⟩, hr⟩ := matchNode_ok setting p c .empty h
  rw [run, hr]
  exact ⟨_, rfl⟩

/-! ## Derived patterns -/

variable {scope : Scope} {inSequence : Bool} {p : Pattern}

/-- What may be derived as one pattern: a rest marker only where one may stand. -/
def Placed (inSequence : Bool) (p : Pattern) : Prop :=
  p.wellPlaced = true ∨ (inSequence = true ∧ p.isRest = true)

theorem Placed.wellPlaced (h : Placed false p) : p.wellPlaced = true :=
  h.resolve_right (by simp)

theorem captured_placed (name : Option String) (h : Placed inSequence p) :
    Placed inSequence (captured name p) := by
  cases p with
  | rest source mark =>
      rcases h with h | h
      · simp [Pattern.wellPlaced] at h
      · exact .inr ⟨h.1, rfl⟩
  | _ => exact .inl (h.resolve_right (by simp [isRest]))

theorem branchesPlaced_of_placed : ∀ {ps : List Pattern}, (∀ q ∈ ps, Placed false q) →
    branchesPlaced ps = true
  | [], _ => rfl
  | p :: ps, h => by
      obtain ⟨hp, hps⟩ := List.forall_mem_cons.1 h
      exact Bool.and_eq_true_iff.2 ⟨hp.wellPlaced, branchesPlaced_of_placed hps⟩

theorem itemsPlaced_of_placed : ∀ {ps : List Pattern}, (∀ q ∈ ps, Placed inSequence q) →
    itemsPlaced ps = true
  | [], _ => rfl
  | p :: ps, h => by
      obtain ⟨hp, hps⟩ := List.forall_mem_cons.1 h
      have hitem : (p.isRest || p.wellPlaced) = true := by
        rcases hp with hp | ⟨-, hp⟩ <;> simp [hp]
      exact Bool.and_eq_true_iff.2 ⟨hitem, itemsPlaced_of_placed hps⟩

mutual

/-- In what the grammar derives the rest markers stand in their places. -/
theorem Derives.placed : ∀ {inSequence : Bool} {ts : List Token} {p : Pattern},
    Derives scope inSequence ts p → Placed inSequence p
  | _, _, _, .node _ _ _ hitems hrest _ => by
      have hitems := itemsPlaced_of_placed hitems.placed
      exact .inl (Bool.and_eq_true_iff.2 ⟨hitems, decide_eq_true hrest⟩)
  | _, _, _, .choice _ hbranches _ _ _ => .inl (branchesPlaced_of_placed hbranches.placed)
  | _, _, _, .rest _ => .inr ⟨rfl, rfl⟩
  | _, _, _, .capture _ hbody => captured_placed _ hbody.placed
  | _, _, _, .negation _ hbody _ => .inl hbody.placed.wellPlaced
  | _, _, _, .string _ | _, _, _, .symbol _ | _, _, _, .number _ | _, _, _, .predicate _ _
  | _, _, _, .any _ _ | _, _, _, .kind _ _ _ => .inl rfl

theorem DerivesAll.placed : ∀ {inSequence : Bool} {ts : List Token} {ps : List Pattern},
    DerivesAll scope inSequence ts ps → ∀ q ∈ ps, Placed inSequence q
  | _, _, _, .nil => by simp
  | _, _, _, .cons hfirst hrest => List.forall_mem_cons.2 ⟨hfirst.placed, hrest.placed⟩

end

/-- A compiled pattern is well placed. -/
theorem compile_placed {vocabulary : Vocabulary} {description : String}
    (h : compile vocabulary description = .ok p) : p.wellPlaced = true := by
  obtain ⟨ts, -, hcompile⟩ := bind_eq_ok h
  exact (compileTokens_eq_ok_iff.1 hcompile).placed.wellPlaced

end RubyLint.Pattern
