import RubyLint.Proofs.Pattern.Located
import RubyLint.Proofs.Pattern.Placement

/-!
# Compiled patterns

Compilation returns the pattern that the grammar derives from a description, or tells where the
description is at fault.  In the pattern the items of every node are split around a rest marker, so
that matching knows which of them to match from the front and which from the back.
-/

namespace RubyLint.Pattern

/-! ## The parts of a pattern -/

mutual

def parts : Pattern → List Pattern
  | .capture name body => .capture name body :: body.parts
  | .negation body => .negation body :: body.parts
  | .choice source branches => .choice source branches :: partsOfAll branches
  | .node source head items => .node source head items :: partsOfAll items
  | p => [p]

def partsOfAll : List Pattern → List Pattern
  | [] => []
  | p :: ps => p.parts ++ partsOfAll ps

end

/-- All nodes in a pattern have their items split around their rest markers. -/
def AllSplit (p : Pattern) : Prop :=
  ∀ source head items, .node source head items ∈ p.parts → Split items

mutual

theorem allSplit_of_wellPlaced : ∀ p : Pattern, p.wellPlaced = true → AllSplit p
  | .any, _ => by simp [AllSplit, parts]
  | .kind _, _ => by simp [AllSplit, parts]
  | .literal _ _, _ => by simp [AllSplit, parts]
  | .predicate _, _ => by simp [AllSplit, parts]
  | .rest _ _, h => by simp [wellPlaced] at h
  | .capture _ body, h => fun source head items hmem =>
      allSplit_of_wellPlaced body h source head items (List.mem_of_ne_of_mem (by simp) hmem)
  | .negation body, h => fun source head items hmem =>
      allSplit_of_wellPlaced body h source head items (List.mem_of_ne_of_mem (by simp) hmem)
  | .choice _ branches, h => fun source head items hmem =>
      split_of_branchesPlaced branches h source head items (List.mem_of_ne_of_mem (by simp) hmem)
  | .node _ _ inner, h => by
      intro source head items hmem
      obtain ⟨hinner, hrest⟩ := Bool.and_eq_true_iff.1 h
      rcases List.mem_cons.1 hmem with heq | hmem
      · obtain ⟨-, -, rfl⟩ := Pattern.node.inj heq
        exact split_of_length_le (of_decide_eq_true hrest)
      · exact split_of_itemsPlaced inner hinner source head items hmem

theorem split_of_branchesPlaced : ∀ ps : List Pattern, branchesPlaced ps = true →
    ∀ source head items, .node source head items ∈ partsOfAll ps → Split items
  | [], _ => by simp [partsOfAll]
  | p :: ps, h => by
      intro source head items hmem
      obtain ⟨hp, hps⟩ := Bool.and_eq_true_iff.1 h
      rcases List.mem_append.1 hmem with hmem | hmem
      · exact allSplit_of_wellPlaced p hp source head items hmem
      · exact split_of_branchesPlaced ps hps source head items hmem

theorem split_of_itemsPlaced : ∀ ps : List Pattern, itemsPlaced ps = true →
    ∀ source head items, .node source head items ∈ partsOfAll ps → Split items
  | [], _ => by simp [partsOfAll]
  | p :: ps, h => by
      intro source head items hmem
      obtain ⟨hp, hps⟩ := Bool.and_eq_true_iff.1 h
      rcases List.mem_append.1 hmem with hmem | hmem
      · rcases Bool.or_eq_true_iff.1 hp with hrest | hp
        · cases p <;> simp [isRest, parts] at hrest hmem
        · exact allSplit_of_wellPlaced p hp source head items hmem
      · exact split_of_itemsPlaced ps hps source head items hmem

end

/-- Compilation returns the one pattern that the grammar derives from the tokens of a description,
with the items of all its nodes split around their rest markers.  If there is none, it fails with a
fault at an offset in the description, if at any. -/
theorem compile_derives (vocabulary : Vocabulary) (description : String) :
    match compile vocabulary description with
    | .ok p => (∃ ts, tokens description = .ok ts ∧
        ∀ q, Derives { vocabulary with description } false ts q ↔ q = p) ∧ AllSplit p
    | .error fault => (∀ ts q, tokens description = .ok ts →
        ¬Derives { vocabulary with description } false ts q) ∧
        ∀ offset ∈ fault.offset, offset ≤ description.length := by
  cases h : compile vocabulary description with
  | ok p =>
      obtain ⟨ts, hts, hcompile⟩ := bind_eq_ok h
      refine ⟨⟨ts, hts, fun q => ?_⟩, allSplit_of_wellPlaced p (compile_placed h)⟩
      rw [← compileTokens_eq_ok_iff, hcompile]
      exact ⟨fun heq => (Except.ok.inj heq).symm, fun heq => congrArg _ heq.symm⟩
  | error fault =>
      refine ⟨fun ts q hts hderives => ?_, ?_⟩
      · have hcompile : compile vocabulary description = .ok q := by
          rw [compile, hts]
          exact compileTokens_eq_ok_iff.2 hderives
        nomatch h.symm.trans hcompile
      · rcases bind_eq_error h with htokens | ⟨ts, hts, hcompile⟩
        · exact offset_of_tokens_error htokens
        · refine compileTokens_located (fun t ht => ?_) hcompile
          exact Nat.le_of_lt (offset_of_mem_tokens hts t ht)

end RubyLint.Pattern
