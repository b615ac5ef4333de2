import Mathlib.Logic.Function.Iterate
import RubyLint.Proofs.Tree.Ancestry
import RubyLint.Proofs.Tree.Preorder

/-!
# Down and up a tree

The walk takes the first of the places that are pending, and puts the children of that place before
the others.  It comes to an end after one round for each node, and has met the places in pre-order
by then.  The way back goes from parent to parent: it comes by those places below which the walk
would have found its start.
-/

namespace RubyLint

namespace Cursor

variable {c m n x : Cursor} {test : Cursor → Bool}

/-! ## Rounds of the walk -/

/-- What is pending after a round of the walk: the first place gives way to its children. -/
def advance : List Cursor → List Cursor
  | [] => []
  | c :: pending => c.children ++ pending

theorem walk_cons (c : Cursor) (pending : List Cursor) :
    walk (c :: pending) = c :: walk (advance (c :: pending)) := by
  rw [walk, advance]

/-- The place that the walk visits in a round is the first one that is pending then. -/
theorem getElem?_walk (count : Nat) (pending : List Cursor) :
    (walk pending)[count]? = (advance^[count] pending).head? := by
  induction count generalizing pending with
  | zero =>
      cases pending with
      | nil => rw [walk]; rfl
      | cons c pending => rw [walk_cons]; rfl
  | succ count ih =>
      rw [Function.iterate_succ_apply, ← ih]
      cases pending with
      | nil => rw [advance, walk]; rfl
      | cons c pending => rw [walk_cons, List.getElem?_cons_succ]

/-- Nothing is pending any more after one round for each node. -/
theorem advance_iterate_eq_nil_iff {count : Nat} {pending : List Cursor} :
    advance^[count] pending = [] ↔ workload pending ≤ count := by
  rw [← List.head?_eq_none_iff, ← getElem?_walk, List.getElem?_eq_none_iff, length_walk]

/-! ## What the walk finds -/

theorem nodesWhere_eq (c : Cursor) (test : Cursor → Bool) :
    c.nodesWhere test = c.preorder.filter test := by
  rw [nodesWhere, nodes_eq_preorder]

/-- A place that passes the test is the first one found from there. -/
theorem nodesWhere_eq_cons (htest : test c = true) :
    c.nodesWhere test = c :: (c.children.flatMap preorder).filter test := by
  rw [nodesWhere_eq, preorder_eq, List.filter_cons_of_pos htest]

theorem nodesWhere_of_not (htest : ¬test c = true) :
    c.nodesWhere test = (c.children.flatMap preorder).filter test := by
  rw [nodesWhere_eq, preorder_eq, List.filter_cons_of_neg htest]

/-- What is found below a place does not depend on whether the place itself passes the test. -/
theorem descendantsWhere_eq (c : Cursor) (test : Cursor → Bool) :
    c.descendantsWhere test = (c.children.flatMap preorder).filter test := by
  rw [descendantsWhere]
  split
  next htest => rw [nodesWhere_eq_cons htest, List.drop_one, List.tail_cons]
  next htest => exact nodesWhere_of_not htest

theorem not_mem_flatMap_preorder (c : Cursor) : c ∉ c.children.flatMap preorder := by
  have hnodup := nodup_preorder c
  rw [preorder_eq] at hnodup
  exact (List.nodup_cons.1 hnodup).1

theorem mem_descendantsWhere_iff :
    x ∈ c.descendantsWhere test ↔ x ∈ c.nodesWhere test ∧ x ≠ c := by
  rw [descendantsWhere_eq, nodesWhere_eq, List.mem_filter, List.mem_filter, preorder_eq,
    List.mem_cons]
  constructor
  · rintro ⟨hx, htest⟩
    refine ⟨⟨.inr hx, htest⟩, ?_⟩
    rintro rfl
    exact not_mem_flatMap_preorder x hx
  · rintro ⟨⟨hx, htest⟩, hne⟩
    exact ⟨hx.resolve_left hne, htest⟩

theorem mem_descendants_iff : x ∈ c.descendants ↔ Below c x ∧ x ≠ c := by
  rw [descendants, mem_descendantsWhere_iff, nodesWhere_eq, List.mem_filter, mem_preorder_iff,
    and_iff_left rfl]

/-! ## The way back -/

theorem ancestors_of_mem_children (h : x ∈ c.children) : x.ancestors = c :: c.ancestors := by
  obtain ⟨i, n, -, rfl⟩ := mem_children_iff.1 h
  rfl

/-- The ancestors of a place of a tree are the places strictly above it. -/
theorem mem_ancestors_iff {tree : Node} (hm : Below (root tree) m) :
    n ∈ m.ancestors ↔ Below n m ∧ m ≠ n := by
  induction hm with
  | refl =>
      -- Nothing is above the root, since it is nobody's child.
      refine iff_of_false List.not_mem_nil ?_
      rintro ⟨hbelow, hne⟩
      cases hbelow with
      | refl => exact hne rfl
      | step _ hmem => nomatch parent?_of_mem_children hmem
  | @step c x hc hx ih =>
      rw [ancestors_of_mem_children hx, List.mem_cons, ih]
      have hlt := size_lt_of_mem_children hx
      constructor
      · intro hn
        have hbelow : Below n c := by
          rcases hn with rfl | ⟨hbelow, -⟩
          · exact .refl
          · exact hbelow
        refine ⟨.step hbelow hx, ?_⟩
        rintro rfl
        have hle := hbelow.size_le
        omega
      · rintro ⟨hbelow, hne⟩
        cases hbelow with
        | refl => exact absurd rfl hne
        | step hbelow hmem =>
            obtain rfl := parent_unique hmem hx
            exact (em (n = _)).imp_right fun hother => ⟨hbelow, Ne.symm hother⟩

end Cursor

/-! ## Constructed trees -/

namespace Forest

variable {f : Forest} {m n : NodeId} {chain : List NodeId}

/-- The ancestors of a node are those nodes of whose trees it is a part. -/
theorem Consistent.mem_ancestors_iff (hf : f.Consistent) (hbuilt : ∀ x, f.Within n x → f.Built x)
    (hchain : f.Ancestors m chain) : n ∈ chain ↔ f.Within n m ∧ m ≠ n := by
  induction hchain with
  | @root m hnone =>
      refine iff_of_false List.not_mem_nil ?_
      rintro ⟨hwithin, hne⟩
      cases hwithin with
      | root => exact hne rfl
      | child hp hc =>
          obtain ⟨i, hi⟩ := List.getElem?_of_mem hc
          nomatch hnone.symm.trans (hf.owned _ (hbuilt _ hp) i m hi).1
  | @step m p chain hparent _ ih =>
      have hmem := hf.listed m p hparent
      rw [List.mem_cons, ih]
      constructor
      · intro hn
        have hwithin : f.Within n p := by
          rcases hn with rfl | ⟨hwithin, -⟩
          · exact .root
          · exact hwithin
        refine ⟨hwithin.child hmem, ?_⟩
        rintro rfl
        exact Nat.not_lt.2 (hwithin.le hf.toRooted) (hf.older p _ hmem)
      · rintro ⟨hwithin, hne⟩
        cases hwithin with
        | root => exact absurd rfl hne
        | @child q _ hq hc =>
            obtain ⟨i, hi⟩ := List.getElem?_of_mem hc
            obtain rfl : p = q :=
              Option.some.inj (hparent.symm.trans (hf.owned q (hbuilt q hq) i m hi).1)
            exact (em (n = p)).imp_right fun hother => ⟨hq, Ne.symm hother⟩

end Forest

/-! ## Both directions -/

open Cursor

/-- From a place of a tree the walk visits the places of its pre-order, one in each round, and ends.
What it finds are those that pass a test, each once and in that order; below the place it finds the
same without the place itself, whether or not that one passes the test.  A place is an ancestor of
another one exactly if the walk finds that one below it; and the same holds of constructed nodes, if
everything in the tree of the ancestor was built. -/
theorem walk_down_ancestors_up (tree : Node) :
    (∀ (c : Cursor) (test : Cursor → Bool),
      c.preorder = c :: c.children.flatMap preorder ∧
      (∀ count, c.nodes[count]? = (advance^[count] [c]).head?) ∧
      (∀ count, advance^[count] [c] = [] ↔ c.node.size ≤ count) ∧
      c.nodesWhere test = c.preorder.filter test ∧
      (c.nodesWhere test).Nodup ∧
      (test c = true → (c.nodesWhere test).head? = some c) ∧
      c.descendantsWhere test = (c.children.flatMap preorder).filter test ∧
      ∀ x, x ∈ c.descendantsWhere test ↔ x ∈ c.nodesWhere test ∧ x ≠ c) ∧
    (∀ m ∈ (Cursor.root tree).nodes, ∀ n, n ∈ m.ancestors ↔ m ∈ n.descendants) ∧
    ∀ steps, Forest.empty.Admits steps →
      let f := Forest.empty.performAll steps
      ∀ n, (∀ x, f.Within n x → f.Built x) → ∀ m chain, f.Ancestors m chain →
        (n ∈ chain ↔ m ∈ f.below n ∧ m ≠ n) := by
  refine ⟨fun c test => ⟨preorder_eq c, fun count => getElem?_walk count [c], fun count => ?_,
    nodesWhere_eq c test, ?_, fun htest => ?_, descendantsWhere_eq c test,
    fun x => mem_descendantsWhere_iff⟩, fun m hm n => ?_, ?_⟩
  · rw [advance_iterate_eq_nil_iff, workload, List.map_singleton, Node.sizeAll, Node.sizeAll,
      Nat.add_zero]
  · exact (nodup_nodes c).filter test
  · rw [nodesWhere_eq_cons htest, List.head?_cons]
  · rw [mem_ancestors_iff (mem_nodes_iff.1 hm), mem_descendants_iff]
  · intro steps hsteps f n hbuilt m chain hchain
    have hf : f.Consistent := Forest.empty_consistent.performAll hsteps
    rw [hf.mem_ancestors_iff hbuilt hchain, Forest.mem_below_iff hf.toRooted]

/-- A call with an argument, and a name after it. -/
def callAndName : Node :=
  ⟨"program", 0, 7, true, none, [
    ⟨"call", 0, 4, true, none, [
      ⟨"identifier", 0, 1, true, some "method", []⟩,
      ⟨"argument_list", 1, 4, true, some "arguments", [
        ⟨"(", 1, 2, false, none, []⟩, ⟨"identifier", 2, 3, true, none, []⟩,
        ⟨")", 3, 4, false, none, []⟩]⟩]⟩,
    ⟨";", 4, 5, false, none, []⟩, ⟨"identifier", 6, 7, true, none, []⟩]⟩

/-- The name in the argument list has three ancestors and is found below each of them; a test that
only the top passes finds the top and nothing below it; a constructed leaf is below its parent. -/
theorem walk_down_ancestors_up_callAndName :
    let top := Cursor.root callAndName
    let test := fun c : Cursor => c.node.kind == "program"
    (∃ m, top.descend? [0, 1, 1] = some m ∧ m.ancestors.map path = [[0, 1], [0], []] ∧
      ∀ n ∈ m.ancestors, m ∈ n.descendants) ∧
    ((top.nodesWhere test).head? = some top ∧ (top.descendantsWhere test).map path = []) ∧
    0 ∈ (Forest.empty.performAll Forest.family).below 2 := by
  intro top test
  obtain ⟨hdown, hup, hconstructed⟩ := walk_down_ancestors_up callAndName
  refine ⟨?_, ⟨(hdown top test).2.2.2.2.2.1 rfl, by decide +kernel⟩, ?_⟩
  · obtain ⟨m, hdescend, hm⟩ : ∃ m, top.descend? [0, 1, 1] = some m ∧ Below top m :=
      ⟨_, rfl, .step (.step (.step .refl (mem_children_iff.2 ⟨0, _, rfl, rfl⟩))
        (mem_children_iff.2 ⟨1, _, rfl, rfl⟩)) (mem_children_iff.2 ⟨1, _, rfl, rfl⟩)⟩
    refine ⟨m, hdescend, ?_, fun n hn => (hup m (mem_nodes_iff.2 hm) n).1 hn⟩
    obtain rfl := Option.some.inj hdescend
    rfl
  · have hallows : Forest.empty.Allows Forest.family := by decide +kernel
    have hsound := (Forest.performAll_spec Forest.empty_sound hallows).1
    have hbuilt : ∀ x, (Forest.empty.performAll Forest.family).Within 2 x →
        (Forest.empty.performAll Forest.family).Built x :=
      fun x hx => hx.built hsound (by decide +kernel)
    have hchain : (Forest.empty.performAll Forest.family).Ancestors 0 [2] :=
      .step (by decide +kernel) (.root (by decide +kernel))
    exact ((hconstructed Forest.family hallows.admits 2 hbuilt 0 [2] hchain).1
      (List.mem_singleton_self 2)).1

end RubyLint
