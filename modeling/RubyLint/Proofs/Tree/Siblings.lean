import RubyLint.Proofs.Tree.Ancestry
import RubyLint.Proofs.Tree.Place

/-!
# Siblings

The children of a node stand in a row, and anonymous tokens stand between the named ones.  The
queries for the next and the previous sibling start at the index of a child in the whole row and
pass over the tokens; so they lead from one named child to the one beside it, and back.
-/

namespace RubyLint

section Row

variable {α : Type} {named : α → Bool} {next previous : α → Option α} {row : List α} {a b : α}

/-- Going on and on, from a first element if there is one, comes by the elements of a list one after
the other and then ends. -/
inductive Follows (next : α → Option α) : Option α → List α → Prop where
  | stop : Follows next none []
  | go {a : α} {rest : List α} : Follows next (next a) rest → Follows next (some a) (a :: rest)

theorem Follows.of_splits
    (h : ∀ before x after, row = before ++ x :: after → next x = after.head?) :
    Follows next row.head? row := by
  induction row with
  | nil => exact .stop
  | cons x row ih =>
      refine .go ?_
      rw [h [] x row rfl]
      exact ih fun before y after hsplit =>
        h (x :: before) y after (congrArg (List.cons x) hsplit)

/-- Queries for the nearest named elements on either side of an element of a row. -/
structure Neighbors (named : α → Bool) (next previous : α → Option α) (row : List α) : Prop where
  next : ∀ before x after, row = before ++ x :: after → next x = (after.filter named).head?
  previous : ∀ before x after, row = before ++ x :: after →
    previous x = (before.filter named).getLast?

/-- Two elements of a row with only anonymous ones between them. -/
def Adjacent (named : α → Bool) (row : List α) (a b : α) : Prop :=
  ∃ before between after, row = before ++ a :: (between ++ b :: after) ∧
    ∀ x ∈ between, ¬named x = true

namespace Neighbors

variable (h : Neighbors named next previous row)

include h

/-- Where the named elements part at one of them, the row does. -/
theorem of_named_split {before after : List α} {x : α}
    (hsplit : row.filter named = before ++ x :: after) :
    next x = after.head? ∧ previous x = before.getLast? := by
  obtain ⟨front, rest, rfl, rfl, hrest⟩ := List.filter_eq_append_iff.1 hsplit
  obtain ⟨between, back, rfl, hbetween, -, rfl⟩ := List.filter_eq_cons_iff.1 hrest
  refine ⟨?_, ?_⟩
  · exact h.next (front ++ between) x back (List.append_assoc _ _ _).symm
  · rw [h.previous (front ++ between) x back (List.append_assoc _ _ _).symm, List.filter_append,
      List.filter_eq_nil_iff.2 hbetween, List.append_nil]

theorem follows_next : Follows next (row.filter named).head? (row.filter named) :=
  .of_splits fun _ _ _ hsplit => (h.of_named_split hsplit).1

theorem follows_previous :
    Follows previous (row.filter named).getLast? (row.filter named).reverse := by
  rw [← List.head?_reverse]
  refine .of_splits fun before x after hsplit => ?_
  have hback : row.filter named = after.reverse ++ x :: before.reverse := by
    rw [← List.reverse_inj, hsplit]
    simp
  rw [(h.of_named_split hback).2, List.getLast?_reverse]

theorem next_eq_some_iff (ha : a ∈ row) :
    next a = some b ↔ named b = true ∧ Adjacent named row a b := by
  constructor
  · intro hnext
    obtain ⟨before, after, rfl⟩ := List.append_of_mem ha
    rw [h.next before a after rfl, List.head?_eq_some_iff] at hnext
    obtain ⟨rest, hrest⟩ := hnext
    obtain ⟨between, back, rfl, hbetween, hb, -⟩ := List.filter_eq_cons_iff.1 hrest
    exact ⟨hb, before, between, back, rfl, hbetween⟩
  · rintro ⟨hb, before, between, after, hrow, hbetween⟩
    rw [h.next before a _ hrow, List.filter_append, List.filter_eq_nil_iff.2 hbetween,
      List.nil_append, List.filter_cons_of_pos hb, List.head?_cons]

theorem previous_eq_some_iff (hb : b ∈ row) :
    previous b = some a ↔ named a = true ∧ Adjacent named row a b := by
  constructor
  · intro hprevious
    obtain ⟨before, after, rfl⟩ := List.append_of_mem hb
    rw [h.previous before b after rfl, List.getLast?_eq_some_iff] at hprevious
    obtain ⟨rest, hrest⟩ := hprevious
    obtain ⟨front, back, rfl, -, hback⟩ := List.filter_eq_append_iff.1 hrest
    obtain ⟨middle, between, rfl, -, ha, hbetween⟩ := List.filter_eq_cons_iff.1 hback
    refine ⟨ha, front ++ middle, between, after, ?_, List.filter_eq_nil_iff.1 hbetween⟩
    simp only [List.append_assoc, List.cons_append]
  · rintro ⟨ha, before, between, after, hrow, hbetween⟩
    have hsplit : row = (before ++ a :: between) ++ b :: after := by
      rw [hrow, List.append_assoc, List.cons_append]
    rw [h.previous _ b after hsplit, List.filter_append, List.filter_cons_of_pos ha,
      List.filter_eq_nil_iff.2 hbetween, List.getLast?_append, List.getLast?_singleton,
      Option.some_or]

/-- The next named element of one is another exactly if the previous one of that is the first. -/
theorem next_iff_previous (ha : a ∈ row) (hb : b ∈ row) (hnamed : named a = true)
    (hnamed' : named b = true) : next a = some b ↔ previous b = some a := by
  rw [h.next_eq_some_iff ha, h.previous_eq_some_iff hb, and_iff_right hnamed,
    and_iff_right hnamed']

end Neighbors

end Row

/-! ## Places of a tree -/

namespace Cursor

variable {a b c p x : Cursor} {tree : Node} {before after : List Cursor}

/-- The index of a child counts the children before it, anonymous ones included. -/
theorem index_eq_length (h : p.children = before ++ x :: after) : x.index = before.length := by
  have hx : p.children[before.length]? = some x := by
    rw [h, List.getElem?_append_right (Nat.le_refl _), Nat.sub_self, List.getElem?_cons_zero]
  rw [children, List.getElem?_mapIdx, Option.map_eq_some_iff] at hx
  obtain ⟨n, -, rfl⟩ := hx
  rfl

theorem children_neighbors (p : Cursor) :
    Neighbors (·.node.named) nextSibling? previousSibling? p.children where
  next before x after h := by
    have hmem : x ∈ p.children := h ▸ List.mem_append_cons_self
    rw [nextSibling?, parent?_of_mem_children hmem, Option.bind_some, index_eq_length h, h,
      List.drop_length_add_append, List.drop_one, List.tail_cons, List.head?_filter]
  previous before x after h := by
    have hmem : x ∈ p.children := h ▸ List.mem_append_cons_self
    rw [previousSibling?, parent?_of_mem_children hmem, Option.bind_some, index_eq_length h, h,
      List.take_left, ← List.head?_filter, List.filter_reverse, List.head?_reverse]

theorem nodup_children (p : Cursor) : p.children.Nodup :=
  (children_pairwise_index p).imp fun hlt heq => Nat.ne_of_lt hlt (congrArg index heq)

/-- The siblings of a named child are the other named children. -/
theorem siblings_of_split (h : p.namedChildren = before ++ c :: after) :
    c.siblings = before ++ after := by
  have hmem : c ∈ p.namedChildren := h ▸ List.mem_append_cons_self
  have hnodup : (before ++ c :: after).Nodup := h ▸ (nodup_children p).filter _
  have hbelow : ∀ x ∈ p.namedChildren, Below p x :=
    fun x hx => .of_mem_children (List.mem_of_mem_filter hx)
  obtain ⟨-, hrest, hdisjoint⟩ := List.nodup_append.1 hnodup
  have hself : ∀ x ∈ p.namedChildren, (!x.samePlace c) = true ↔ x ≠ c := fun x hx => by
    rw [Bool.not_eq_true', ← Bool.not_eq_true, samePlace_iff (hbelow x hx) (hbelow c hmem)]
  simp only [siblings, parent?_of_mem_children (List.mem_of_mem_filter hmem)]
  rw [h] at hself ⊢
  rw [List.filter_append, List.filter_cons_of_neg (by simp [hself c List.mem_append_cons_self]),
    List.filter_eq_self.2, List.filter_eq_self.2]
  · intro x hx
    rw [hself x (List.mem_append_right _ (List.mem_cons_of_mem _ hx))]
    rintro rfl
    exact (List.nodup_cons.1 hrest).1 hx
  · intro x hx
    rw [hself x (List.mem_append_left _ hx)]
    exact hdisjoint x hx c List.mem_cons_self

theorem row_of_nextSibling? (ha : Below (root tree) a) (h : a.nextSibling? = some b) :
    ∃ p : Cursor, a ∈ p.children ∧ b ∈ p.children := by
  obtain ⟨p, hparent, hfind⟩ := Option.bind_eq_some_iff.1 h
  exact ⟨p, (mem_children_of_parent? rfl ha hparent).2,
    List.mem_of_mem_drop (List.mem_of_find?_eq_some hfind)⟩

theorem row_of_previousSibling? (hb : Below (root tree) b) (h : b.previousSibling? = some a) :
    ∃ p : Cursor, a ∈ p.children ∧ b ∈ p.children := by
  obtain ⟨p, hparent, hfind⟩ := Option.bind_eq_some_iff.1 h
  exact ⟨p, List.mem_of_mem_take (List.mem_reverse.1 (List.mem_of_find?_eq_some hfind)),
    (mem_children_of_parent? rfl hb hparent).2⟩

/-- The next sibling of one named place of a tree is another exactly if the previous sibling of that
one is the first. -/
theorem nextSibling?_iff_previousSibling? (ha : Below (root tree) a) (hb : Below (root tree) b)
    (hnamed : a.node.named = true) (hnamed' : b.node.named = true) :
    a.nextSibling? = some b ↔ b.previousSibling? = some a := by
  constructor
  · intro h
    obtain ⟨p, hap, hbp⟩ := row_of_nextSibling? ha h
    exact ((children_neighbors p).next_iff_previous hap hbp hnamed hnamed').1 h
  · intro h
    obtain ⟨p, hap, hbp⟩ := row_of_previousSibling? hb h
    exact ((children_neighbors p).next_iff_previous hap hbp hnamed hnamed').2 h

end Cursor

/-! ## Constructed trees -/

namespace Forest

variable {f : Forest} {a b p : NodeId}

/-- The children of a built node know their parent and their index in it. -/
theorem Consistent.children_neighbors (hf : f.Consistent) (hp : f.Built p) :
    Neighbors (fun c => (f.entry c).named) f.nextSibling? f.previousSibling?
      (f.entry p).children := by
  have hplace : ∀ {before x after}, (f.entry p).children = before ++ x :: after →
      (f.entry x).parent = some p ∧ (f.entry x).index = before.length := by
    intro before x after h
    refine hf.owned p hp before.length x ?_
    rw [h, List.getElem?_append_right (Nat.le_refl _), Nat.sub_self, List.getElem?_cons_zero]
  refine ⟨fun before x after h => ?_, fun before x after h => ?_⟩
  · rw [nextSibling?, (hplace h).1, (hplace h).2, Option.bind_some, h,
      List.drop_length_add_append, List.drop_one, List.tail_cons, firstNamed?, List.head?_filter]
  · rw [previousSibling?, (hplace h).1, (hplace h).2, Option.bind_some, h, List.take_left,
      firstNamed?, ← List.head?_filter, List.filter_reverse, List.head?_reverse]

/-- The next sibling of one named node is another exactly if the previous sibling of that one is the
first, unless they were claimed in vain. -/
theorem Consistent.nextSibling?_iff_previousSibling? (hf : f.Consistent)
    (ha : ∀ p, (f.entry a).parent = some p → f.Built p)
    (hb : ∀ p, (f.entry b).parent = some p → f.Built p)
    (hnamed : (f.entry a).named = true) (hnamed' : (f.entry b).named = true) :
    f.nextSibling? a = some b ↔ f.previousSibling? b = some a := by
  constructor
  · intro h
    obtain ⟨p, hparent, hfind⟩ := Option.bind_eq_some_iff.1 h
    have hmem := List.mem_of_mem_drop (List.mem_of_find?_eq_some hfind)
    exact ((hf.children_neighbors (ha p hparent)).next_iff_previous (hf.listed a p hparent) hmem
      hnamed hnamed').1 h
  · intro h
    obtain ⟨p, hparent, hfind⟩ := Option.bind_eq_some_iff.1 h
    have hmem := List.mem_of_mem_take (List.mem_reverse.1 (List.mem_of_find?_eq_some hfind))
    exact ((hf.children_neighbors (hb p hparent)).next_iff_previous hmem (hf.listed b p hparent)
      hnamed hnamed').2 h

end Forest

/-! ## All views of a row -/

open Cursor

/-- From the first named child of a place, the next siblings are its named children in order, and
then there is none; from the last one, the previous siblings are the same backwards.  The siblings
of a named child are the other ones, and any child, anonymous ones included, has the nearest named
ones on both sides.  A named place of a tree is the next sibling of another one exactly if that is
its previous sibling.  The same holds of the children of a constructed node. -/
theorem siblings_follow_named_children (tree : Node) :
    (∀ p : Cursor,
      Follows nextSibling? p.namedChildren.head? p.namedChildren ∧
      Follows previousSibling? p.namedChildren.getLast? p.namedChildren.reverse ∧
      (∀ before c after, p.namedChildren = before ++ c :: after → c.siblings = before ++ after) ∧
      ∀ before c after, p.children = before ++ c :: after →
        c.nextSibling? = (after.filter (·.node.named)).head? ∧
        c.previousSibling? = (before.filter (·.node.named)).getLast?) ∧
    (∀ a ∈ (Cursor.root tree).nodes, ∀ b ∈ (Cursor.root tree).nodes,
      a.node.named = true → b.node.named = true →
      (a.nextSibling? = some b ↔ b.previousSibling? = some a)) ∧
    ∀ steps, Forest.empty.Admits steps →
      let f := Forest.empty.performAll steps
      (∀ p, f.Built p →
        Follows f.nextSibling? (f.namedChildren p).head? (f.namedChildren p) ∧
        Follows f.previousSibling? (f.namedChildren p).getLast? (f.namedChildren p).reverse ∧
        ∀ before c after, (f.entry p).children = before ++ c :: after →
          f.nextSibling? c = (after.filter fun x => (f.entry x).named).head? ∧
          f.previousSibling? c = (before.filter fun x => (f.entry x).named).getLast?) ∧
      ∀ a b, (∀ p, (f.entry a).parent = some p → f.Built p) →
        (∀ p, (f.entry b).parent = some p → f.Built p) →
        (f.entry a).named = true → (f.entry b).named = true →
        (f.nextSibling? a = some b ↔ f.previousSibling? b = some a) := by
  refine ⟨fun p => ?_, ?_, ?_⟩
  · have h := p.children_neighbors
    exact ⟨h.follows_next, h.follows_previous, fun before c after => siblings_of_split,
      fun before c after hsplit => ⟨h.next _ _ _ hsplit, h.previous _ _ _ hsplit⟩⟩
  · intro a ha b hb
    exact nextSibling?_iff_previousSibling? (mem_nodes_iff.1 ha) (mem_nodes_iff.1 hb)
  · intro steps hsteps f
    have hf : f.Consistent := Forest.empty_consistent.performAll hsteps
    refine ⟨fun p hp => ?_, fun a b => hf.nextSibling?_iff_previousSibling?⟩
    have h := hf.children_neighbors hp
    exact ⟨h.follows_next, h.follows_previous,
      fun before c after hsplit => ⟨h.next _ _ _ hsplit, h.previous _ _ _ hsplit⟩⟩

def argumentList : Node :=
  ⟨"argument_list", 0, 6, true, none, [
    ⟨"(", 0, 1, false, none, []⟩, ⟨"identifier", 1, 2, true, none, []⟩,
    ⟨",", 2, 3, false, none, []⟩, ⟨"identifier", 4, 5, true, none, []⟩,
    ⟨")", 5, 6, false, none, []⟩]⟩

/-- The two arguments lead to each other over the comma, which stands between them. -/
theorem siblings_follow_named_children_argumentList :
    let list := Cursor.root argumentList
    (∃ a b, list.namedChildren = [a, b] ∧ (a.path = [1] ∧ b.path = [3]) ∧
      Follows nextSibling? (some a) [a, b] ∧ Follows previousSibling? (some b) [b, a] ∧
      a.siblings = [b] ∧ (a.nextSibling? = some b ↔ b.previousSibling? = some a) ∧
      ∃ comma ∈ list.children, comma.path = [2] ∧
        comma.nextSibling? = some b ∧ comma.previousSibling? = some a) ∧
    let f := Forest.empty.performAll Forest.family
    Follows f.nextSibling? (some 0) [0, 1] ∧ (f.nextSibling? 0 = some 1 ↔
      f.previousSibling? 1 = some 0) := by
  intro list
  obtain ⟨hrow, hback, hconstructed⟩ := siblings_follow_named_children argumentList
  obtain ⟨hnext, hprevious, hsiblings, hsides⟩ := hrow list
  obtain ⟨hfollows, hpair⟩ := hconstructed Forest.family (by decide +kernel)
  refine ⟨⟨_, _, rfl, ⟨rfl, rfl⟩, hnext, hprevious, hsiblings [] _ _ rfl, ?_, ?_⟩, ?_, ?_⟩
  · exact hback _ (mem_nodes_iff.2 (.step .refl (mem_children_iff.2 ⟨1, _, rfl, rfl⟩))) _
      (mem_nodes_iff.2 (.step .refl (mem_children_iff.2 ⟨3, _, rfl, rfl⟩))) rfl rfl
  · exact ⟨_, mem_children_iff.2 ⟨2, _, rfl, rfl⟩, rfl, hsides [_, _] _ _ rfl⟩
  · exact (hfollows 2 (by decide +kernel)).1
  · have hbuilt : ∀ c < 2, ∀ p, ((Forest.empty.performAll Forest.family).entry c).parent = some p →
        (Forest.empty.performAll Forest.family).Built p := by
      intro c hc p hp
      have hparent : ∀ c < 2,
          ((Forest.empty.performAll Forest.family).entry c).parent = some 2 := by decide +kernel
      obtain rfl := Option.some.inj ((hparent c hc).symm.trans hp)
      decide +kernel
    exact hpair 0 1 (hbuilt 0 (by decide)) (hbuilt 1 (by decide)) (by decide +kernel)
      (by decide +kernel)

end RubyLint
