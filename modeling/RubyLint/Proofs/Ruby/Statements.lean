import Mathlib.Data.List.Flatten
import Mathlib.Data.List.Pairwise
import RubyLint.Proofs.Ruby.Shape
import RubyLint.Proofs.Tree.Preorder

/-!
# Statements of blocks

The statements of a call's block are found on the way down, through the bodies that may wrap them,
and the call that a node is a statement of is found on the way up.  A call is found above each of
its statements.  The converse needs a tree in which the nodes in between are named and the block of
a call is the one in its field.
-/

namespace RubyLint.Ruby

open Cursor

variable {b c d g x y top : Cursor}

/-! ## The way down -/

theorem block?_spec (h : block? c = some b) :
    b ∈ c.children ∧ blockKinds.contains b.node.kind = true := by
  obtain ⟨hrole, hkind⟩ := Option.filter_eq_some_iff.1 h
  exact ⟨role?_mem hrole, hkind⟩

theorem mem_statements_iff : x ∈ statements b ↔ ∃ u ∈ b.namedChildren,
    u.node.kind ≠ "block_parameters" ∧ u.node.kind ≠ "comment" ∧
      (bodyKinds.contains u.node.kind = true ∧ x ∈ u.namedChildren ∧ x.node.kind ≠ "comment" ∨
        bodyKinds.contains u.node.kind = false ∧ x = u) := by
  rw [statements, List.mem_flatMap]
  refine exists_congr fun u => and_congr_right fun _ => ?_
  by_cases hskip : u.node.kind = "block_parameters" ∨ u.node.kind = "comment"
  · rcases hskip with hskip | hskip <;> simp [hskip]
  · rw [not_or] at hskip
    cases hbody : bodyKinds.contains u.node.kind <;> simp [hskip]

theorem exists_block (h : x ∈ blockStatements c) : ∃ b, block? c = some b ∧ x ∈ statements b := by
  rw [blockStatements] at h
  split at h
  next => simp at h
  next b hb => exact ⟨b, hb, h⟩

theorem not_body_of_block {kind : String} (h : blockKinds.contains kind = true) :
    bodyKinds.contains kind = false := by
  have hkind : kind = "block" ∨ kind = "do_block" := by simpa [blockKinds] using h
  rcases hkind with rfl | rfl <;> decide

theorem enclosingCall?_eq_some_iff : enclosingCall? x = some c ↔ ∃ p b, x.parent? = some p ∧
    (bodyKinds.contains p.node.kind = true ∧ p.parent? = some b ∨
      bodyKinds.contains p.node.kind = false ∧ b = p) ∧
    blockKinds.contains b.node.kind = true ∧ b.parent? = some c ∧ isCall c = true := by
  rw [enclosingCall?]
  cases x.parent? with
  | none => simp
  | some p =>
      by_cases hbody : p.node.kind ∈ bodyKinds
      · simp [hbody, Option.bind_eq_some_iff, Option.filter_eq_some_iff]
      · simp [hbody, Option.filter_eq_some_iff]

/-- Whatever the tree, the call that a node is a statement of is found above the node. -/
theorem enclosingCall?_of_mem (hcall : isCall c = true) (h : x ∈ blockStatements c) :
    enclosingCall? x = some c := by
  obtain ⟨b, hb, hx⟩ := exists_block h
  obtain ⟨hchild, hkind⟩ := block?_spec hb
  have howner : b.parent? = some c := parent?_of_mem_children hchild
  rw [enclosingCall?_eq_some_iff]
  obtain ⟨u, hu, -, -, ⟨hbody, hx, -⟩ | ⟨-, rfl⟩⟩ := mem_statements_iff.1 hx
  · have hu : u.parent? = some b := parent?_of_mem_children (List.mem_filter.1 hu).1
    have hx : x.parent? = some u := parent?_of_mem_children (List.mem_filter.1 hx).1
    exact ⟨u, b, hx, .inl ⟨hbody, hu⟩, hkind, howner, hcall⟩
  · have hx : x.parent? = some b := parent?_of_mem_children (List.mem_filter.1 hu).1
    exact ⟨b, b, hx, .inr ⟨not_body_of_block hkind, rfl⟩, hkind, howner, hcall⟩

/-! ## Statements as places -/

theorem statements_sublist (b : Cursor) :
    ((statements b).flatMap preorder).Sublist (b.children.flatMap preorder) := by
  have hnamed : b.namedChildren.Sublist b.children := List.filter_sublist
  refine .trans ?_ (hnamed.flatMap preorder)
  rw [statements, List.flatMap_assoc]
  refine List.Sublist.flatMap_right _ fun u _ => ?_
  split
  · exact List.nil_sublist _
  split
  · refine .trans ?_ (preorder_eq u ▸ List.sublist_cons_self u _)
    have hnamed : u.namedChildren.Sublist u.children := List.filter_sublist
    exact (List.filter_sublist.trans hnamed).flatMap preorder
  · rw [List.flatMap_singleton]

/-- The trees of the statements of a block follow each other among the places below the call. -/
theorem blockStatements_sublist (c : Cursor) :
    ((blockStatements c).flatMap preorder).Sublist (c.children.flatMap preorder) := by
  rw [blockStatements]
  split
  · exact List.nil_sublist _
  next b hb =>
    calc
      List.Sublist _ (b.children.flatMap preorder) := statements_sublist b
      List.Sublist _ b.preorder := preorder_eq b ▸ List.sublist_cons_self b _
      List.Sublist _ (c.children.flatMap preorder) := by
        rw [← List.flatMap_singleton preorder b]
        exact (List.singleton_sublist.2 (block?_spec hb).1).flatMap preorder

theorem nodup_blockStatements (c : Cursor) : ((blockStatements c).flatMap preorder).Nodup := by
  have hnodup := c.nodup_preorder
  rw [preorder_eq] at hnodup
  exact (List.nodup_cons.1 hnodup).2.sublist (blockStatements_sublist c)

theorem nodup_statements (c : Cursor) : (blockStatements c).Nodup := by
  rw [List.nodup_iff_pairwise_ne]
  refine List.Pairwise.imp ?_ (List.nodup_flatMap.1 (nodup_blockStatements c)).2
  rintro x _ hdisjoint rfl
  exact hdisjoint (mem_preorder_iff.2 .refl) (mem_preorder_iff.2 .refl)

theorem exists_child_of_statement (h : x ∈ blockStatements c) : ∃ u ∈ c.children, Below u x := by
  have hx : x ∈ (blockStatements c).flatMap preorder :=
    List.mem_flatMap.2 ⟨x, h, mem_preorder_iff.2 .refl⟩
  obtain ⟨u, hu, hux⟩ := List.mem_flatMap.1 ((blockStatements_sublist c).subset hx)
  exact ⟨u, hu, mem_preorder_iff.1 hux⟩

theorem below_of_mem_blockStatements (h : x ∈ blockStatements c) : Below c x := by
  obtain ⟨u, hu, hux⟩ := exists_child_of_statement h
  exact .of_child hu hux

theorem size_lt_of_statement (h : x ∈ blockStatements c) : x.node.size < c.node.size := by
  obtain ⟨u, hu, hux⟩ := exists_child_of_statement h
  exact Nat.lt_of_le_of_lt hux.size_le (size_lt_of_mem_children hu)

/-- Only one statement of a block is above a given place. -/
theorem statement_unique (hx : x ∈ blockStatements c) (hy : y ∈ blockStatements c)
    (hxd : Below x d) (hyd : Below y d) : x = y := by
  by_contra hne
  have hapart := (List.nodup_flatMap.1 (nodup_blockStatements c)).2
  have hsymm : Std.Symm (Function.onFun List.Disjoint preorder) :=
    ⟨fun _ _ h _ hleft hright => h hright hleft⟩
  exact hapart.forall hx hy hne (mem_preorder_iff.2 hxd) (mem_preorder_iff.2 hyd)

theorem workload_eq (pending : List Cursor) :
    workload pending = (pending.flatMap preorder).length := by
  rw [← walk_eq_flatMap, length_walk]

theorem workload_cons (c : Cursor) (pending : List Cursor) :
    workload (c :: pending) = c.node.size + workload pending := rfl

/-- There is less to do for the statements of a call than for the call itself. -/
theorem workload_blockStatements (c : Cursor) : workload (blockStatements c) < c.node.size := by
  rw [workload_eq, ← workload_children c, workload_eq]
  exact Nat.lt_succ_of_le (blockStatements_sublist c).length_le

/-! ## The way up -/

/-- Calls, blocks and bodies are nodes of the grammar, and a call has its block in its field. -/
structure Blocks (top : Cursor) : Prop where
  named : ∀ x, Below top x → isCall x = true ∨ blockKinds.contains x.node.kind = true ∨
    bodyKinds.contains x.node.kind = true → x.node.named = true
  block : ∀ x, Below top x → isCall x = true → ∀ b ∈ x.children,
    blockKinds.contains b.node.kind = true → block? x = some b

/-- A child is the block of a call if it stands where the block does. -/
theorem block?_eq_some_iff (hb : b ∈ c.children) :
    block? c = some b ↔ (block? c).map index = some b.index := by
  cases hblock : block? c with
  | none => simp
  | some b' =>
      simp only [Option.some.injEq, Option.map_some]
      exact ⟨congrArg index, eq_of_index_eq (block?_spec hblock).1 hb⟩

instance (top : Cursor) : Decidable (Blocks top) :=
  decidable_of_iff ((∀ x, Below top x → isCall x = true ∨
      blockKinds.contains x.node.kind = true ∨ bodyKinds.contains x.node.kind = true →
        x.node.named = true) ∧
    ∀ x, Below top x → isCall x = true → ∀ b ∈ x.children,
      blockKinds.contains b.node.kind = true → (block? x).map index = some b.index) <| by
  constructor
  · rintro ⟨hnamed, hblock⟩
    exact ⟨hnamed, fun x hx hcall b hb hkind =>
      (block?_eq_some_iff hb).2 (hblock x hx hcall b hb hkind)⟩
  · rintro ⟨hnamed, hblock⟩
    exact ⟨hnamed, fun x hx hcall b hb hkind =>
      (block?_eq_some_iff hb).1 (hblock x hx hcall b hb hkind)⟩

/-- In such a tree, what a call is found above is one of its statements. -/
theorem Blocks.mem_of_enclosingCall? (h : Blocks top) (hroot : top.parent? = none)
    (hx : Below top x) (hcall : isCall x = true) (henclosing : enclosingCall? x = some c) :
    isCall c = true ∧ Below top c ∧ x ∈ blockStatements c := by
  obtain ⟨p, b, hp, hpb, hkind, howner, hc⟩ := enclosingCall?_eq_some_iff.1 henclosing
  obtain ⟨hbelow, hxp⟩ := mem_children_of_parent? hroot hx hp
  have hxkind : x.node.kind = "call" := by simpa [isCall] using hcall
  have hxp : x ∈ p.namedChildren := List.mem_filter.2 ⟨hxp, h.named x hx (.inl hcall)⟩
  have hb : Below top b ∧ x ∈ statements b := by
    rcases hpb with ⟨hbody, hpb⟩ | ⟨hbody, rfl⟩
    · obtain ⟨htop, hpb⟩ := mem_children_of_parent? hroot hbelow hpb
      have hpb : p ∈ b.namedChildren :=
        List.mem_filter.2 ⟨hpb, h.named p hbelow (.inr (.inr hbody))⟩
      have hpkind : p.node.kind = "block_body" ∨ p.node.kind = "body_statement" := by
        simpa [bodyKinds] using hbody
      refine ⟨htop, mem_statements_iff.2 ⟨p, hpb, ?_, ?_, .inl ⟨hbody, hxp, by simp [hxkind]⟩⟩⟩
      all_goals rcases hpkind with hpkind | hpkind <;> simp [hpkind]
    · refine ⟨hbelow, mem_statements_iff.2 ⟨x, hxp, ?_, ?_, .inr ⟨?_, rfl⟩⟩⟩
      all_goals simp [hxkind, bodyKinds]
  obtain ⟨htop, hchild⟩ := mem_children_of_parent? hroot hb.1 howner
  rw [blockStatements, h.block c htop hc b hchild hkind]
  exact ⟨hc, htop, hb.2⟩

end RubyLint.Ruby
