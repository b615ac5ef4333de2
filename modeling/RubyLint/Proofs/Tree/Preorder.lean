import Mathlib.Data.List.Nodup
import Mathlib.Data.List.Perm.Basic
import RubyLint.Proofs.Tree.Place

/-!
# Pre-order

The walk keeps the places that it still has to visit in one line.  What it visits is the recursive
pre-order of the tree, a node and then the trees of its children from left to right, and it comes to
every place once.

A tour goes around the tree in the same way, but comes by every place twice, before the places below
it and after them.
-/

namespace RubyLint.Cursor

/-- The places of a tree in pre-order: the root, then those below its children from left to
right. -/
def preorder (c : Cursor) : List Cursor :=
  c :: c.children.attach.flatMap fun child => preorder child.1
termination_by c.node.size
decreasing_by exact size_lt_of_mem_children child.2

theorem preorder_eq (c : Cursor) : c.preorder = c :: c.children.flatMap preorder := by
  rw [preorder, List.flatMap_subtype fun _ _ => rfl, List.unattach_attach]

/-- The walk over some places is the pre-order of each, one after the other. -/
theorem walk_eq_flatMap (pending : List Cursor) : walk pending = pending.flatMap preorder := by
  fun_induction walk pending with
  | case1 => rfl
  | case2 c pending ih =>
      calc
        c :: walk (c.children ++ pending) = c :: (c.children ++ pending).flatMap preorder := by
          rw [ih]
        _ = (c :: c.children.flatMap preorder) ++ pending.flatMap preorder := by
          rw [List.flatMap_append, List.cons_append]
        _ = (c :: pending).flatMap preorder := by
          rw [List.flatMap_cons, preorder_eq c]

theorem nodes_eq_preorder (c : Cursor) : c.nodes = c.preorder := by
  rw [nodes, walk_eq_flatMap, List.flatMap_singleton]

theorem mem_preorder_iff {c x : Cursor} : x ∈ c.preorder ↔ Below c x := by
  rw [← nodes_eq_preorder, mem_nodes_iff]

/-- What holds of a place if it holds of its children holds of every place. -/
theorem induction_on_children {P : Cursor → Prop} (h : ∀ c, (∀ u ∈ c.children, P u) → P c)
    (c : Cursor) : P c := by
  induction hsize : c.node.size using Nat.strongRecOn generalizing c with
  | ind size ih =>
      apply h
      intro u hu
      exact ih u.node.size (hsize ▸ size_lt_of_mem_children hu) u rfl

/-- No place is visited twice. -/
theorem nodup_preorder (c : Cursor) : c.preorder.Nodup := by
  induction c using induction_on_children with
  | h c ih =>
      rw [preorder_eq, List.nodup_cons, List.nodup_flatMap]
      refine ⟨?_, ih, ?_⟩
      · intro hc
        obtain ⟨u, hu, hcu⟩ := List.mem_flatMap.1 hc
        have hle := (mem_preorder_iff.1 hcu).size_le
        have hlt := size_lt_of_mem_children hu
        omega
      · apply c.children_pairwise_index.imp_of_mem
        intro u v hu hv hlt x hxu hxv
        have huv := child_unique hu hv (mem_preorder_iff.1 hxu) (mem_preorder_iff.1 hxv)
        exact Nat.ne_of_lt hlt (congrArg index huv)

theorem nodup_nodes (c : Cursor) : c.nodes.Nodup := by
  rw [nodes_eq_preorder]
  exact nodup_preorder c

/-- Whether a place comes before another one: it lies strictly above it, or ends before it
starts. -/
def Precedes (x y : Cursor) : Prop :=
  (Below x y ∧ x ≠ y) ∨ x.node.stop ≤ y.node.start

/-- The walk over an orderly tree goes from what comes before to what comes after. -/
theorem Orderly.pairwise_nodes {top : Cursor} (h : top.Orderly) : top.nodes.Pairwise Precedes := by
  rw [nodes_eq_preorder]
  induction top using induction_on_children with
  | h c ih =>
      rw [preorder_eq, List.pairwise_cons, List.pairwise_flatMap]
      refine ⟨fun x hx => ?_, fun u hu => ih u hu (h.below (.of_mem_children hu)), ?_⟩
      · obtain ⟨u, hu, hux⟩ := List.mem_flatMap.1 hx
        have hle := (mem_preorder_iff.1 hux).size_le
        have hlt := size_lt_of_mem_children hu
        refine .inl ⟨.of_child hu (mem_preorder_iff.1 hux), ?_⟩
        rintro rfl
        omega
      · apply c.children_pairwise_index.imp_of_mem
        intro u v hu hv hlt x hux y hvy
        exact .inr (h.apart hu hv hlt (mem_preorder_iff.1 hux) (mem_preorder_iff.1 hvy))

/-! ## Tours -/

section Tour

variable {α : Type} {before after : Cursor → List α}

/-- The tour around a tree: what stands before a place, the tours around its children, what stands
after it. -/
def tour (before after : Cursor → List α) (c : Cursor) : List α :=
  before c ++ c.children.attach.flatMap (fun child => tour before after child.1) ++ after c
termination_by c.node.size
decreasing_by exact size_lt_of_mem_children child.2

theorem tour_eq (c : Cursor) :
    tour before after c = before c ++ c.children.flatMap (tour before after) ++ after c := by
  rw [tour, List.flatMap_subtype fun _ _ => rfl, List.unattach_attach]

/-- A tour comes by every place. -/
theorem tour_perm (c : Cursor) :
    (tour before after c).Perm (c.preorder.flatMap fun u => before u ++ after u) := by
  induction c using induction_on_children with
  | h c ih =>
      calc
        tour before after c = before c ++ c.children.flatMap (tour before after) ++ after c :=
          tour_eq c
        List.Perm _ (before c ++ after c ++ c.children.flatMap (tour before after)) := by
          rw [List.append_assoc, List.append_assoc]
          exact List.perm_append_comm.append_left _
        List.Perm _ (before c ++ after c ++
            c.children.flatMap fun u => u.preorder.flatMap fun x => before x ++ after x) :=
          (List.Perm.flatMap_left _ ih).append_left _
        _ = c.preorder.flatMap fun u => before u ++ after u := by
          rw [preorder_eq, List.flatMap_cons, List.flatMap_assoc]

theorem exists_of_mem_tour {c : Cursor} {a : α} (h : a ∈ tour before after c) :
    ∃ x, Below c x ∧ (a ∈ before x ∨ a ∈ after x) := by
  obtain ⟨x, hx, ha⟩ := List.mem_flatMap.1 ((tour_perm c).mem_iff.1 h)
  exact ⟨x, mem_preorder_iff.1 hx, List.mem_append.1 ha⟩

/-- A relation orders a tour if what stands before a place may come before everything, what stands
after one behind everything, and what stands after a place before what stands before a later one. -/
theorem pairwise_tour {R : α → α → Prop} {top : Cursor}
    (hbefore : ∀ x, ∀ a ∈ before x, ∀ y, ∀ b ∈ before y ++ after y, R a b)
    (hafter : ∀ x, ∀ b ∈ after x, ∀ y, ∀ a ∈ before y ++ after y, R a b)
    (hapart : ∀ c u v x y, Below top c → u ∈ c.children → v ∈ c.children → u.index < v.index →
      Below u x → Below v y → ∀ a ∈ after x, ∀ b ∈ before y, R a b) :
    (tour before after top).Pairwise R := by
  suffices ∀ c, Below top c → (tour before after c).Pairwise R from this top .refl
  intro c
  induction c using induction_on_children with
  | h c ih =>
      intro hc
      have hopens : ∀ a ∈ before c, ∀ y, ∀ b, b ∈ before y ∨ b ∈ after y → R a b :=
        fun a ha y b hb => hbefore c a ha y b (List.mem_append.2 hb)
      have hcloses : ∀ b ∈ after c, ∀ y, ∀ a, a ∈ before y ∨ a ∈ after y → R a b :=
        fun b hb y a ha => hafter c b hb y a (List.mem_append.2 ha)
      have hmiddle : (c.children.flatMap (tour before after)).Pairwise R := by
        rw [List.pairwise_flatMap]
        refine ⟨fun u hu => ih u hu (.step hc hu), ?_⟩
        apply c.children_pairwise_index.imp_of_mem
        intro u v hu hv hlt a ha b hb
        obtain ⟨x, hx, hax⟩ := exists_of_mem_tour ha
        obtain ⟨y, hy, hby⟩ := exists_of_mem_tour hb
        rcases hax with hax | hax
        · exact hbefore x a hax y b (List.mem_append.2 hby)
        rcases hby with hby | hby
        · exact hapart c u v x y hc hu hv hlt hx hy a hax b hby
        · exact hafter y b hby x a (List.mem_append_right _ hax)
      have hinner : ∀ a ∈ c.children.flatMap (tour before after),
          ∃ x, a ∈ before x ∨ a ∈ after x := by
        intro a ha
        obtain ⟨u, -, ha⟩ := List.mem_flatMap.1 ha
        obtain ⟨x, -, hax⟩ := exists_of_mem_tour ha
        exact ⟨x, hax⟩
      rw [tour_eq, List.append_assoc, List.pairwise_append, List.pairwise_append]
      refine ⟨?_, ⟨hmiddle, ?_, ?_⟩, ?_⟩
      · exact List.pairwise_of_forall_mem_list fun a ha b hb => hopens a ha c b (.inl hb)
      · exact List.pairwise_of_forall_mem_list fun a ha b hb => hcloses b hb c a (.inr ha)
      · intro a ha b hb
        obtain ⟨x, hax⟩ := hinner a ha
        exact hcloses b hb x a hax
      · intro a ha b hb
        rcases List.mem_append.1 hb with hb | hb
        · obtain ⟨x, hbx⟩ := hinner b hb
          exact hopens a ha x b hbx
        · exact hopens a ha c b (.inr hb)

end Tour

end RubyLint.Cursor
