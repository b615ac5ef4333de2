import RubyLint.Tree.Document

/-!
# Places of a tree

Two places of a tree either lie one below the other, or part at a common ancestor into different
children.  In an orderly tree, where children stand in order inside their parent, places that part
cover ranges that follow each other; everything about the ranges of two nodes comes down to this.
-/

namespace RubyLint.Cursor

/-- A place at or below another one. -/
inductive Below (top : Cursor) : Cursor → Prop where
  | refl : Below top top
  | step {c x : Cursor} : Below top c → x ∈ c.children → Below top x

variable {a b c top u v x y : Cursor}

/-! ## Children -/

theorem mem_children_iff :
    x ∈ c.children ↔ ∃ i n, c.node.children[i]? = some n ∧ x = c.down i n := by
  simp only [children, List.mem_mapIdx, eq_comm (b := x)]
  constructor
  · rintro ⟨i, h, rfl⟩
    exact ⟨i, c.node.children[i], List.getElem?_eq_getElem h, rfl⟩
  · rintro ⟨i, n, hn, rfl⟩
    obtain ⟨h, rfl⟩ := List.getElem?_eq_some_iff.1 hn
    exact ⟨i, h, rfl⟩

theorem parent?_of_mem_children (h : x ∈ c.children) : x.parent? = some c := by
  obtain ⟨i, n, -, rfl⟩ := mem_children_iff.1 h
  rfl

theorem getElem?_index (h : x ∈ c.children) : c.node.children[x.index]? = some x.node := by
  obtain ⟨i, n, hn, rfl⟩ := mem_children_iff.1 h
  exact hn

theorem node_mem_children (h : x ∈ c.children) : x.node ∈ c.node.children :=
  List.mem_of_getElem? (getElem?_index h)

theorem exists_mem_children {n : Node} (h : n ∈ c.node.children) :
    ∃ x ∈ c.children, x.node = n := by
  obtain ⟨i, hi⟩ := List.getElem?_of_mem h
  exact ⟨c.down i n, mem_children_iff.2 ⟨i, n, hi, rfl⟩, rfl⟩

/-- A child is determined by its index. -/
theorem eq_of_index_eq (hx : x ∈ c.children) (hy : y ∈ c.children) (h : x.index = y.index) :
    x = y := by
  obtain ⟨i, n, hn, rfl⟩ := mem_children_iff.1 hx
  obtain ⟨j, m, hm, rfl⟩ := mem_children_iff.1 hy
  obtain rfl : i = j := h
  obtain rfl : n = m := Option.some.inj (hn.symm.trans hm)
  rfl

theorem parent_unique (ha : x ∈ a.children) (hb : x ∈ b.children) : a = b :=
  Option.some.inj ((parent?_of_mem_children ha).symm.trans (parent?_of_mem_children hb))

/-- A relation between the nodes of a list that stand in order holds between children by index. -/
theorem rel_of_index_lt {R : Node → Node → Prop} (h : c.node.children.Pairwise R)
    (hu : u ∈ c.children) (hv : v ∈ c.children) (hlt : u.index < v.index) : R u.node v.node := by
  obtain ⟨hiu, hu'⟩ := List.getElem?_eq_some_iff.1 (getElem?_index hu)
  obtain ⟨hiv, hv'⟩ := List.getElem?_eq_some_iff.1 (getElem?_index hv)
  rw [← hu', ← hv']
  exact List.pairwise_iff_getElem.1 h _ _ hiu hiv hlt

/-- Of two children one stands before the other, unless they are the same. -/
theorem index_lt_or_eq_or_lt (hu : u ∈ c.children) (hv : v ∈ c.children) :
    u.index < v.index ∨ u = v ∨ v.index < u.index := by
  rcases Nat.lt_trichotomy u.index v.index with hlt | heq | hgt
  · exact .inl hlt
  · exact .inr (.inl (eq_of_index_eq hu hv heq))
  · exact .inr (.inr hgt)

/-- Children are listed by their index. -/
theorem children_pairwise_index (c : Cursor) :
    c.children.Pairwise fun x y => x.index < y.index := by
  rw [List.pairwise_iff_getElem]
  intro i j hi hj hij
  simpa [children, down, index] using hij

/-! ## Places below -/

theorem Below.trans (hab : Below a b) (hbc : Below b c) : Below a c := by
  induction hbc with
  | refl => exact hab
  | step _ hmem ih => exact .step ih hmem

theorem Below.of_mem_children (h : x ∈ c.children) : Below c x :=
  .step .refl h

/-- A place that has a parent is a child of it. -/
theorem mem_children_of_parent? (hroot : top.parent? = none) (hx : Below top x)
    (h : x.parent? = some y) : Below top y ∧ x ∈ y.children := by
  cases hx with
  | refl => nomatch hroot.symm.trans h
  | step hbelow hmem =>
      obtain rfl := Option.some.inj ((parent?_of_mem_children hmem).symm.trans h)
      exact ⟨hbelow, hmem⟩

theorem Below.size_le (h : Below c x) : x.node.size ≤ c.node.size := by
  induction h with
  | refl => exact Nat.le_refl _
  | step _ hmem ih => exact Nat.le_trans (Nat.le_of_lt (size_lt_of_mem_children hmem)) ih

/-- A place strictly below another one is at or below one of its children. -/
theorem Below.eq_or_child (h : Below c x) : x = c ∨ ∃ u ∈ c.children, Below u x := by
  induction h with
  | refl => exact .inl rfl
  | step _ hmem ih =>
      rcases ih with rfl | ⟨u, hu, hbelow⟩
      · exact .inr ⟨_, hmem, .refl⟩
      · exact .inr ⟨u, hu, .step hbelow hmem⟩

theorem Below.of_child (hu : u ∈ c.children) (h : Below u x) : Below c x :=
  (Below.of_mem_children hu).trans h

theorem Below.antisymm (hab : Below a b) (hba : Below b a) : a = b := by
  rcases hab.eq_or_child with rfl | ⟨u, hu, hub⟩
  · rfl
  · have hlt := size_lt_of_mem_children hu
    have hle := (hub.trans hba).size_le
    omega

/-- The places above a given one lie below each other. -/
theorem Below.comparable (ha : Below a x) (hb : Below b x) : Below a b ∨ Below b a := by
  induction ha with
  | refl => exact .inr hb
  | step hbelow hmem ih =>
      cases hb with
      | refl => exact .inl (.step hbelow hmem)
      | step hbelow' hmem' =>
          obtain rfl := parent_unique hmem' hmem
          exact ih hbelow'

/-- A leaf has nothing below it. -/
theorem Below.eq_of_leaf (h : Below c x) (hleaf : c.node.children = []) : x = c := by
  rcases h.eq_or_child with rfl | ⟨u, hu, -⟩
  · rfl
  · have := node_mem_children hu
    simp [hleaf] at this

/-- Only one child of a place is above a given place. -/
theorem child_unique (hu : u ∈ c.children) (hv : v ∈ c.children) (hux : Below u x)
    (hvx : Below v x) : u = v := by
  have heq : ∀ {a b : Cursor}, a ∈ c.children → b ∈ c.children → Below a b → a = b := by
    intro a b ha hb hab
    cases hab with
    | refl => rfl
    | step hbelow hmem =>
        obtain rfl := parent_unique hmem hb
        have := hbelow.size_le
        have := size_lt_of_mem_children ha
        omega
  rcases hux.comparable hvx with huv | hvu
  · exact heq hu hv huv
  · exact (heq hv hu hvu).symm

theorem path_of_mem_children (h : x ∈ c.children) : x.path = c.path ++ [x.index] := by
  obtain ⟨i, n, -, rfl⟩ := mem_children_iff.1 h
  simp [path, down, index]

theorem Below.length_path_le (h : Below c x) : c.path.length ≤ x.path.length := by
  induction h with
  | refl => exact Nat.le_refl _
  | step _ hmem ih =>
      rw [path_of_mem_children hmem, List.length_append]
      exact Nat.le_add_right_of_le ih

/-- Two places of a tree are the same if their paths agree. -/
theorem Below.eq_of_path_eq (hx : Below top x) (hy : Below top y) (h : x.path = y.path) :
    x = y := by
  induction hx generalizing y with
  | refl =>
      cases hy with
      | refl => rfl
      | step hbelow hmem =>
          have hlength := congrArg List.length h
          rw [path_of_mem_children hmem, List.length_append, List.length_singleton] at hlength
          have := hbelow.length_path_le
          omega
  | step hbelow hmem ih =>
      rw [path_of_mem_children hmem] at h
      cases hy with
      | refl =>
          have hlength := congrArg List.length h
          rw [List.length_append, List.length_singleton] at hlength
          have := hbelow.length_path_le
          omega
      | step hbelow' hmem' =>
          rw [path_of_mem_children hmem'] at h
          obtain ⟨hpath, hindex⟩ := List.append_inj' h rfl
          obtain rfl := ih hbelow' hpath
          exact eq_of_index_eq hmem hmem' (List.singleton_inj.1 hindex)

theorem samePlace_iff (hx : Below top x) (hy : Below top y) : x.samePlace y = true ↔ x = y := by
  rw [samePlace, beq_iff_eq]
  constructor
  · exact hx.eq_of_path_eq hy
  · rintro rfl
    rfl

/-- Whether a test holds at a place and everywhere below it, down to a depth. -/
def allBelow (test : Cursor → Bool) : Nat → Cursor → Bool
  | 0, _ => true
  | depth + 1, c => test c && c.children.all (allBelow test depth)

theorem allBelow_iff {test : Cursor → Bool} {depth : Nat} (hdepth : c.node.size ≤ depth) :
    allBelow test depth c = true ↔ ∀ x, Below c x → test x = true := by
  induction depth generalizing c with
  | zero =>
      have := Node.size_eq c.node
      omega
  | succ depth ih =>
      have ih := fun u (hu : u ∈ c.children) => ih (c := u) <| by
        have := size_lt_of_mem_children hu
        omega
      rw [allBelow, Bool.and_eq_true, List.all_eq_true]
      constructor
      · rintro ⟨hc, hchildren⟩ x hx
        rcases hx.eq_or_child with rfl | ⟨u, hu, hux⟩
        · exact hc
        · exact (ih u hu).1 (hchildren u hu) x hux
      · exact fun h => ⟨h c .refl, fun u hu => (ih u hu).2 fun x hx => h x (.of_child hu hx)⟩

instance (c : Cursor) (P : Cursor → Prop) [DecidablePred P] : Decidable (∀ x, Below c x → P x) :=
  decidable_of_iff (allBelow (fun x => decide (P x)) c.node.size c = true) <| by
    simp [allBelow_iff (Nat.le_refl _)]

/-! ## The walk visits the places below -/

theorem mem_walk_iff {pending : List Cursor} : x ∈ walk pending ↔ ∃ c ∈ pending, Below c x := by
  fun_induction walk pending with
  | case1 => simp
  | case2 c pending ih =>
      rw [List.mem_cons, ih]
      constructor
      · rintro (rfl | ⟨u, hu, hbelow⟩)
        · exact ⟨x, List.mem_cons_self, .refl⟩
        · rcases List.mem_append.1 hu with hu | hu
          · exact ⟨c, List.mem_cons_self, .of_child hu hbelow⟩
          · exact ⟨u, List.mem_cons_of_mem c hu, hbelow⟩
      · rintro ⟨u, hu, hbelow⟩
        rcases List.mem_cons.1 hu with rfl | hu
        · rcases hbelow.eq_or_child with rfl | ⟨v, hv, hvx⟩
          · exact .inl rfl
          · exact .inr ⟨v, List.mem_append_left _ hv, hvx⟩
        · exact .inr ⟨u, List.mem_append_right _ hu, hbelow⟩

theorem mem_nodes_iff : x ∈ c.nodes ↔ Below c x := by
  simp [nodes, mem_walk_iff]

theorem length_walk (pending : List Cursor) : (walk pending).length = workload pending := by
  fun_induction walk pending with
  | case1 => rfl
  | case2 c pending ih =>
      have hchildren := workload_children c
      simp only [workload, List.map_append, Node.sizeAll_append, List.map_cons, Node.sizeAll,
        List.length_cons] at ih hchildren ⊢
      omega

theorem length_nodes (c : Cursor) : c.nodes.length = c.node.size := by
  simp [nodes, length_walk, workload, Node.sizeAll]

end RubyLint.Cursor

namespace RubyLint

/-- The children of a node stand in order, apart from each other and inside the node. -/
structure Node.Nested (n : Node) : Prop where
  forward : n.start ≤ n.stop
  inside : ∀ m ∈ n.children, n.start ≤ m.start ∧ m.stop ≤ n.stop
  apart : n.children.Pairwise fun a b => a.stop ≤ b.start

instance (n : Node) : Decidable n.Nested :=
  decidable_of_iff (_ ∧ _ ∧ _) ⟨fun h => ⟨h.1, h.2.1, h.2.2⟩, fun h => ⟨h.1, h.2, h.3⟩⟩

namespace Cursor

/-- Every node of the tree at a place is nested. -/
def Orderly (top : Cursor) : Prop :=
  ∀ x, Below top x → x.node.Nested

instance (top : Cursor) : Decidable top.Orderly :=
  inferInstanceAs (Decidable (∀ x, Below top x → x.node.Nested))

variable {a b c top u v x y : Cursor}

namespace Orderly

theorem below (h : Orderly top) (hx : Below top x) : Orderly x :=
  fun y hy => h y (hx.trans hy)

theorem forward (h : Orderly x) : x.node.start ≤ x.node.stop :=
  (h x .refl).forward

/-- What is below a place lies inside its range. -/
theorem inside (h : Orderly a) (hx : Below a x) :
    a.node.start ≤ x.node.start ∧ x.node.stop ≤ a.node.stop := by
  induction hx with
  | refl => exact ⟨Nat.le_refl _, Nat.le_refl _⟩
  | step hbelow hmem ih =>
      have := (h _ hbelow).inside _ (node_mem_children hmem)
      omega

theorem siblings (h : Orderly c) (hu : u ∈ c.children) (hv : v ∈ c.children)
    (hlt : u.index < v.index) : u.node.stop ≤ v.node.start :=
  rel_of_index_lt (h c .refl).apart hu hv hlt

/-- Different children follow each other. -/
theorem eq_or_apart (h : Orderly c) (hu : u ∈ c.children) (hv : v ∈ c.children) :
    u = v ∨ u.node.stop ≤ v.node.start ∨ v.node.stop ≤ u.node.start := by
  rcases index_lt_or_eq_or_lt hu hv with hlt | heq | hgt
  · exact .inr (.inl (h.siblings hu hv hlt))
  · exact .inl heq
  · exact .inr (.inr (h.siblings hv hu hgt))

/-- A child that reaches into the range from one child to another one lies within it. -/
theorem between (h : Orderly c) (hx : x ∈ c.children) (hy : y ∈ c.children) (hu : u ∈ c.children)
    (hstop : x.node.start < u.node.stop) (hstart : u.node.start < y.node.stop) :
    x.node.start ≤ u.node.start ∧ u.node.stop ≤ y.node.stop := by
  have hforwardX := (h.below (.of_mem_children hx)).forward
  have hforwardY := (h.below (.of_mem_children hy)).forward
  constructor
  · rcases h.eq_or_apart hu hx with rfl | hbefore | hafter
    · exact Nat.le_refl _
    · omega
    · omega
  · rcases h.eq_or_apart hu hy with rfl | hbefore | hafter
    · exact Nat.le_refl _
    · omega
    · omega

/-- What is below one child ends before what is below a later one starts. -/
theorem apart (h : Orderly c) (hu : u ∈ c.children) (hv : v ∈ c.children)
    (hlt : u.index < v.index) (hx : Below u x) (hy : Below v y) :
    x.node.stop ≤ y.node.start := by
  have hux := (h.below (.of_mem_children hu)).inside hx
  have hvy := (h.below (.of_mem_children hv)).inside hy
  have := h.siblings hu hv hlt
  omega

end Orderly

/-- Two places of an orderly tree lie one below the other, or their ranges follow each other. -/
theorem nested_or_apart (h : Orderly top) (hx : Below top x) (hy : Below top y) :
    Below x y ∨ Below y x ∨ x.node.stop ≤ y.node.start ∨ y.node.stop ≤ x.node.start := by
  induction hsize : top.node.size using Nat.strongRecOn generalizing top with
  | ind size ih =>
      rcases hx.eq_or_child with rfl | ⟨u, hu, hux⟩
      · exact .inl hy
      rcases hy.eq_or_child with rfl | ⟨v, hv, hvy⟩
      · exact .inr (.inl hx)
      rcases index_lt_or_eq_or_lt hu hv with hlt | rfl | hgt
      · exact .inr (.inr (.inl (h.apart hu hv hlt hux hvy)))
      · exact ih _ (hsize ▸ size_lt_of_mem_children hu) (h.below (.of_mem_children hu)) hux hvy rfl
      · exact .inr (.inr (.inr (h.apart hv hu hgt hvy hux)))

/-- A place with a child whose start or end lies strictly inside a range is below the range. -/
theorem below_of_edge (h : Orderly top) (hx : Below top x) (hc : Below top c) (hy : y ∈ c.children)
    (hedge : x.node.start < y.node.start ∧ y.node.start < x.node.stop ∨
      x.node.start < y.node.stop ∧ y.node.stop < x.node.stop) : Below x c := by
  have hforward := (h.below (.step hc hy)).forward
  rcases nested_or_apart h hx (.step hc hy) with hbelow | hbelow | hapart | hapart
  · cases hbelow with
    | refl => omega
    | step hbelow hmem => exact parent_unique hmem hy ▸ hbelow
  · have := (h.below (.step hc hy)).inside hbelow
    omega
  · omega
  · omega

end Cursor

/-- A tree is attached to a text that it does not leave. -/
theorem Document.attach_eq_ok {path text : String} {root : Node} {d : Document}
    (h : Document.attach path text root = .ok d) :
    d = ⟨Source.ofText path text, root, []⟩ ∧ root.stop ≤ (Utf8.encode text).length := by
  rw [Document.attach] at h
  split at h
  · nomatch h
  next hstop => exact ⟨(Except.ok.inj h).symm, Nat.le_of_not_lt hstop⟩

end RubyLint
