import RubyLint.Proofs.Ruby.Shape

/-!
# Trees of a corrected text

What parsing gives for a text after a correction: the tree as it was, with every range carried to
where it lands, and parentheses as new first and last children of the argument lists that were put
between them.  Each place of the old tree has an image in the new one, and what is asked about a
call is answered at its image as it was before.
-/

namespace RubyLint

/-- How the tree of a text is carried to the corrected text. -/
structure Reparse where
  /-- Where the start of a range lands. -/
  startOf : Nat → Nat
  /-- Where the end of a range lands. -/
  stopOf : Nat → Nat
  /-- The lists that were put between parentheses. -/
  wrapped : Cursor → Bool
  /-- The ranges of the parentheses of these lists. -/
  opening : Cursor → Nat × Nat
  closing : Cursor → Nat × Nat

namespace Reparse

open Cursor

def token (kind : String) (range : Nat × Nat) : Node :=
  ⟨kind, range.1, range.2, false, none, []⟩

mutual

/-- The node that stands for a node of the old tree.  A list between new parentheses reaches as far
as these do. -/
def node (r : Reparse) (trail : List Step) : Node → Node
  | ⟨kind, start, stop, named, field, children⟩ =>
    let c : Cursor := ⟨⟨kind, start, stop, named, field, children⟩, trail⟩
    let inner := r.nodesFrom c 0 children
    if r.wrapped c then
      ⟨kind, min (r.startOf start) (r.opening c).1, max (r.stopOf stop) (r.closing c).2, named,
        field, token "(" (r.opening c) :: (inner ++ [token ")" (r.closing c)])⟩
    else ⟨kind, r.startOf start, r.stopOf stop, named, field, inner⟩

/-- The nodes that stand for children of a place from an index on. -/
def nodesFrom (r : Reparse) (parent : Cursor) (index : Nat) : List Node → List Node
  | [] => []
  | n :: rest =>
    r.node (⟨parent.node, index⟩ :: parent.trail) n :: r.nodesFrom parent (index + 1) rest

end

/-- By how much the children of a place move back. -/
def shift (r : Reparse) (c : Cursor) : Nat :=
  if r.wrapped c then 1 else 0

/-- The way to the image of a place. -/
def trail (r : Reparse) : List Step → List Step
  | [] => []
  | step :: rest =>
    ⟨r.node rest step.parent, step.index + r.shift ⟨step.parent, rest⟩⟩ :: r.trail rest

/-- The place that stands for a place of the old tree. -/
def image (r : Reparse) (c : Cursor) : Cursor :=
  ⟨r.node c.trail c.node, r.trail c.trail⟩

variable (r : Reparse) {c x y top : Cursor}

theorem nodesFrom_eq (parent : Cursor) (index : Nat) (ns : List Node) :
    r.nodesFrom parent index ns =
      ns.mapIdx fun i n => r.node (⟨parent.node, index + i⟩ :: parent.trail) n := by
  induction ns generalizing index with
  | nil => simp [nodesFrom]
  | cons n rest ih =>
      rw [nodesFrom, ih, List.mapIdx_cons]
      simp [Nat.add_comm, Nat.add_left_comm]

/-- The children of a place, carried. -/
theorem nodesFrom_children (c : Cursor) :
    r.nodesFrom c 0 c.node.children = c.children.map fun u => (r.image u).node := by
  simp [nodesFrom_eq, children, image, down, List.mapIdx_eq_zipIdx_map, Function.comp_def]

theorem image_node (c : Cursor) :
    (r.image c).node =
      if r.wrapped c then
        ⟨c.node.kind, min (r.startOf c.node.start) (r.opening c).1,
          max (r.stopOf c.node.stop) (r.closing c).2, c.node.named, c.node.field,
          token "(" (r.opening c) :: (c.children.map (fun u => (r.image u).node) ++
            [token ")" (r.closing c)])⟩
      else ⟨c.node.kind, r.startOf c.node.start, r.stopOf c.node.stop, c.node.named, c.node.field,
        c.children.map fun u => (r.image u).node⟩ := by
  rw [← nodesFrom_children]
  obtain ⟨⟨kind, start, stop, named, field, children⟩, trail⟩ := c
  rw [image, node]

@[simp]
theorem image_kind (c : Cursor) : (r.image c).node.kind = c.node.kind := by
  rw [image_node]
  split <;> rfl

@[simp]
theorem image_named (c : Cursor) : (r.image c).node.named = c.node.named := by
  rw [image_node]
  split <;> rfl

@[simp]
theorem image_field (c : Cursor) : (r.image c).node.field = c.node.field := by
  rw [image_node]
  split <;> rfl

theorem image_start (h : r.wrapped c = false) :
    (r.image c).node.start = r.startOf c.node.start := by
  rw [image_node, h]
  rfl

theorem image_stop (h : r.wrapped c = false) : (r.image c).node.stop = r.stopOf c.node.stop := by
  rw [image_node, h]
  rfl

theorem image_parent? (c : Cursor) : (r.image c).parent? = c.parent?.map r.image := by
  obtain ⟨node, trail⟩ := c
  cases trail <;> rfl

/-- The parentheses that were added before and after the children of a place. -/
def added (r : Reparse) (c : Cursor) : List Cursor × List Cursor :=
  if r.wrapped c then
    ([(r.image c).down 0 (token "(" (r.opening c))],
      [(r.image c).down (c.children.length + 1) (token ")" (r.closing c))])
  else ([], [])

/-- The children of an image are the images of the children, between parentheses if these were
added. -/
theorem image_children (c : Cursor) :
    (r.image c).children = (r.added c).1 ++ c.children.map r.image ++ (r.added c).2 := by
  have himages : c.children.map r.image = (c.children.map fun u => (r.image u).node).mapIdx
      fun i n => (r.image c).down (i + r.shift c) n := by
    refine List.ext_getElem? fun i => ?_
    simp only [children, List.getElem?_map, List.getElem?_mapIdx, Option.map_map]
    rfl
  have hchildren := congrArg Node.children (r.image_node c)
  rw [himages, added, Cursor.children, hchildren]
  cases hwrapped : r.wrapped c with
  | false => simp [shift, hwrapped]
  | true => simp [shift, hwrapped, List.mapIdx_cons, List.mapIdx_append]

def IsAdded (r : Reparse) (n : Node) : Prop :=
  ∃ c, n = token "(" (r.opening c) ∨ n = token ")" (r.closing c)

theorem added_node (h : x ∈ (r.added c).1 ∨ x ∈ (r.added c).2) : r.IsAdded x.node := by
  rw [added] at h
  split at h
  · rcases h with h | h
    · obtain rfl := List.mem_singleton.1 h
      exact ⟨c, .inl rfl⟩
    · obtain rfl := List.mem_singleton.1 h
      exact ⟨c, .inr rfl⟩
  · simp at h

/-! ## Places -/

theorem image_mem_children (h : x ∈ c.children) : r.image x ∈ (r.image c).children := by
  rw [image_children]
  exact List.mem_append_left _ (List.mem_append_right _ (List.mem_map_of_mem h))

theorem below_image (h : Below top x) : Below (r.image top) (r.image x) := by
  induction h with
  | refl => exact .refl
  | step _ hmem ih => exact .step ih (r.image_mem_children hmem)

/-- Every place of the new tree is an image or a new parenthesis. -/
theorem of_below_image (h : Below (r.image top) y) :
    (∃ x, Below top x ∧ y = r.image x) ∨ r.IsAdded y.node := by
  induction h with
  | refl => exact .inl ⟨top, .refl, rfl⟩
  | step _ hmem ih =>
      rcases ih with ⟨x, hx, rfl⟩ | ⟨c, hadded⟩
      · rw [image_children] at hmem
        rcases List.mem_append.1 hmem with hmem | hmem
        · rcases List.mem_append.1 hmem with hmem | hmem
          · exact .inr (r.added_node (.inl hmem))
          · obtain ⟨u, hu, rfl⟩ := List.mem_map.1 hmem
            exact .inl ⟨u, .step hx hu, rfl⟩
        · exact .inr (r.added_node (.inr hmem))
      · have := node_mem_children hmem
        rcases hadded with hadded | hadded <;> simp [hadded, token] at this

theorem filter_added (test : Node → Bool) (h : ∀ kind range, test (token kind range) = false) :
    (r.added c).1.filter (fun x => test x.node) = [] ∧
      (r.added c).2.filter (fun x => test x.node) = [] := by
  have hadded : ∀ x : Cursor, r.IsAdded x.node → test x.node = false := by
    rintro x ⟨c, hx | hx⟩
    · exact hx ▸ h _ _
    · exact hx ▸ h _ _
  simp only [List.filter_eq_nil_iff, Bool.not_eq_true]
  exact ⟨fun x hx => hadded x (r.added_node (.inl hx)),
    fun x hx => hadded x (r.added_node (.inr hx))⟩

/-- Children that are told apart by what parentheses are not are the images of such children. -/
theorem filter_image_children (test : Node → Bool)
    (h : ∀ kind range, test (token kind range) = false)
    (hcarried : ∀ x, test (r.image x).node = test x.node) :
    (r.image c).children.filter (fun x => test x.node) =
      (c.children.filter fun x => test x.node).map r.image := by
  obtain ⟨hbefore, hafter⟩ := r.filter_added (c := c) test h
  rw [image_children, List.filter_append, List.filter_append, hbefore, hafter, List.filter_map]
  simp [Function.comp_def, hcarried]

theorem image_role? (c : Cursor) (role : String) :
    (r.image c).role? role = (c.role? role).map r.image := by
  rw [role?, role?, ← List.head?_filter, ← List.head?_filter,
    r.filter_image_children (·.playsRole role), List.head?_map]
  · intro kind range
    simp [Node.playsRole, token]
  · intro x
    simp [Node.playsRole]

theorem image_namedChildren (c : Cursor) :
    (r.image c).namedChildren = c.namedChildren.map r.image :=
  r.filter_image_children (·.named) (fun _ _ => rfl) fun x => r.image_named x

/-! ## Calls -/

open Ruby

theorem image_isCall (c : Cursor) : isCall (r.image c) = isCall c := by
  simp [isCall]

/-- The calls of the new tree are the images of calls. -/
theorem exists_call (h : Below (r.image top) y) (hcall : isCall y = true) :
    ∃ c, Below top c ∧ isCall c = true ∧ y = r.image c := by
  rcases r.of_below_image h with ⟨c, hc, rfl⟩ | ⟨c, hadded⟩
  · exact ⟨c, hc, by rwa [image_isCall] at hcall, rfl⟩
  · rcases hadded with hadded | hadded <;> simp [isCall, hadded, token] at hcall

theorem image_receiver? (c : Cursor) : receiver? (r.image c) = (receiver? c).map r.image :=
  r.image_role? c _

theorem image_operator? (c : Cursor) : operator? (r.image c) = (operator? c).map r.image :=
  r.image_role? c _

theorem image_argumentList? (c : Cursor) :
    argumentList? (r.image c) = (argumentList? c).map r.image := by
  simp only [argumentList?, image_role?]
  cases c.role? "arguments" with
  | none => rfl
  | some list => simp [Option.filter]

theorem image_arguments (c : Cursor) : arguments (r.image c) = (arguments c).map r.image := by
  simp only [arguments, image_argumentList?]
  cases argumentList? c with
  | none => rfl
  | some list => simp [image_namedChildren, List.filter_map, Function.comp_def]

theorem image_hasBlock (c : Cursor) : hasBlock (r.image c) = hasBlock c := by
  simp only [hasBlock, block?, image_role?]
  cases c.role? "block" with
  | none => rfl
  | some block =>
      simp only [Option.map_some, Option.filter, image_kind]
      split <;> rfl

theorem image_isSetter (c : Cursor) : isSetter (r.image c) = isSetter c := by
  simp only [isSetter, image_parent?]
  cases c.parent? with
  | none => rfl
  | some p => simp

theorem image_hasHeredoc (h : hasHeredoc c = true) : hasHeredoc (r.image c) = true := by
  simp only [hasHeredoc, image_argumentList?] at h ⊢
  cases hlist : argumentList? c with
  | none => simp [hlist] at h
  | some list =>
      simp only [hlist, Option.map_some, List.any_eq_true, mem_nodes_iff] at h ⊢
      obtain ⟨x, hx, hkind⟩ := h
      exact ⟨r.image x, r.below_image hx, by simpa using hkind⟩

/-- A call whose arguments stand between parentheses, old or new. -/
theorem image_isParenthesized {list : Cursor} (h : argumentList? c = some list) :
    isParenthesized (r.image c) = (isParenthesized c || r.wrapped list) := by
  have hhead : (r.image list).node.children.head?.map (·.kind) =
      if r.wrapped list then some "(" else list.node.children.head?.map (·.kind) := by
    rw [image_node]
    split
    · rfl
    · rw [← node_children list, List.head?_map, List.head?_map, Option.map_map, Option.map_map]
      simp [Function.comp_def]
  simp only [isParenthesized, image_argumentList?, h, Option.map_some, hhead]
  cases r.wrapped list <;> simp

end Reparse

end RubyLint
