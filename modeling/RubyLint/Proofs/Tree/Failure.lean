import RubyLint.Proofs.Tree.Construction

/-!
# Constructions that fail

The construction of a node succeeds exactly if its range is in order and its children are free and
all different.  If the range is out of order it changes nothing.  If a child is at fault, the ones
before it are claimed by then, and stay claimed: no other node can take them up any more, although
there was nothing wrong with them.
-/

namespace RubyLint.Forest

variable {f : Forest} {kind : String} {start stop : Int} {children : List NodeId} {named : Bool}
variable {field : Option String}

/-- A node is built if its range is in order and its children are free and all different. -/
theorem build_ok_iff (hchildren : ∀ c ∈ children, c < f.nodes.length) :
    (∃ id, (f.build kind start stop children named field).2 = .ok id) ↔
      (0 ≤ start ∧ start ≤ stop) ∧ children.Nodup ∧
        ∀ c ∈ children, (f.entry c).parent = none := by
  by_cases hrange : start < 0 ∨ stop < start
  · have hnone : ∀ id, (f.build kind start stop children named field).2 ≠ .ok id := by
      intro id hid
      rw [build, if_pos hrange] at hid
      cases hid
    constructor
    · rintro ⟨id, hid⟩
      exact absurd hid (hnone id)
    · rintro ⟨⟨hstart, hforward⟩, -⟩
      omega
  have hforward : 0 ≤ start ∧ start ≤ stop := by omega
  obtain ⟨taken, rest, rfl, htook, houtcome⟩ :=
    f.build_took kind start stop children named field hchildren hrange
  have hfree : ∀ c ∈ taken, (f.entry c).parent = none := by
    intro c hc
    have hfree := htook.free c hc
    rwa [entry_adding_of_lt _ (hchildren c (List.mem_append_left rest hc))] at hfree
  rcases houtcome with ⟨rfl, hok⟩ | ⟨c, after, owner, rfl, howner, hfault⟩
  · rw [List.append_nil] at hok ⊢
    constructor
    · intro _
      exact ⟨hforward, htook.nodup, hfree⟩
    · intro _
      exact ⟨_, hok⟩
  · have hmem : c ∈ taken ++ c :: after := List.mem_append_cons_self
    constructor
    · rintro ⟨id, hid⟩
      cases hfault.symm.trans hid
    · rintro ⟨-, hnodup, hall⟩
      -- The child at fault is not among those taken up before it, so it had its parent before.
      have hnot : c ∉ taken := by
        intro htaken
        exact (List.nodup_append.1 hnodup).2.2 c htaken c List.mem_cons_self rfl
      rw [htook.entry_of_lt (hchildren c hmem), if_neg hnot, hall c hmem] at howner
      cases howner

/-- A later state in which some free nodes, each once, are claimed by the next node to be numbered,
at their places, and all else that existed is as it was. -/
structure Claims (f g : Forest) (claimed : List NodeId) : Prop where
  length : f.nodes.length ≤ g.nodes.length
  documents : g.documents = f.documents
  nodup : claimed.Nodup
  free : ∀ c ∈ claimed, (f.entry c).parent = none
  entry : ∀ n < f.nodes.length, g.entry n =
    if n ∈ claimed then
      { f.entry n with parent := some f.nodes.length, index := claimed.idxOf n }
    else f.entry n

namespace Claims

variable {g : Forest} {claimed : List NodeId}

/-- Where nothing is claimed, nothing changes. -/
theorem refl (f : Forest) : Claims f f [] where
  length := Nat.le_refl _
  documents := rfl
  nodup := .nil
  free := List.forall_mem_nil _
  entry _ _ := rfl

theorem of_took {e : NodeEntry} (htook : Took (f.adding e) g f.nodes.length 0 claimed)
    (hclaimed : ∀ c ∈ claimed, c < f.nodes.length) : Claims f g claimed where
  length := by
    rw [htook.length, length_adding]
    exact Nat.le_succ _
  documents := htook.documents
  nodup := htook.nodup
  free c hc := by
    have hfree := htook.free c hc
    rwa [entry_adding_of_lt e (hclaimed c hc)] at hfree
  entry n hn := by simpa only [Nat.zero_add] using htook.entry_of_lt hn

/-- Nothing that existed is changed only if nothing is claimed. -/
theorem unchanged_iff (h : Claims f g claimed) (hclaimed : ∀ c ∈ claimed, c < f.nodes.length) :
    (∀ n < f.nodes.length, g.entry n = f.entry n) ↔ claimed = [] := by
  constructor
  · intro hsame
    rw [List.eq_nil_iff_forall_not_mem]
    intro c hc
    have hlt := hclaimed c hc
    have hentry := h.entry c hlt
    rw [if_pos hc, hsame c hlt] at hentry
    have hparent := congrArg NodeEntry.parent hentry
    rw [h.free c hc] at hparent
    cases hparent
  · rintro rfl n hn
    rw [h.entry n hn, if_neg List.not_mem_nil]

/-- A node is free afterwards if it was before and is not claimed. -/
theorem free_iff (h : Claims f g claimed) {c : NodeId} (hc : c < f.nodes.length) :
    (g.entry c).parent = none ↔ (f.entry c).parent = none ∧ c ∉ claimed := by
  rw [h.entry c hc]
  by_cases hmem : c ∈ claimed
  · simp [hmem]
  · simp [hmem]

/-- Another node can take up a child that was free before and is not claimed, and no other. -/
theorem build_ok_iff (h : Claims f g claimed) (hstart : 0 ≤ start) (hforward : start ≤ stop)
    {c : NodeId} (hc : c < f.nodes.length) :
    (∃ id, (g.build kind start stop [c] named field).2 = .ok id) ↔
      (f.entry c).parent = none ∧ c ∉ claimed := by
  have hgiven : ∀ x ∈ [c], x < g.nodes.length := by
    intro x hx
    rw [List.mem_singleton.1 hx]
    exact Nat.lt_of_lt_of_le hc h.length
  rw [Forest.build_ok_iff hgiven, ← h.free_iff hc]
  simp [hstart, hforward]

end Claims

/-- What a failed construction of a node leaves behind: with a range out of order, everything as it
was; otherwise the free children before the first one that has a parent by then, because it belongs
to another node or was listed before, are claimed by the node that never came to be.  So the
existing nodes are unchanged only if no child precedes the one at fault, and another node can take
up exactly those that were free and are not claimed. -/
theorem build_failed (f : Forest) (kind : String) (start stop : Int) (children : List NodeId)
    (named : Bool) (field : Option String) (fault : TreeFault)
    (hchildren : ∀ c ∈ children, c < f.nodes.length)
    (hfault : (f.build kind start stop children named field).2 = .error fault) :
    let g := (f.build kind start stop children named field).1
    ∃ claimed rest, children = claimed ++ rest ∧ Claims f g claimed ∧
      ((start < 0 ∨ stop < start) ∧ claimed = [] ∧ fault = .invalidRange kind start stop ∨
        (0 ≤ start ∧ start ≤ stop) ∧ ∃ c after owner, rest = c :: after ∧
          ((f.entry c).parent ≠ none ∨ c ∈ claimed) ∧ (g.entry c).parent = some owner ∧
          fault = .alreadyOwned (g.label c) (g.label owner)) ∧
      ((∀ n < f.nodes.length, g.entry n = f.entry n) ↔ claimed = []) ∧
      ∀ kind' start' stop' named' field', 0 ≤ start' → start' ≤ stop' →
        ∀ c < f.nodes.length,
          (∃ id, (g.build kind' start' stop' [c] named' field').2 = .ok id) ↔
            (f.entry c).parent = none ∧ c ∉ claimed := by
  intro g
  by_cases hrange : start < 0 ∨ stop < start
  · have hbuild : f.build kind start stop children named field =
        (f, .error (.invalidRange kind start stop)) := by
      rw [build, if_pos hrange]
    have hclaims : Claims f g [] := by
      rw [show g = f from congrArg Prod.fst hbuild]
      exact .refl f
    rw [hbuild] at hfault
    exact ⟨[], children, rfl, hclaims, .inl ⟨hrange, rfl, (Except.error.inj hfault).symm⟩,
      hclaims.unchanged_iff (List.forall_mem_nil _),
      fun _ _ _ _ _ hstart hforward _ => hclaims.build_ok_iff hstart hforward⟩
  · obtain ⟨claimed, rest, rfl, htook, houtcome⟩ :=
      f.build_took kind start stop children named field hchildren hrange
    have hclaimed : ∀ c ∈ claimed, c < f.nodes.length :=
      fun c hc => hchildren c (List.mem_append_left rest hc)
    have hclaims : Claims f g claimed := .of_took htook hclaimed
    refine ⟨claimed, rest, rfl, hclaims, .inr ⟨by omega, ?_⟩, hclaims.unchanged_iff hclaimed,
      fun _ _ _ _ _ hstart hforward _ => hclaims.build_ok_iff hstart hforward⟩
    rcases houtcome with ⟨-, hok⟩ | ⟨c, after, owner, rfl, howner, hcause⟩
    · cases hfault.symm.trans hok
    · refine ⟨c, after, owner, rfl, ?_, howner, Except.error.inj (hfault.symm.trans hcause)⟩
      by_contra hfine
      rw [not_or, not_not] at hfine
      have hfree := (hclaims.free_iff (hchildren c List.mem_append_cons_self)).2 hfine
      cases hfree.symm.trans howner

/-- Two free leaves, and a leaf that has a parent. -/
def leaves : List Construction :=
  [.node "identifier" 0 1 [] true none, .node "identifier" 1 2 [] true none,
    .node "identifier" 2 3 [] true none, .node "call" 2 3 [2] true none]

/-- A node that is given the same leaf twice fails, and keeps it. -/
theorem build_failed_twice :
    let f := empty.performAll leaves
    let g := (f.build "call" 0 2 [0, 0, 1] true none).1
    ∃ claimed rest, [0, 0, 1] = claimed ++ rest ∧ Claims f g claimed ∧ claimed ≠ [] ∧
      ¬∃ id, (g.build "program" 0 1 [0] true none).2 = .ok id := by
  intro f g
  obtain ⟨claimed, rest, hsplit, hclaims, -, hsame, hagain⟩ :=
    build_failed f "call" 0 2 [0, 0, 1] true none
      (.alreadyOwned "<Node identifier [0, 1)>" "<Node call [0, 2)>") (by decide +kernel)
      (by decide +kernel)
  have hchanged : (g.entry 0).parent ≠ (f.entry 0).parent := by decide +kernel
  have hsome : claimed ≠ [] := by
    intro hnone
    exact hchanged (congrArg NodeEntry.parent (hsame.2 hnone 0 (by decide +kernel)))
  have hmem : 0 ∈ claimed := by
    cases claimed with
    | nil => exact absurd rfl hsome
    | cons c claimed =>
        obtain ⟨rfl, -⟩ := List.cons.inj hsplit
        exact List.mem_cons_self
  refine ⟨claimed, rest, hsplit, hclaims, hsome, ?_⟩
  rw [hagain "program" 0 1 true none (by decide) (by decide) 0 (by decide +kernel)]
  exact fun h => h.2 hmem

/-- A free leaf is claimed by a construction that fails at the leaf after it, which belongs to
another node; afterwards no other node can take up the first one either. -/
theorem build_failed_claims :
    let f := empty.performAll leaves
    let g := (f.build "call" 0 3 [0, 2] true none).1
    (f.build "call" 0 3 [0, 2] true none).2 =
      .error (.alreadyOwned "<Node identifier [2, 3)>" "<Node call [2, 3)>") ∧
    (f.entry 0).parent = none ∧ (g.entry 0).parent = some 4 ∧
    (g.build "program" 0 1 [0] true none).2 =
      .error (.alreadyOwned "<Node identifier [0, 1)>" "<Node call [0, 3)>") := by
  decide +kernel

end RubyLint.Forest
