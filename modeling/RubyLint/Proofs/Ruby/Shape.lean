import Mathlib.Tactic.Tauto
import RubyLint.Proofs.Tree.Place
import RubyLint.Ruby.Call

/-!
# The shape of calls

What the grammar promises about the calls of a tree: the parts of a call stand in a fixed order, at
most one of each and none of them empty; a receiver comes with an operator; and only leaves stand in
the gap between a method and the first of its arguments, unless parentheses enclose the arguments.
The gap is what a correction replaces, so the main result here says which nodes reach into it.
-/

namespace RubyLint.Ruby

open Cursor

variable {c d e list first last m op top u v x : Cursor} {r s : String}

def callRoles : List String :=
  ["receiver", "operator", "method", "arguments", "block"]

/-- How a call looks in a tree of Ruby: its parts stand in the order of their roles and are not
empty, a receiver comes with an operator, and no call hides between a method and its first
argument. -/
structure CallShape (c : Cursor) : Prop where
  /-- The parts stand in the order of their roles, at most one in each role. -/
  ordered : c.node.children.Pairwise fun a b => ∀ r ∈ callRoles, ∀ s ∈ callRoles,
    a.field = some r → b.field = some s → callRoles.idxOf r < callRoles.idxOf s
  /-- No part is empty. -/
  solid : ∀ n ∈ c.node.children, ∀ r ∈ callRoles, n.field = some r → n.start < n.stop
  operator_of_receiver : (receiver? c).isSome → (operator? c).isSome
  /-- Between method and first argument of a call without parentheses there are only leaves. -/
  leaves : ∀ m ∈ method? c, ∀ list ∈ argumentList? c, ∀ first ∈ (arguments c).head?,
    isParenthesized c = false →
      (∀ u ∈ c.children, m.index < u.index → u.index < list.index →
        u.node.children.isEmpty = true) ∧
      ∀ u ∈ list.children, u.index < first.index → u.node.children.isEmpty = true

/-- An orderly tree whose calls have their shape. -/
structure Shaped (top : Cursor) : Prop where
  orderly : top.Orderly
  calls : ∀ c, Below top c → isCall c = true → CallShape c

instance (c : Cursor) : Decidable (CallShape c) :=
  decidable_of_iff (_ ∧ _ ∧ _ ∧ _)
    ⟨fun h => ⟨h.1, h.2.1, h.2.2.1, h.2.2.2⟩, fun h => ⟨h.1, h.2, h.3, h.4⟩⟩

instance (top : Cursor) : Decidable (Shaped top) :=
  decidable_of_iff (top.Orderly ∧ ∀ c, Below top c → isCall c = true → CallShape c)
    ⟨fun h => ⟨h.1, h.2⟩, fun h => ⟨h.1, h.2⟩⟩

/-! ## Parts of a call -/

theorem role?_mem (h : c.role? r = some u) : u ∈ c.children :=
  List.mem_of_find?_eq_some h

theorem role?_field (h : c.role? r = some u) : u.node.field = some r := by
  have := List.find?_some h
  simp only [Node.playsRole, Bool.and_eq_true, beq_iff_eq] at this
  exact this.2

theorem argumentList?_role (h : argumentList? c = some list) : c.role? "arguments" = some list :=
  (Option.filter_eq_some_iff.1 h).1

theorem argumentList?_kind (h : argumentList? c = some list) :
    list.node.kind = "argument_list" := by
  simpa using (Option.filter_eq_some_iff.1 h).2

theorem argumentList?_mem (h : argumentList? c = some list) : list ∈ c.children :=
  role?_mem (argumentList?_role h)

theorem not_isCall_argumentList (h : argumentList? c = some list) : isCall list = false := by
  simp [isCall, argumentList?_kind h]

theorem mem_arguments_iff (hlist : argumentList? c = some list) :
    x ∈ arguments c ↔
      x ∈ list.children ∧ x.node.named = true ∧ triviaKinds.contains x.node.kind = false := by
  simp [arguments, hlist, Cursor.namedChildren]
  tauto

theorem exists_argumentList (h : x ∈ arguments c) : ∃ list, argumentList? c = some list := by
  cases hlist : argumentList? c with
  | some list => exact ⟨list, rfl⟩
  | none => simp [arguments, hlist] at h

theorem arguments_mem (hlist : argumentList? c = some list) (h : x ∈ arguments c) :
    x ∈ list.children :=
  ((mem_arguments_iff hlist).1 h).1

/-- The place above an argument is the argument list of its call. -/
theorem argumentList?_of_mem (h : x ∈ arguments d) (hmem : x ∈ c.children) :
    argumentList? d = some c := by
  obtain ⟨list, hlist⟩ := exists_argumentList h
  rwa [parent_unique hmem (arguments_mem hlist h)]

/-- The first argument stands before all others. -/
theorem first_index_le (hfirst : (arguments c).head? = some first) (hx : x ∈ arguments c) :
    first.index ≤ x.index := by
  have hpairwise : (arguments c).Pairwise fun x y => x.index < y.index := by
    rw [arguments]
    split
    · exact .nil
    · exact ((children_pairwise_index _).filter _).filter _
  obtain ⟨rest, hrest⟩ := List.head?_eq_some_iff.1 hfirst
  rw [hrest] at hx hpairwise
  rcases List.mem_cons.1 hx with rfl | hx
  · exact Nat.le_refl _
  · exact Nat.le_of_lt ((List.pairwise_cons.1 hpairwise).1 x hx)

namespace CallShape

theorem index_lt (h : CallShape c) (hu : c.role? r = some u) (hv : c.role? s = some v)
    (hr : r ∈ callRoles := by decide) (hs : s ∈ callRoles := by decide)
    (hlt : callRoles.idxOf r < callRoles.idxOf s := by decide) : u.index < v.index := by
  have hfieldU := role?_field hu
  have hfieldV := role?_field hv
  rcases index_lt_or_eq_or_lt (role?_mem hu) (role?_mem hv) with hindex | rfl | hgt
  · exact hindex
  · obtain rfl := Option.some.inj (hfieldU.symm.trans hfieldV)
    omega
  · have := rel_of_index_lt h.ordered (role?_mem hv) (role?_mem hu) hgt s hs r hr hfieldV hfieldU
    omega

/-- A part ends before the next one starts. -/
theorem stop_le_start (h : CallShape c) (horderly : c.Orderly) (hu : c.role? r = some u)
    (hv : c.role? s = some v) (hr : r ∈ callRoles := by decide) (hs : s ∈ callRoles := by decide)
    (hlt : callRoles.idxOf r < callRoles.idxOf s := by decide) : u.node.stop ≤ v.node.start :=
  horderly.siblings (role?_mem hu) (role?_mem hv) (h.index_lt hu hv hr hs hlt)

theorem part_nonempty (h : CallShape c) (hu : c.role? r = some u)
    (hr : r ∈ callRoles := by decide) : u.node.start < u.node.stop :=
  h.solid _ (node_mem_children (role?_mem hu)) r hr (role?_field hu)

theorem operator (h : CallShape c) (hreceiver : receiver? c = some x) :
    ∃ op, operator? c = some op :=
  Option.isSome_iff_exists.1 (h.operator_of_receiver (by simp [hreceiver]))

end CallShape

theorem hasHeredoc_eq_false_iff (hlist : argumentList? c = some list) :
    hasHeredoc c = false ↔ ∀ x, Below list x →
      x.node.kind ≠ "heredoc_beginning" ∧ x.node.kind ≠ "heredoc_body" := by
  simp [hasHeredoc, hlist, mem_nodes_iff]

/-! ## The end of a call without its block -/

/-- Whether a part counts for the end of its call. -/
def isSent (n : Node) : Bool :=
  !(n.field == some "block" || triviaKinds.contains n.kind)

theorem foldl_max_spec (ns : List Node) (start : Nat) :
    let stop := ns.foldl (fun stop n =>
        if n.field == some "block" || triviaKinds.contains n.kind then stop else max stop n.stop)
      start
    start ≤ stop ∧ (∀ n ∈ ns, isSent n = true → n.stop ≤ stop) ∧
      (stop = start ∨ ∃ n ∈ ns, isSent n = true ∧ stop = n.stop) := by
  induction ns generalizing start with
  | nil => simp
  | cons n rest ih =>
      simp only [List.foldl_cons]
      cases hsent : n.field == some "block" || triviaKinds.contains n.kind with
      | true =>
          obtain ⟨hstart, hmem, hstop⟩ := ih start
          have hn : isSent n = false := by simp only [isSent, hsent, Bool.not_true]
          refine ⟨hstart, ?_, ?_⟩
          · intro k hk hsentK
            rcases List.mem_cons.1 hk with rfl | hk
            · simp [hn] at hsentK
            · exact hmem k hk hsentK
          · rcases hstop with heq | ⟨k, hk, hrest⟩
            · exact .inl heq
            · exact .inr ⟨k, List.mem_cons_of_mem n hk, hrest⟩
      | false =>
          obtain ⟨hstart, hmem, hstop⟩ := ih (max start n.stop)
          have hn : isSent n = true := by simp only [isSent, hsent, Bool.not_false]
          refine ⟨by simp only [Bool.false_eq_true, if_false]; omega, ?_, ?_⟩
          · intro k hk hsentK
            rcases List.mem_cons.1 hk with rfl | hk
            · simp only [Bool.false_eq_true, if_false]
              omega
            · exact hmem k hk hsentK
          · rcases hstop with heq | ⟨k, hk, hrest⟩
            · simp only [Bool.false_eq_true, if_false]
              rcases Nat.le_total start n.stop with hle | hle
              · exact .inr ⟨n, List.mem_cons_self, hn, by omega⟩
              · exact .inl (by omega)
            · exact .inr ⟨k, List.mem_cons_of_mem n hk, hrest⟩

theorem start_le_sendEnd (c : Cursor) : c.node.start ≤ sendEnd c :=
  (foldl_max_spec c.node.children c.node.start).1

theorem stop_le_sendEnd (hu : u ∈ c.children) (hsent : isSent u.node = true) :
    u.node.stop ≤ sendEnd c :=
  (foldl_max_spec c.node.children c.node.start).2.1 _ (node_mem_children hu) hsent

/-- A call without its block ends where one of its parts does. -/
theorem sendEnd_eq (c : Cursor) :
    sendEnd c = c.node.start ∨
      ∃ u ∈ c.children, isSent u.node = true ∧ sendEnd c = u.node.stop := by
  rcases (foldl_max_spec c.node.children c.node.start).2.2 with heq | ⟨n, hn, hsent, heq⟩
  · exact .inl heq
  · obtain ⟨u, hu, rfl⟩ := exists_mem_children hn
    exact .inr ⟨u, hu, hsent, heq⟩

def sendLast (c : Cursor) : Nat :=
  max c.node.start (sendEnd c - 1)

theorem sendLastLine_eq (s : Source) (c : Cursor) :
    sendLastLine s c = s.lines.lineOf (sendLast c : Nat) := by
  have hstart := start_le_sendEnd c
  rw [sendLastLine, sendLast]
  congr 1
  omega

theorem sendEnd_le_stop (h : c.Orderly) : sendEnd c ≤ c.node.stop := by
  have hforward := h.forward
  rcases sendEnd_eq c with heq | ⟨u, hu, -, heq⟩
  · omega
  · have := (h.inside (.of_mem_children hu)).2
    omega

/-- A part that starts before the end of a call without its block does not reach beyond it. -/
theorem stop_le_sendEnd_of_lt (h : c.Orderly) (hu : u ∈ c.children)
    (hlt : u.node.start < sendEnd c) : u.node.stop ≤ sendEnd c := by
  have hinside := h.inside (.of_mem_children hu)
  rcases sendEnd_eq c with heq | ⟨v, hv, -, heq⟩
  · omega
  · have hforward := (h.below (.of_mem_children hv)).forward
    rcases h.eq_or_apart hu hv with rfl | hbefore | hafter
    · omega
    · omega
    · omega

theorem isSent_argumentList (h : argumentList? c = some list) : isSent list.node = true := by
  simp [isSent, role?_field (argumentList?_role h), argumentList?_kind h, triviaKinds]

/-- A call with arguments does not end where it starts. -/
theorem CallShape.start_lt_sendEnd (h : CallShape c) (horderly : c.Orderly)
    (hlist : argumentList? c = some list) : c.node.start < sendEnd c := by
  have hsolid := h.part_nonempty (argumentList?_role hlist)
  have hinside := horderly.inside (.of_mem_children (argumentList?_mem hlist))
  have hstop := stop_le_sendEnd (argumentList?_mem hlist) (isSent_argumentList hlist)
  omega

/-! ## The gap before the arguments -/

/-- A call without parentheses whose arguments are separated from its method by a gap. -/
structure Gap (c m list first : Cursor) : Prop where
  method : method? c = some m
  list : argumentList? c = some list
  first : (arguments c).head? = some first
  bare : isParenthesized c = false

namespace Gap

theorem first_mem (h : Gap c m list first) : first ∈ list.children :=
  arguments_mem h.list (List.mem_of_head? h.first)

/-- The call covers its gap from before the method's end to after the first argument's start. -/
theorem inside (h : Gap c m list first) (hshape : CallShape c) (horderly : c.Orderly) :
    c.node.start < m.node.stop ∧ first.node.start ≤ c.node.stop := by
  have hm := (horderly.inside (.of_mem_children (role?_mem h.method))).1
  have hsolid := hshape.part_nonempty h.method
  have hbelow : Below c first := .of_child (argumentList?_mem h.list) (.of_mem_children h.first_mem)
  have hfirst := (horderly.inside hbelow).2
  have hforward := (horderly.below hbelow).forward
  omega

/-- Whatever reaches into the gap is around the call, the argument list itself, or a leaf in the gap
that is a child of either. -/
theorem reached (h : Gap c m list first) (hshape : CallShape c) (horderly : top.Orderly)
    (hc : Below top c) (hx : Below top x) (hstart : x.node.start < first.node.start)
    (hstop : m.node.stop < x.node.stop) :
    Below x c ∨ x = list ∨
      (x ∈ c.children ∧ m.index < x.index ∧ x.node.children = []) ∨
      (x ∈ list.children ∧ x.index < first.index ∧ x.node.children = []) := by
  have hlist := argumentList?_mem h.list
  have hmethod := role?_mem h.method
  have horderlyC := horderly.below hc
  have horderlyL := horderlyC.below (.of_mem_children hlist)
  have hfirstForward := (horderlyL.below (.of_mem_children h.first_mem)).forward
  have hfirstStop := (horderlyL.inside (.of_mem_children h.first_mem)).2
  obtain ⟨hleavesC, hleavesL⟩ := hshape.leaves m h.method list h.list first h.first h.bare
  rcases nested_or_apart horderly hx hc with hbelow | hbelow | hapart | hapart
  · exact .inl hbelow
  · rcases hbelow.eq_or_child with rfl | ⟨u, hu, hux⟩
    · exact .inl .refl
    have huInside := (horderlyC.below (.of_mem_children hu)).inside hux
    rcases Nat.lt_or_ge m.index u.index with hafter | hbefore
    · rcases index_lt_or_eq_or_lt hu hlist with hlt | rfl | hgt
      · have hleaf := List.isEmpty_iff.1 (hleavesC u hu hafter hlt)
        obtain rfl := hux.eq_of_leaf hleaf
        exact .inr (.inr (.inl ⟨hu, hafter, hleaf⟩))
      · rcases hux.eq_or_child with rfl | ⟨w, hw, hwx⟩
        · exact .inr (.inl rfl)
        rcases Nat.lt_or_ge w.index first.index with hlt | hge
        · have hleaf := List.isEmpty_iff.1 (hleavesL w hw hlt)
          obtain rfl := hwx.eq_of_leaf hleaf
          exact .inr (.inr (.inr ⟨hw, hlt, hleaf⟩))
        · have hwInside := (horderlyL.below (.of_mem_children hw)).inside hwx
          rcases Nat.eq_or_lt_of_le hge with heq | hlt
          · obtain rfl := eq_of_index_eq h.first_mem hw heq
            omega
          · have := horderlyL.siblings h.first_mem hw hlt
            omega
      · have := horderlyC.siblings hlist hu hgt
        omega
    · rcases Nat.eq_or_lt_of_le hbefore with heq | hlt
      · obtain rfl := eq_of_index_eq hu hmethod heq
        omega
      · have := horderlyC.siblings hu hmethod hlt
        have := (horderlyC.below (.of_mem_children hmethod)).forward
        omega
  · have := (h.inside hshape horderlyC).1
    omega
  · have := (h.inside hshape horderlyC).2
    omega

section

variable (h : Gap c m list first) (hshape : CallShape c) (horderly : top.Orderly)
  (hc : Below top c) (hx : Below top x) (hchildren : x.node.children ≠ [])

include h hshape horderly hc hx hchildren

/-- A place with children does not start strictly inside the gap, unless it is the list itself. -/
theorem start_outside (hne : x ≠ list) :
    x.node.start ≤ m.node.stop ∨ first.node.start ≤ x.node.start := by
  have hforward := (horderly.below hx).forward
  by_cases hreach : m.node.stop < x.node.start ∧ x.node.start < first.node.start
  · rcases h.reached hshape horderly hc hx hreach.2 (by omega) with
      hbelow | heq | ⟨-, -, hleaf⟩ | ⟨-, -, hleaf⟩
    · have := (horderly.below hx).inside hbelow
      have := (h.inside hshape (horderly.below hc)).1
      omega
    · exact absurd heq hne
    · exact absurd hleaf hchildren
    · exact absurd hleaf hchildren
  · omega

/-- A place with children that ends after the method ends after the start of the first argument, if
the list does. -/
theorem stop_beyond (hreaching : first.node.start < list.node.stop)
    (hsolid : x.node.start < x.node.stop) (hstop : m.node.stop < x.node.stop) :
    first.node.start < x.node.stop := by
  refine Nat.lt_of_not_le fun hle => ?_
  rcases h.reached hshape horderly hc hx (by omega) hstop with
    hbelow | rfl | ⟨-, -, hleaf⟩ | ⟨-, -, hleaf⟩
  · have := (horderly.below hx).inside hbelow
    have := (horderly.below hc).inside (.of_mem_children (argumentList?_mem h.list))
    omega
  · omega
  · exact absurd hleaf hchildren
  · exact absurd hleaf hchildren

end

end Gap

/-- The nodes at whose edges a correction may cut: receiver, operator and method of a call, and its
arguments. -/
inductive Anchor (top : Cursor) : Cursor → Prop where
  | part {c x : Cursor} {r : String} : Below top c → isCall c = true →
      r ∈ ["receiver", "operator", "method"] → c.role? r = some x → Anchor top x
  | argument {c x : Cursor} : Below top c → isCall c = true → x ∈ arguments c → Anchor top x

namespace Anchor

theorem exists_parent (h : Anchor top x) : ∃ c, Below top c ∧ x ∈ c.children := by
  cases h with
  | part hc _ _ hx => exact ⟨_, hc, role?_mem hx⟩
  | argument hc _ hx =>
      obtain ⟨list, hlist⟩ := exists_argumentList hx
      exact ⟨list, .step hc (argumentList?_mem hlist), arguments_mem hlist hx⟩

theorem below (h : Anchor top x) : Below top x := by
  obtain ⟨c, hc, hx⟩ := h.exists_parent
  exact .step hc hx

/-- An anchor that reaches into a gap is around the call. -/
theorem around (h : Anchor top x) (htop : Shaped top) (hc : Below top c) (hcall : isCall c = true)
    (hgap : Gap c m list first) (hstart : x.node.start < first.node.start)
    (hstop : m.node.stop < x.node.stop) : Below x c := by
  have hshape := htop.calls c hc hcall
  have hlistMem := argumentList?_mem hgap.list
  have hlistKind := not_isCall_argumentList hgap.list
  rcases hgap.reached hshape htop.orderly hc h.below hstart hstop with
    hbelow | rfl | ⟨hmem, hindex, -⟩ | ⟨hmem, hindex, -⟩
  · exact hbelow
  all_goals exfalso
  · cases h with
    | part hd hcallD hr hx =>
        have hfield := (role?_field hx).symm.trans (role?_field (argumentList?_role hgap.list))
        obtain rfl := Option.some.inj hfield
        simp at hr
    | argument hd hcallD hx =>
        simp [not_isCall_argumentList (argumentList?_of_mem hx hlistMem)] at hcall
  · cases h with
    | part hd hcallD hr hx =>
        obtain rfl := parent_unique (role?_mem hx) hmem
        simp only [List.mem_cons, List.not_mem_nil, or_false] at hr
        rcases hr with rfl | rfl | rfl
        · have := hshape.index_lt hx hgap.method
          omega
        · have := hshape.index_lt hx hgap.method
          omega
        · obtain rfl := Option.some.inj (hx.symm.trans hgap.method)
          omega
    | argument hd hcallD hx =>
        simp [not_isCall_argumentList (argumentList?_of_mem hx hmem)] at hcall
  · cases h with
    | part hd hcallD hr hx =>
        obtain rfl := parent_unique (role?_mem hx) hmem
        simp [hlistKind] at hcallD
    | argument hd hcallD hx =>
        have hlist := argumentList?_of_mem hx hmem
        obtain rfl := parent_unique (argumentList?_mem hlist) hlistMem
        have := first_index_le hgap.first hx
        omega

/-- No edge of an anchor lies strictly inside a gap. -/
theorem edges_outside (h : Anchor top x) (htop : Shaped top) (hc : Below top c)
    (hcall : isCall c = true) (hgap : Gap c m list first) :
    (x.node.start ≤ m.node.stop ∨ first.node.start ≤ x.node.start) ∧
      (x.node.stop ≤ m.node.stop ∨ first.node.start ≤ x.node.stop) := by
  have horderly := htop.orderly.below h.below
  have hforward := horderly.forward
  by_cases hreach : x.node.start < first.node.start ∧ m.node.stop < x.node.stop
  · have hbelow := h.around htop hc hcall hgap hreach.1 hreach.2
    have hinside := horderly.inside hbelow
    have hcover := hgap.inside (htop.calls c hc hcall) (htop.orderly.below hc)
    omega
  · omega

end Anchor

end RubyLint.Ruby
