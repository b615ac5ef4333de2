import RubyLint.Proofs.Edit.Ink
import RubyLint.Proofs.Rules.FixedPoint

/-!
# Calls without parentheses

Where the arguments of a call follow its method without parentheses, an opening parenthesis is
written in the gap between the two and a closing one after the last argument.  These places differ
from call to call: the gaps end the methods of different calls, and where the arguments of one call
end, no gap of another call and no later arguments begin.
-/

namespace RubyLint.Layout

open Cursor Ruby Edit

variable {top c d first first' last last' list list' m m' u v : Cursor}

/-! ## Ranges of calls -/

/-- A call with arguments covers another range than the calls in it. -/
theorem sendRange_ne_of_child (htop : Proper top) (hc : Below top c) (hcall : isCall c = true)
    (hfirst : (arguments c).head? = some first) (hu : u ∈ c.children) (hd : Below u d) :
    ¬(c.node.start = d.node.start ∧ sendEnd c = sendEnd d) := by
  rintro ⟨hstart, hend⟩
  have horderly := htop.orderly.below hc
  obtain ⟨list, hlist⟩ := exists_argumentList (List.mem_of_head? hfirst)
  obtain ⟨x, hx⟩ := exists_head? htop hc hcall hfirst
  obtain ⟨hsolid, hbefore, hspan⟩ := head?_before_list htop hc hcall hx hlist
  have hlistMem := argumentList?_mem hlist
  have hxInside := horderly.inside (.of_mem_children (head?_mem hx))
  have hdInside := (horderly.below (.of_mem_children hu)).inside hd
  rcases Nat.lt_or_ge u.index list.index with hlt | hge
  · -- A part before the arguments ends too early.
    have := horderly.siblings hu hlistMem hlt
    have := sendEnd_le_stop (horderly.below (.of_child hu hd))
    have := stop_le_sendEnd hlistMem (isSent_argumentList hlist)
    omega
  · -- Any other part starts too late.
    rcases Nat.eq_or_lt_of_le hge with hindex | hgt
    · obtain rfl := eq_of_index_eq hlistMem hu hindex
      omega
    · have := horderly.siblings hlistMem hu hgt
      omega

/-- A call with arguments is determined by its range without the block. -/
theorem eq_of_sendRange_eq (htop : Proper top) (hc : Below top c) (hcall : isCall c = true)
    (hfirst : (arguments c).head? = some first) (hd : Below top d) (hcall' : isCall d = true)
    (hfirst' : (arguments d).head? = some first') (hstart : c.node.start = d.node.start)
    (hend : sendEnd c = sendEnd d) : c = d := by
  have hspan : ∀ {x first : Cursor}, Below top x → isCall x = true →
      (arguments x).head? = some first → x.node.start < x.node.stop := by
    intro x first hx hcallX hfirstX
    obtain ⟨list, hlist⟩ := exists_argumentList (List.mem_of_head? hfirstX)
    have horderly := htop.orderly.below hx
    have := (htop.calls x hx hcallX).start_lt_sendEnd horderly hlist
    have := sendEnd_le_stop horderly
    omega
  have hspanC := hspan hc hcall hfirst
  have hspanD := hspan hd hcall' hfirst'
  rcases nested_or_apart htop.orderly hc hd with hbelow | hbelow | hapart | hapart
  · rcases hbelow.eq_or_child with heq | ⟨u, hu, hud⟩
    · exact heq.symm
    · exact absurd ⟨hstart, hend⟩ (sendRange_ne_of_child htop hc hcall hfirst hu hud)
  · rcases hbelow.eq_or_child with heq | ⟨u, hu, huc⟩
    · exact heq
    · exact absurd ⟨hstart.symm, hend.symm⟩ (sendRange_ne_of_child htop hd hcall' hfirst' hu huc)
  · omega
  · omega

/-! ## Gaps and arguments -/

/-- A call of a tree whose arguments follow its method without parentheses. -/
structure Bare (top c m list first last : Cursor) : Prop extends Gap c m list first where
  below : Below top c
  isCall : isCall c = true
  isLast : (arguments c).getLast? = some last

namespace Bare

theorem last_mem (h : Bare top c m list first last) : last ∈ list.children :=
  arguments_mem h.list (List.mem_of_getLast? h.isLast)

/-- Method, argument list and arguments of a call stand in order. -/
theorem spans (h : Bare top c m list first last) (htop : Shaped top) :
    c.node.start ≤ m.node.start ∧ m.node.start < m.node.stop ∧ m.node.stop ≤ list.node.start ∧
      list.node.start ≤ first.node.start ∧ list.node.start ≤ last.node.start ∧
      last.node.start ≤ last.node.stop ∧ last.node.stop ≤ list.node.stop ∧
      list.node.start < list.node.stop ∧ list.node.stop ≤ c.node.stop := by
  have hshape := htop.calls c h.below h.isCall
  have horderly := htop.orderly.below h.below
  have hlist := argumentList?_mem h.list
  have hrole := argumentList?_role h.list
  have horderlyL := horderly.below (.of_mem_children hlist)
  have hm := horderly.inside (.of_mem_children (role?_mem h.method))
  have hl := horderly.inside (.of_mem_children hlist)
  have hfirst := horderlyL.inside (.of_mem_children h.first_mem)
  have hlast := horderlyL.inside (.of_mem_children h.last_mem)
  have hforward := (horderlyL.below (.of_mem_children h.last_mem)).forward
  have hsolid := hshape.part_nonempty h.method
  have hsolid' := hshape.part_nonempty hrole
  have hbefore := hshape.stop_le_start horderly h.method hrole
  omega

/-- Different calls have methods that end at different offsets. -/
theorem method_stop_ne (h : Bare top c m list first last) (h' : Bare top d m' list' first' last')
    (htop : Proper top) (hne : c ≠ d) : m.node.stop ≠ m'.node.stop := by
  intro heq
  have hspans := h.spans htop.toShaped
  have hspans' := h'.spans htop.toShaped
  have hleaf := List.isEmpty_iff.1 (htop.leaf c h.below h.isCall m h.method)
  have hleaf' := List.isEmpty_iff.1 (htop.leaf d h'.below h'.isCall m' h'.method)
  have hm : Below top m := .step h.below (role?_mem h.method)
  have hm' : Below top m' := .step h'.below (role?_mem h'.method)
  rcases nested_or_apart htop.orderly hm hm' with hbelow | hbelow | hapart | hapart
  · obtain rfl := hbelow.eq_of_leaf hleaf
    exact hne (parent_unique (role?_mem h.method) (role?_mem h'.method))
  · obtain rfl := hbelow.eq_of_leaf hleaf'
    exact hne (parent_unique (role?_mem h.method) (role?_mem h'.method))
  · omega
  · omega

/-- Where the arguments of one call end, those of another one do not follow their method without a
gap. -/
theorem last_stop_ne (h : Bare top c m list first last) (h' : Bare top d m' list' first' last')
    (htop : Proper top) (hne : c ≠ d) (hgap : m'.node.stop = first'.node.start) :
    last.node.stop ≠ m'.node.stop := by
  intro heq
  have hspans := h.spans htop.toShaped
  have hspans' := h'.spans htop.toShaped
  have horderly := htop.orderly.below h.below
  have horderly' := htop.orderly.below h'.below
  have hlist := argumentList?_mem h.list
  have horderlyL := horderly.below (.of_mem_children hlist)
  rcases nested_or_apart htop.orderly h.below h'.below with hbelow | hbelow | hapart | hapart
  · -- The inner call starts before the offset and ends after it, but no part of the outer one does.
    rcases hbelow.eq_or_child with rfl | ⟨u, hu, hud⟩
    · exact hne rfl
    have huInside := (horderly.below (.of_mem_children hu)).inside hud
    rcases horderly.eq_or_apart hu hlist with rfl | hbefore | hafter
    · rcases hud.eq_or_child with rfl | ⟨w, hw, hwd⟩
      · have hcall := h'.isCall
        rw [not_isCall_argumentList h.list] at hcall
        nomatch hcall
      have hwInside := (horderlyL.below (.of_mem_children hw)).inside hwd
      rcases horderlyL.eq_or_apart hw h.last_mem with rfl | hbefore | hafter
      · omega
      · omega
      · omega
    · omega
    · omega
  · -- The inner call starts before the offset, so it stands before the method, and ends there.
    rcases hbelow.eq_or_child with rfl | ⟨u, hu, huc⟩
    · exact hne rfl
    have huInside := (horderly'.below (.of_mem_children hu)).inside huc
    rcases horderly'.eq_or_apart hu (role?_mem h'.method) with rfl | hbefore | hafter
    · have hleaf := List.isEmpty_iff.1 (htop.leaf d h'.below h'.isCall u h'.method)
      obtain rfl := huc.eq_of_leaf hleaf
      have := node_mem_children (role?_mem h.method)
      simp [hleaf] at this
    · omega
    · omega
  · omega
  · omega

/-- Where the arguments of one call end, those of one that comes later in the tree do not begin. -/
theorem last_stop_ne_first_start (h : Bare top c m list first last)
    (h' : Bare top d m' list' first' last') (htop : Proper top) {w : Cursor} (hw : Below top w)
    (hu : u ∈ w.children) (hv : v ∈ w.children) (hlt : u.index < v.index) (hlast : Below u last)
    (hfirst : Below v first') : last.node.stop ≠ first'.node.start := by
  intro heq
  have hspans' := h'.spans htop.toShaped
  have horderly := htop.orderly.below hw
  have huInside := (horderly.below (.of_mem_children hu)).inside hlast
  have hbefore := horderly.siblings hu hv hlt
  have hmethod := role?_mem h'.method
  obtain ⟨hleavesD, hleavesL⟩ := (htop.calls d h'.below h'.isCall).leaves m' h'.method list' h'.list
    first' h'.first h'.bare
  -- A leaf that an argument lies in is the argument itself, so its parent is the list.
  have hleaf : u.node.children.isEmpty = true → last = u ∧ w = list := by
    intro hempty
    obtain rfl := hlast.eq_of_leaf (List.isEmpty_iff.1 hempty)
    exact ⟨rfl, parent_unique hu h.last_mem⟩
  cases hfirst with
  | refl =>
      obtain rfl := parent_unique hv h'.first_mem
      obtain ⟨rfl, rfl⟩ := hleaf (hleavesL u hu hlt)
      obtain rfl := parent_unique (argumentList?_mem h.list) (argumentList?_mem h'.list)
      have := first_index_le h'.first (List.mem_of_getLast? h.isLast)
      omega
  | step hvl hmem =>
      obtain rfl := parent_unique hmem h'.first_mem
      cases hvl with
      | refl =>
          obtain rfl := parent_unique hv (argumentList?_mem h'.list)
          have hparent : u.node.children.isEmpty = false := by
            rw [Bool.eq_false_iff]
            intro hempty
            obtain ⟨-, rfl⟩ := hleaf hempty
            have hcall := h'.isCall
            rw [not_isCall_argumentList h.list] at hcall
            nomatch hcall
          rcases index_lt_or_eq_or_lt hu hmethod with hindex | rfl | hindex
          · have := horderly.siblings hu hmethod hindex
            omega
          · rw [htop.leaf w h'.below h'.isCall u h'.method] at hparent
            nomatch hparent
          · rw [hleavesD u hu hindex hlt] at hparent
            nomatch hparent
      | step hvd hmem' =>
          obtain rfl := parent_unique hmem' (argumentList?_mem h'.list)
          have hmInside := (horderly.below (.of_mem_children hv)).inside (.step hvd hmethod)
          omega

end Bare

/-! ## Blank gaps -/

/-- A tree of proper calls over a text.  A call with arguments that stand without parentheses has a
method, and only whitespace and backslashes come between the two. -/
structure Spaced (data : List UInt8) (top : Cursor) : Prop extends Proper top where
  named : ∀ c, Below top c → isCall c = true → isParenthesized c = false → arguments c ≠ [] →
    (method? c).isSome
  spaced : ∀ c, Below top c → isCall c = true → isParenthesized c = false →
    ∀ m ∈ method? c, ∀ first ∈ (arguments c).head?,
      ∀ b ∈ (data.drop m.node.stop).take (first.node.start - m.node.stop), b ∈ blankBytes

instance (data : List UInt8) (top : Cursor) : Decidable (Spaced data top) :=
  decidable_of_iff (_ ∧ _ ∧ _) ⟨fun h => ⟨h.1, h.2.1, h.2.2⟩, fun h => ⟨h.1, h.2, h.3⟩⟩

variable {data : List UInt8}

/-- The arguments that a call without parentheses has come after its method. -/
theorem Spaced.exists_bare (h : Spaced data top) (hc : Below top c) (hcall : isCall c = true)
    (hbare : isParenthesized c = false) (hfirst : (arguments c).head? = some first)
    (hlast : (arguments c).getLast? = some last) : ∃ m list, Bare top c m list first last := by
  have hsome : arguments c ≠ [] := List.ne_nil_of_mem (List.mem_of_head? hfirst)
  obtain ⟨m, hm⟩ := Option.isSome_iff_exists.1 (h.named c hc hcall hbare hsome)
  obtain ⟨list, hlist⟩ := exists_argumentList (List.mem_of_head? hfirst)
  exact ⟨m, list, ⟨hm, hlist, hfirst, hbare⟩, hc, hcall, hlast⟩

theorem Spaced.blank (h : Spaced data top) (hbare : Bare top c m list first last) {i : Nat}
    (hlow : m.node.stop ≤ i) (hhigh : i < first.node.start) : inked data[i]?.toList = [] := by
  cases hdata : data[i]? with
  | none => rfl
  | some b =>
      have hmem : b ∈ (data.drop m.node.stop).take (first.node.start - m.node.stop) := by
        rw [List.mem_iff_getElem?]
        refine ⟨i - m.node.stop, ?_⟩
        rw [List.getElem?_take_of_lt (by omega), List.getElem?_drop, Nat.add_sub_of_le hlow, hdata]
      have hblank := h.spaced c hbare.below hbare.isCall hbare.bare m hbare.method first
        hbare.first b hmem
      simp [inked, hblank]

end RubyLint.Layout
