import RubyLint.Proofs.Ruby.Reparse
import RubyLint.Proofs.Rules.Corrected

/-!
# The layout rules on a corrected text

What the layout rules find in the tree of a corrected text.  The lines of a place's image follow
from where its edges land, method names are as before, and so is all else that a rule asks about a
call.  A call that was wrapped has its first argument on a line of its own, a link that was reported
has left the line of its receiver, and what was in order before is in order still.
-/

namespace RubyLint.Layout

open Cursor Ruby Edit

variable {r : Reparse} {s s' : Source} {operators allowed : List Value} {edits : List Edit}
variable {top c first last link list m op root u x : Cursor} {role : String} {p q : Nat}

/-- Whether a list is put between parentheses: its call is wrapped and has none. -/
def isWrapped (s : Source) (allowed : List Value) (x : Cursor) : Bool :=
  match x.parent? with
  | none => false
  | some c => isCall c && WrapArguments.isDue s allowed c && !isParenthesized c &&
      (argumentList? c).any fun list => list.index == x.index

theorem isWrapped_iff (hx : x ∈ c.children) :
    isWrapped s allowed x = true ↔ isCall c = true ∧ isParenthesized c = false ∧
      ∃ first last, WrapArguments.Due s allowed c first last x := by
  simp only [isWrapped, parent?_of_mem_children hx, Bool.and_eq_true, Bool.not_eq_true',
    Option.any_eq_true_iff_get, beq_iff_eq]
  constructor
  · rintro ⟨⟨⟨hcall, hdue⟩, hbare⟩, hsome, hindex⟩
    obtain ⟨list, hlist⟩ := Option.isSome_iff_exists.1 hsome
    simp only [hlist, Option.get_some] at hindex
    obtain rfl := eq_of_index_eq (argumentList?_mem hlist) hx hindex
    obtain ⟨first, last, list', hdue⟩ := WrapArguments.isDue_iff.1 hdue
    obtain rfl := Option.some.inj (hlist.symm.trans hdue.isList)
    exact ⟨hcall, hbare, first, last, hdue⟩
  · rintro ⟨hcall, hbare, first, last, hdue⟩
    refine ⟨⟨⟨hcall, WrapArguments.isDue_iff.2 ⟨first, last, x, hdue⟩⟩, hbare⟩, ?_⟩
    simp [hdue.isList]

/-- How the tree of a text is carried through the edits that the layout rules ask for. -/
def reparse (s : Source) (allowed : List Value) (edits : List Edit)
    (opening closing : Cursor → Nat × Nat) : Reparse where
  startOf := carryStart s.data edits
  stopOf := carryStop s.data edits
  wrapped := isWrapped s allowed
  opening := opening
  closing := closing

/-- A tree without empty nodes can be carried. -/
theorem forward_of_nonempty {opening closing : Cursor → Nat × Nat}
    (hnonempty : ∀ x, Below top x → x.node.start < x.node.stop)
    (hopening : ∀ x, (opening x).1 ≤ (opening x).2)
    (hclosing : ∀ x, (closing x).1 ≤ (closing x).2) :
    ∀ y, Below ((reparse s allowed edits opening closing).image top) y →
      y.node.start ≤ y.node.stop := by
  intro y hy
  rcases Reparse.of_below_image _ hy with ⟨x, hx, rfl⟩ | ⟨c, hadded⟩
  · have hcarried := carryStart_le_carryStop s.data edits (hnonempty x hx)
    rw [Reparse.image_node]
    split
    · simp only [reparse]
      omega
    · exact hcarried
  · rcases hadded with hadded | hadded
    · exact hadded ▸ hopening c
    · exact hadded ▸ hclosing c

/-- If the tree can be carried at all, no call that is wrapped has an empty first argument: the
start of an empty one would move behind its end. -/
theorem solid_of_forward (h : Corrects s operators allowed top edits) (htop : Proper top)
    {opening closing : Cursor → Nat × Nat}
    (hforward : ∀ y, Below ((reparse s allowed edits opening closing).image top) y →
      y.node.start ≤ y.node.stop) : Solid s allowed top := by
  refine ⟨htop, fun c first last list hc hcall hdue => ?_⟩
  have hmem := arguments_mem hdue.isList (List.mem_of_head? hdue.isFirst)
  have hfirst : Below top first := .step (.step hc (argumentList?_mem hdue.isList)) hmem
  have hwrapped : (reparse s allowed edits opening closing).wrapped first = false := by
    refine Bool.eq_false_iff.2 fun hwrapped => ?_
    have hlist := ((isWrapped_iff hmem).1 hwrapped).1
    simp [not_isCall_argumentList hdue.isList] at hlist
  have hcarried := hforward _ (Reparse.below_image _ hfirst)
  rw [Reparse.image_start _ hwrapped, Reparse.image_stop _ hwrapped] at hcarried
  refine Nat.lt_of_le_of_ne (htop.orderly.below hfirst).forward fun heq => ?_
  have hbreak : 0 < breaksAt edits first.node.start := h.breaksAt_pos_iff.2 (.wrap hc hcall hdue)
  have hcount : breaksAt edits first.node.start ≤ (insertedAt edits first.node.start).length :=
    List.count_le_length
  simp only [reparse, carryStart, ← heq] at hcarried
  omega

/-- A text with its tree, the corrected text, and the way from the one to the other. -/
structure Correcting (r : Reparse) (s s' : Source) (operators allowed : List Value) (top : Cursor)
    (edits : List Edit) : Prop extends Corrects s operators allowed top edits where
  solid : Solid s allowed top
  root : top.parent? = none
  within : top.node.stop ≤ s.data.length
  lines : s.lines = LineIndex.ofBytes s.data
  data' : s'.data = positional s.data edits
  lines' : s'.lines = LineIndex.ofBytes s'.data
  startOf : r.startOf = carryStart s.data edits
  stopOf : r.stopOf = carryStop s.data edits
  wrapped : r.wrapped = isWrapped s allowed

theorem slice_natCast {α : Type} {xs : List α} (hpq : p ≤ q) (hq : q ≤ xs.length) :
    Indexing.slice xs p q = (xs.drop p).take (q - p) := by
  have hcut : ∀ i : Nat, i ≤ xs.length → Indexing.cut xs.length i = i := by
    intro i hi
    rw [Indexing.cut, if_neg (by omega), Int.toNat_natCast, Nat.min_eq_left hi]
  simp only [Indexing.slice, hcut p (by omega), hcut q hq]

theorem head?_image (r : Reparse) (c : Cursor) : head? (r.image c) = (head? c).map r.image := by
  simp only [head?, method?, operator?, r.image_role?]
  cases c.role? "method" <;> rfl

theorem partOfLargerChain_image (r : Reparse) (c : Cursor) :
    ChainBreaks.partOfLargerChain (r.image c) = ChainBreaks.partOfLargerChain c := by
  simp only [ChainBreaks.partOfLargerChain, r.image_parent?]
  cases c.parent? with
  | none => rfl
  | some p => simp [r.image_isCall, r.image_hasBlock]

/-- The links and the root of a chain are carried with it. -/
theorem spine_image (r : Reparse) (c : Cursor) :
    ChainBreaks.spine (r.image c) =
      ((ChainBreaks.spine c).1.map r.image, r.image (ChainBreaks.spine c).2) := by
  induction c using ChainBreaks.spine_induction with
  | bare c hreceiver =>
      have himage := r.image_receiver? c
      rw [hreceiver] at himage
      rw [ChainBreaks.spine_of_none hreceiver, ChainBreaks.spine_of_none himage]
      rfl
  | closed c u hreceiver hclosed =>
      have himage := r.image_receiver? c
      rw [hreceiver] at himage
      have hclosed' : (!isCall (r.image u) || hasBlock (r.image u)) = true := by
        rwa [r.image_isCall, r.image_hasBlock]
      rw [ChainBreaks.spine_of_closed hreceiver hclosed,
        ChainBreaks.spine_of_closed himage hclosed']
      rfl
  | next c u hreceiver hcall hblock ih =>
      have himage := r.image_receiver? c
      rw [hreceiver] at himage
      rw [ChainBreaks.spine_of_open hreceiver hcall hblock,
        ChainBreaks.spine_of_open himage ((r.image_isCall u).trans hcall)
          ((r.image_hasBlock u).trans hblock), ih]
      rfl

theorem callStartLine_eq (h : operator? c = some op) :
    ChainBreaks.callStartLine s c = s.firstLine op.node := by
  rw [ChainBreaks.callStartLine, h]
  rfl

namespace Correcting

variable (h : Correcting r s s' operators allowed top edits)

include h

/-! ## Places that are not wrapped -/

theorem not_wrapped_part (hx : c.role? role = some x) (hrole : role ≠ "arguments") :
    r.wrapped x = false := by
  rw [h.wrapped, Bool.eq_false_iff, ne_eq, isWrapped_iff (role?_mem hx)]
  rintro ⟨-, -, first, last, hdue⟩
  have hfield := (role?_field hx).symm.trans (role?_field (argumentList?_role hdue.isList))
  exact hrole (Option.some.inj hfield)

theorem not_wrapped_argument (hlist : argumentList? c = some list) (hx : x ∈ list.children) :
    r.wrapped x = false := by
  rw [h.wrapped, Bool.eq_false_iff, ne_eq, isWrapped_iff hx]
  rintro ⟨hcall, -⟩
  simp [not_isCall_argumentList hlist] at hcall

theorem not_wrapped_call (hc : Below top c) (hcall : isCall c = true) : r.wrapped c = false := by
  rw [h.wrapped]
  cases hc with
  | refl => simp [isWrapped, h.root]
  | step _ hmem =>
      rw [Bool.eq_false_iff, ne_eq, isWrapped_iff hmem]
      rintro ⟨-, -, first, last, hdue⟩
      simp [not_isCall_argumentList hdue.isList] at hcall

theorem not_wrapped_child (hu : u ∈ c.children)
    (hquiet : ∀ first last list, ¬WrapArguments.Due s allowed c first last list) :
    r.wrapped u = false := by
  rw [h.wrapped, Bool.eq_false_iff, ne_eq, isWrapped_iff hu]
  rintro ⟨-, -, first, last, hdue⟩
  exact hquiet _ _ _ hdue

/-- The new tree does not leave the new text. -/
theorem stop_image_le : (r.image top).node.stop ≤ s'.data.length := by
  have hwrapped : r.wrapped top = false := by simp [h.wrapped, isWrapped, h.root]
  rw [r.image_stop hwrapped, h.stopOf, h.data']
  exact carryStop_le_length h.within

/-! ## Lines of images -/

theorem smooth : Smooth edits :=
  h.toCorrects.smooth h.solid.toProper

theorem stop_le_length (hx : Below top x) : x.node.stop ≤ s.data.length :=
  Nat.le_trans (h.solid.orderly.inside hx).2 h.within

theorem start_le_length (hx : Below top x) : x.node.start ≤ s.data.length :=
  Nat.le_trans (h.solid.orderly.below hx).forward (h.stop_le_length hx)

theorem firstLine_image (hx : Below top x) (hwrapped : r.wrapped x = false) :
    s'.firstLine (r.image x).node = linesBefore s.data edits x.node.start + 1 := by
  rw [Source.firstLine, r.image_start hwrapped, h.startOf, h.lines', h.data',
    lineOf_carryStart (h.start_le_length hx)]

/-- The line of the last byte before the place where an end lands. -/
theorem lineOf_stop (hpos : 0 < q) (hwithin : q ≤ s.data.length) :
    0 < carryStop s.data edits q ∧
      s'.lines.lineOf ((carryStop s.data edits q - 1 : Nat) : Int) =
        linesBefore s.data edits (q - 1) + 1 := by
  have hline := h.smooth.lineOf_carryStop s.data (q := q - 1) (by omega)
  rw [Nat.sub_add_cancel hpos] at hline
  rw [h.lines', h.data']
  exact hline

theorem lastLine_image (hx : Below top x) (hwrapped : r.wrapped x = false)
    (hsolid : x.node.start < x.node.stop) (hvisible : isVisible edits x.node.start) :
    s'.lastLine (r.image x).node = linesBefore s.data edits (x.node.stop - 1) + 1 := by
  have hwithin := h.stop_le_length hx
  have hstart : x.node.start < s.data.length := by omega
  have hlt := carryStart_lt_carryStop hvisible hstart hsolid
  rw [lastLine_eq, r.image_stop hwrapped, h.stopOf]
  · exact (h.lineOf_stop (by omega) hwithin).2
  · rwa [r.image_start hwrapped, r.image_stop hwrapped, h.startOf, h.stopOf]

/-- An image does not end before the line on which the end lands. -/
theorem le_lastLine_image (hx : Below top x) (hsolid : x.node.start < x.node.stop) :
    linesBefore s.data edits (x.node.stop - 1) + 1 ≤ s'.lastLine (r.image x).node := by
  obtain ⟨hpos, hline⟩ := h.lineOf_stop (q := x.node.stop) (by omega) (h.stop_le_length hx)
  have hstop : carryStop s.data edits x.node.stop ≤ (r.image x).node.stop := by
    rw [r.image_node]
    split
    · simp only [h.stopOf]
      omega
    · simp only [h.stopOf]
      omega
  rw [← hline, Source.lastLine]
  refine LineIndex.lineOf_mono _ ?_
  split <;> omega

theorem anchor_visible (hx : Anchor top x) : isVisible edits x.node.start :=
  h.visible fun _ _ _ _ _ hc hcall _ hgap => (hx.edges_outside h.solid.toShaped hc hcall hgap).1

/-- A place with children is visible unless it is put between parentheses. -/
theorem visible_of_children (hx : Below top x) (hchildren : x.node.children ≠ [])
    (hwrapped : r.wrapped x = false) : isVisible edits x.node.start := by
  refine h.visible fun c m list first last hc hcall hdue hgap => ?_
  refine hgap.start_outside (h.solid.calls c hc hcall) h.solid.orderly hc hx hchildren ?_
  rintro rfl
  rw [h.wrapped, Bool.eq_false_iff, ne_eq,
    isWrapped_iff (argumentList?_mem hdue.isList)] at hwrapped
  exact hwrapped ⟨hcall, hgap.bare, first, last, hdue⟩

section

variable (hc : Below top c) (hcall : isCall c = true) (hu : u ∈ c.children)
  (hquiet : ∀ first last list, ¬WrapArguments.Due s allowed c first last list)

include hc hcall hu hquiet

/-- A call that is not wrapped, without its block, ends where it lands. -/
theorem sendEnd_image :
    c.node.start = sendEnd c ∧ sendEnd (r.image c) = (r.image c).node.start ∨
      c.node.start < sendEnd c ∧ (r.image c).node.start < sendEnd (r.image c) ∧
        sendEnd (r.image c) = carryStop s.data edits (sendEnd c) := by
  have hwrapped := h.not_wrapped_call hc hcall
  have hstart : (r.image c).node.start = carryStart s.data edits c.node.start := by
    rw [r.image_start hwrapped, h.startOf]
  have hstop : ∀ u ∈ c.children, (r.image u).node.stop = carryStop s.data edits u.node.stop := by
    intro u hu
    rw [r.image_stop (h.not_wrapped_child hu hquiet), h.stopOf]
  have hle := start_le_sendEnd c
  have hle' := start_le_sendEnd (r.image c)
  have hend : sendEnd (r.image c) = (r.image c).node.start ∨
      sendEnd (r.image c) ≤ carryStop s.data edits (sendEnd c) := by
    rcases sendEnd_eq (r.image c) with heq | ⟨v, hv, hsent, heq⟩
    · exact .inl heq
    · simp only [r.image_children, Reparse.added, hwrapped, Bool.false_eq_true, if_false,
        List.nil_append, List.append_nil, List.mem_map] at hv
      obtain ⟨u, hu, rfl⟩ := hv
      refine .inr ?_
      rw [heq, hstop u hu]
      exact carryStop_mono _ _ (stop_le_sendEnd hu (by simpa [isSent] using hsent))
  rcases Nat.eq_or_lt_of_le hle with heq | hlt
  · refine .inl ⟨heq, ?_⟩
    have := carryStop_le_carryStart s.data edits c.node.start
    rw [← heq] at hend
    omega
  · refine .inr ⟨hlt, ?_⟩
    obtain ⟨v, hv, hsent, heq⟩ := (sendEnd_eq c).resolve_left (by omega)
    have hreach := stop_le_sendEnd (r.image_mem_children hv)
      (show isSent (r.image v).node = true by simpa [isSent] using hsent)
    rw [hstop v hv, ← heq] at hreach
    have hwithin := h.start_le_length hc
    have hend' := sendEnd_le_stop (h.solid.orderly.below hc)
    have hcWithin := h.stop_le_length hc
    have hvisible := h.visible_of_children hc (List.ne_nil_of_mem (node_mem_children hu)) hwrapped
    have hsize : c.node.start < s.data.length := by omega
    have hspan := carryStart_lt_carryStop hvisible hsize hlt
    omega

/-- A call that is not wrapped, without its block, stays on its last line. -/
theorem sendLastLine_image :
    sendLastLine s' (r.image c) = linesBefore s.data edits (sendLast c) + 1 := by
  have hend := sendEnd_le_stop (h.solid.orderly.below hc)
  have hwithin := h.stop_le_length hc
  rw [sendLastLine_eq, sendLast, sendLast]
  rcases h.sendEnd_image hc hcall hu hquiet with ⟨heq, heq'⟩ | ⟨hlt, hlt', heq⟩
  · rw [← heq, heq', Nat.max_eq_left (Nat.sub_le _ _), Nat.max_eq_left (Nat.sub_le _ _)]
    exact h.firstLine_image hc (h.not_wrapped_call hc hcall)
  · rw [Nat.max_eq_right (by omega), Nat.max_eq_right (by omega), heq]
    exact (h.lineOf_stop (by omega) (by omega)).2

end

/-! ## Method names -/

section

variable (hm : Anchor top m) (hleaf : m.node.children = [])

include hm hleaf

/-- No edit replaces a byte of an anchor without children. -/
theorem kept_of_leaf (hp : m.node.start ≤ p) (hq : p < m.node.stop) :
    isCovered edits p = false ∧ replacedAt edits p = [] := by
  have hkept : isCovered edits p = false := by
    refine Bool.eq_false_iff.2 fun hcovered => ?_
    obtain ⟨c, mc, list, first, last, hc, hcall, hdue, hgap, hlow, hhigh, -⟩ :=
      h.exists_gap hcovered
    have hbelow := hm.around h.solid.toShaped hc hcall hgap (by omega) (by omega)
    obtain rfl := hbelow.eq_of_leaf hleaf
    simpa [hleaf] using node_mem_children (role?_mem hgap.method)
  refine ⟨hkept, ?_⟩
  rcases h.replacedAt_eq p with ⟨hnone, -⟩ | ⟨-, e, he, hreplace, hstart⟩
  · exact hnone
  · have hforward := (h.sound e he).layout.forward h.solid.toShaped
    have hcovers : e.covers p = true := by
      rw [covers_iff]
      rw [isInsertion_eq_false_iff] at hreplace
      exact ⟨by rwa [isInsertion_eq_false_iff], by omega, by omega⟩
    rw [isCovered, List.any_eq_false] at hkept
    exact absurd hcovers (hkept e he)

/-- Nothing is inserted into an anchor without children. -/
theorem quiet_of_leaf (hp : m.node.start < p) (hq : p < m.node.stop) : insertedAt edits p = [] := by
  refine insertedAt_eq_nil fun e he _ hplace => ?_
  obtain ⟨⟨y, hy, hstart⟩, -⟩ := (h.sound e he).layout.edges
  obtain ⟨z, hz, hmem⟩ := hy.exists_parent
  have hbelow := below_of_edge h.solid.orderly hm.below hz hmem (by omega)
  obtain rfl := hbelow.eq_of_leaf hleaf
  simpa [hleaf] using node_mem_children hmem

theorem textOf_image (hsolid : m.node.start < m.node.stop) (hwrapped : r.wrapped m = false) :
    s'.textOf (r.image m).node = s.textOf m.node := by
  have hwithin := h.stop_le_length hm.below
  have hsize : m.node.start < s.data.length := by omega
  have hvisible := h.anchor_visible hm
  have hspan := carryStart_lt_carryStop hvisible hsize hsolid
  have hreach := @carryStop_le_length _ edits _ hwithin
  rw [Source.textOf, Source.textOf, r.image_start hwrapped, r.image_stop hwrapped, h.startOf,
    h.stopOf, Source.slice, Source.slice, slice_natCast (Nat.le_of_lt hsolid) hwithin, h.data',
    slice_natCast (Nat.le_of_lt hspan) hreach,
    drop_take_carry hsolid hwithin (fun i => h.kept_of_leaf hm hleaf)
      fun i => h.quiet_of_leaf hm hleaf]

end

theorem methodName?_image (hc : Below top c) (hcall : isCall c = true) :
    methodName? s' (r.image c) = methodName? s c := by
  simp only [methodName?, method?, r.image_role?]
  cases hm : c.role? "method" with
  | none => rfl
  | some m =>
      have hwrapped := h.not_wrapped_part hm (by decide)
      have hleaf := List.isEmpty_iff.1 (h.solid.leaf c hc hcall m hm)
      have hsolid := (h.solid.calls c hc hcall).part_nonempty hm
      have htext := h.textOf_image (.part hc hcall (by decide) hm) hleaf hsolid hwrapped
      have hchildren : (r.image m).node.children = [] := by
        have hnone : m.children = [] := by simp [Cursor.children, hleaf]
        rw [r.image_node, hwrapped, hnone]
        rfl
      simp only [Option.map_some, Option.bind_some, Source.valueOf, r.image_kind, r.image_named,
        Node.namedChildren, hchildren, hleaf, htext, List.filter_nil, List.map_nil]

/-! ## Calls that need no more wrapping -/

theorem callLine_image (hc : Below top c) (hx : head? c = some x) :
    WrapArguments.callLine s' (r.image c) = linesBefore s.data edits x.node.start + 1 := by
  obtain ⟨role, hrole, hpart⟩ := head?_role hx
  have hne : role ≠ "arguments" := by
    rintro rfl
    simp at hrole
  rw [callLine_eq (x := r.image x) (by rw [head?_image, hx]; rfl)]
  exact h.firstLine_image (.step hc (head?_mem hx)) (h.not_wrapped_part hpart hne)

/-- A call that was wrapped has parentheses and its first argument on a line of its own. -/
theorem broken_of_due (hc : Below top c) (hcall : isCall c = true)
    (hdue : WrapArguments.Due s allowed c first last list) :
    isParenthesized (r.image c) = true ∧
      WrapArguments.callLine s' (r.image c) < s'.firstLine (r.image first).node := by
  obtain ⟨x, hx⟩ := exists_head? h.solid.toProper hc hcall hdue.isFirst
  have hmem := argumentList?_mem hdue.isList
  have hfirstMem := arguments_mem hdue.isList (List.mem_of_head? hdue.isFirst)
  have hbelow : Below top first := .step (.step hc hmem) hfirstMem
  have hbefore := head?_before_list h.solid.toProper hc hcall hx hdue.isList
  have hinside := (h.solid.orderly.below (.step hc hmem)).inside (.of_mem_children hfirstMem)
  constructor
  · rw [r.image_isParenthesized hdue.isList, h.wrapped, Bool.or_eq_true, or_iff_not_imp_left,
      Bool.not_eq_true]
    exact fun hbare => (isWrapped_iff hmem).2 ⟨hcall, hbare, first, last, hdue⟩
  · have hbroken := h.linesBefore_lt_break h.solid.toProper (.wrap hc hcall hdue)
      (p := x.node.start) (by omega)
    rw [h.callLine_image hc hx,
      h.firstLine_image hbelow (h.not_wrapped_argument hdue.isList hfirstMem)]
    omega

/-- A first argument on a line of its own stays on one. -/
theorem broken_of_broken (hc : Below top c) (hcall : isCall c = true)
    (hlist : argumentList? c = some list) (hfirst : (arguments c).head? = some first)
    (hlt : WrapArguments.callLine s c < s.firstLine first.node) :
    WrapArguments.callLine s' (r.image c) < s'.firstLine (r.image first).node := by
  obtain ⟨x, hx⟩ := exists_head? h.solid.toProper hc hcall hfirst
  have hfirstMem := arguments_mem hlist (List.mem_of_head? hfirst)
  have hanchor : Anchor top first := .argument hc hcall (List.mem_of_head? hfirst)
  rw [callLine_eq hx] at hlt
  have hbroken := h.linesBefore_lt_anchor h.solid.toProper h.lines hanchor hlt
  rw [h.callLine_image hc hx,
    h.firstLine_image hanchor.below (h.not_wrapped_argument hlist hfirstMem)]
  omega

/-- Arguments that are not wrapped and end on the line of their call still do. -/
theorem lastLine_list (hc : Below top c) (hcall : isCall c = true)
    (hlist : argumentList? c = some list) (hfirst : (arguments c).head? = some first)
    (hquiet : ∀ first last list, ¬WrapArguments.Due s allowed c first last list)
    (hspread : s.lastLine list.node = WrapArguments.callLine s c) :
    s'.lastLine (r.image list).node = WrapArguments.callLine s' (r.image c) := by
  obtain ⟨x, hx⟩ := exists_head? h.solid.toProper hc hcall hfirst
  have hmem := argumentList?_mem hlist
  have hfirstMem := arguments_mem hlist (List.mem_of_head? hfirst)
  have hbefore := head?_before_list h.solid.toProper hc hcall hx hlist
  have hwrapped := h.not_wrapped_child hmem hquiet
  have hvisible := h.visible_of_children (.step hc hmem)
    (List.ne_nil_of_mem (node_mem_children hfirstMem)) hwrapped
  rw [h.lastLine_image (.step hc hmem) hwrapped hbefore.2.2 hvisible, h.callLine_image hc hx,
    h.linesBefore_eq_list h.solid h.lines hc hcall hx hlist hquiet hspread]

/-- After the corrections no call is to be wrapped. -/
theorem not_due_image (hc : Below top c) (hcall : isCall c = true) {first' last' list' : Cursor} :
    ¬WrapArguments.Due s' allowed (r.image c) first' last' list' := by
  intro hdue'
  have hisFirst := hdue'.isFirst
  have hisList := hdue'.isList
  have hisLast := hdue'.isLast
  rw [r.image_arguments, List.head?_map, Option.map_eq_some_iff] at hisFirst
  rw [r.image_arguments, List.getLast?_map, Option.map_eq_some_iff] at hisLast
  rw [r.image_argumentList?, Option.map_eq_some_iff] at hisList
  obtain ⟨first, hfirst, rfl⟩ := hisFirst
  obtain ⟨last, hlast, rfl⟩ := hisLast
  obtain ⟨list, hlist, rfl⟩ := hisList
  by_cases hdue : WrapArguments.Due s allowed c first last list
  · obtain ⟨hparenthesized, hlt⟩ := h.broken_of_due hc hcall hdue
    exact absurd (hdue'.unbroken hparenthesized) (Nat.not_le.2 hlt)
  · have hquiet : ∀ first last list, ¬WrapArguments.Due s allowed c first last list := by
      intro first' last' list' hdue'
      obtain rfl := Option.some.inj (hfirst.symm.trans hdue'.isFirst)
      obtain rfl := Option.some.inj (hlast.symm.trans hdue'.isLast)
      obtain rfl := Option.some.inj (hlist.symm.trans hdue'.isList)
      exact hdue hdue'
    by_cases hspread : s.lastLine list.node = WrapArguments.callLine s c
    · exact hdue'.spread (h.lastLine_list hc hcall hlist hfirst hquiet hspread)
    · -- Of the other exemptions only that of a broken line can have applied.
      have hexempt : isParenthesized c = true ∧
          WrapArguments.callLine s c < s.firstLine first.node := by
        by_contra hnot
        refine hdue ⟨hfirst, hlast, hlist, hspread, ?_, ?_, ?_, fun hparenthesized => ?_⟩
        · exact r.image_isSetter c ▸ hdue'.notSetter
        · exact h.methodName?_image hc hcall ▸ hdue'.notAllowed
        · refine Bool.eq_false_iff.2 fun hheredoc => ?_
          simpa [r.image_hasHeredoc hheredoc] using hdue'.noHeredoc
        · exact Nat.le_of_not_lt fun hlt => hnot ⟨hparenthesized, hlt⟩
      have hunbroken := hdue'.unbroken (by rw [r.image_isParenthesized hlist, hexempt.1]; rfl)
      exact absurd hunbroken (Nat.not_le.2 (h.broken_of_broken hc hcall hlist hfirst hexempt.2))

/-! ## Chains that need no more breaks -/

/-- A receiver is carried with its last line. -/
theorem lastLine_receiver (hc : Below top c) (hcall : isCall c = true)
    (hu : receiver? c = some u) :
    s'.lastLine (r.image u).node = linesBefore s.data edits (u.node.stop - 1) + 1 :=
  h.lastLine_image (.step hc (role?_mem hu)) (h.not_wrapped_part hu (by decide))
    ((h.solid.calls c hc hcall).part_nonempty hu)
    (h.anchor_visible (.part hc hcall (by decide) hu))

/-- A chain that spans several lines after the corrections did so before. -/
theorem spread_of_image (hc : Below top c) (hcall : isCall c = true)
    (hspread : ChainBreaks.Spread s' (r.image c)) : ChainBreaks.Spread s c := by
  have hreceiver : (receiver? c).isSome := by
    have := hspread.receiver
    rwa [r.image_receiver?, Option.isSome_map] at this
  have houter : ChainBreaks.partOfLargerChain c = false :=
    (partOfLargerChain_image r c).symm.trans hspread.outer
  obtain ⟨u, hu⟩ := Option.isSome_iff_exists.1 hreceiver
  by_contra hlevel
  have hquiet : ∀ first last list, ¬WrapArguments.Due s allowed c first last list :=
    fun first last list hdue =>
      hlevel (spread_of_due h.solid.toProper h.lines hc hcall hu houter hdue)
  obtain ⟨link, hlink, hroot⟩ := ChainBreaks.exists_link_root hreceiver
  refine hspread.spread ?_
  rw [spine_image, h.lastLine_receiver (hc.trans hlink.descends) (hlink.isCall hcall) hroot,
    h.sendLastLine_image hc hcall (role?_mem hu) hquiet,
    h.linesBefore_eq_chain h.solid h.lines ⟨hcall, hreceiver, houter, hlevel, hquiet⟩ hc]

/-- The operator of a call is carried with the line it stands on. -/
theorem callStartLine_image (hc : Below top c) (hop : operator? c = some op) :
    ChainBreaks.callStartLine s' (r.image c) = linesBefore s.data edits op.node.start + 1 := by
  have hoperator := r.image_operator? c
  rw [hop] at hoperator
  rw [callStartLine_eq hoperator]
  exact h.firstLine_image (.step hc (role?_mem hop)) (h.not_wrapped_part hop (by decide))

/-- Arguments that break the line of their call still do. -/
theorem argumentsCauseBreak_image (hc : Below top c) (hcall : isCall c = true)
    (hop : operator? c = some op) (hcause : ChainBreaks.argumentsCauseBreak s c = true) :
    ChainBreaks.argumentsCauseBreak s' (r.image c) = true := by
  cases hlist : argumentList? c with
  | none => simp [ChainBreaks.argumentsCauseBreak, hlist] at hcause
  | some list =>
      simp only [ChainBreaks.argumentsCauseBreak, hlist, Bool.and_eq_true, Bool.not_eq_true',
        decide_eq_true_eq, callStartLine_eq hop] at hcause
      obtain ⟨hsome, hlt⟩ := hcause
      obtain ⟨first, rest, hrest⟩ := List.exists_cons_of_ne_nil (List.isEmpty_eq_false_iff.1 hsome)
      have hsolid := (h.solid.calls c hc hcall).part_nonempty (argumentList?_role hlist)
      rw [lastLine_eq s hsolid] at hlt
      have hbroken := h.linesBefore_lt_list h.solid h.lines hc hcall hlist (by rw [hrest]; rfl) hlt
      have hreach := h.le_lastLine_image (.step hc (argumentList?_mem hlist)) hsolid
      simp only [ChainBreaks.argumentsCauseBreak, r.image_argumentList?, hlist, Option.map_some,
        r.image_arguments, List.isEmpty_map, hsome, Bool.not_false, Bool.true_and,
        decide_eq_true_eq, h.callStartLine_image hc hop]
      omega

/-- After the corrections no link is to be reported. -/
theorem not_offending_image (hc : Below top c) (hcall : isCall c = true)
    (hspread : ChainBreaks.Spread s c) (hlink : ChainBreaks.Link c link) :
    ChainBreaks.isOffending s' operators (r.image link) = false := by
  have hbelow := hc.trans hlink.descends
  have hcallLink := hlink.isCall hcall
  have hshape := h.solid.calls link hbelow hcallLink
  have horderly := h.solid.orderly.below hbelow
  obtain ⟨u, hu⟩ := hlink.receiver
  obtain ⟨op, hop⟩ := hshape.operator hu
  have hanchor : Anchor top op := .part hbelow hcallLink (by decide) hop
  have hbefore := hshape.stop_le_start horderly hu hop
  have hsolid := hshape.part_nonempty hu
  have hreceiver : receiver? (r.image link) = some (r.image u) := by
    rw [r.image_receiver?, hu, Option.map_some]
  have hstart := h.callStartLine_image hbelow hop
  have hlast := h.lastLine_receiver hbelow hcallLink hu
  have hapart : linesBefore s.data edits (u.node.stop - 1) <
      linesBefore s.data edits op.node.start →
        ChainBreaks.isOffending s' operators (r.image link) = false := by
    intro hlt
    have hne : (s'.lastLine (r.image u).node ==
        ChainBreaks.callStartLine s' (r.image link)) = false := by
      rw [beq_eq_false_iff_ne]
      omega
    simp only [ChainBreaks.isOffending, hreceiver, hne, Bool.false_and]
  cases hoffending : ChainBreaks.isOffending s operators link with
  | true =>
      have hflagged : link ∈ ChainBreaks.flagged s operators c :=
        List.mem_filter.2 ⟨ChainBreaks.mem_links_iff.2 hlink, hoffending⟩
      exact hapart
        (h.linesBefore_lt_break h.solid.toProper (.chain hc hcall hspread hflagged hop) (by omega))
  | false =>
      -- A link was not reported because of its line, its method or its arguments.
      simp only [ChainBreaks.isOffending, hu, callStartLine_eq hop, lastLine_eq s hsolid,
        Bool.and_eq_false_iff, beq_eq_false_iff_ne, ne_eq, Bool.not_eq_false', Bool.or_eq_true]
        at hoffending
      rcases hoffending with hline | hname | hcause
      · have hmono := LineIndex.lineOf_mono s.lines (p := (u.node.stop - 1 : Nat))
          (q := op.node.start) (by omega)
        exact hapart (h.linesBefore_lt_anchor h.solid.toProper h.lines hanchor
          (Nat.lt_of_le_of_ne hmono hline))
      · simp only [ChainBreaks.isOffending, hreceiver, h.methodName?_image hbelow hcallLink, hname,
          Bool.true_or, Bool.not_true, Bool.and_false]
      · simp only [ChainBreaks.isOffending, hreceiver,
          h.argumentsCauseBreak_image hbelow hcallLink hop hcause, Bool.or_true, Bool.not_true,
          Bool.and_false]

theorem flagged_image (hc : Below top c) (hcall : isCall c = true)
    (hspread : ChainBreaks.Spread s' (r.image c)) :
    ChainBreaks.flagged s' operators (r.image c) = [] := by
  rw [ChainBreaks.flagged, spine_image, List.filter_eq_nil_iff]
  intro link' hlink'
  obtain ⟨link, hlink, rfl⟩ := List.mem_map.1 hlink'
  rw [h.not_offending_image hc hcall (h.spread_of_image hc hcall hspread)
    (ChainBreaks.mem_links_iff.1 hlink)]
  exact Bool.false_ne_true

end Correcting

end RubyLint.Layout
