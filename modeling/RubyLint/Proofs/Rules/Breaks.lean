import RubyLint.Proofs.Edit.Carry
import RubyLint.Proofs.Rules.Layout

/-!
# Line breaks of the layout rules

Where the corrections of the layout rules break lines, and what that does to the lines of calls.  A
line break comes from a call or a chain that spans several lines already, so a call or a chain that
stands on one line is not broken; and a newline disappears only in a gap, where a line break takes
its place, so what stands on different lines stays apart.
-/

namespace RubyLint.Layout

open Cursor Ruby Edit

variable {s : Source} {operators allowed : List Value} {edits : List Edit}
variable {top c d e first last link list m op root u x : Cursor} {b i p q : Nat}

/-- A tree of proper calls: with arguments comes a method or an operator, and methods are leaves. -/
structure Proper (top : Cursor) : Prop extends Shaped top where
  called : ∀ c, Below top c → isCall c = true → arguments c ≠ [] →
    ((method? c).or (operator? c)).isSome
  leaf : ∀ c, Below top c → isCall c = true → ∀ m ∈ method? c, m.node.children.isEmpty = true

instance (top : Cursor) : Decidable (Proper top) :=
  decidable_of_iff (_ ∧ _ ∧ _) ⟨fun h => ⟨h.1, h.2.1, h.2.2⟩, fun h => ⟨h.1, h.2, h.3⟩⟩

/-- A tree of proper calls in which no call that is wrapped has an empty first argument. -/
structure Solid (s : Source) (allowed : List Value) (top : Cursor) : Prop extends Proper top where
  reaching : ∀ c first last list, Below top c → isCall c = true →
    WrapArguments.Due s allowed c first last list → first.node.start < first.node.stop

/-- The offsets at which the corrections of a document break lines. -/
inductive BreakAt (s : Source) (operators allowed : List Value) (top : Cursor) : Nat → Prop where
  /-- Before the first argument of a call that is wrapped. -/
  | wrap {c first last list : Cursor} : Below top c → isCall c = true →
      WrapArguments.Due s allowed c first last list →
      BreakAt s operators allowed top first.node.start
  /-- Before the operator of a link that is reported. -/
  | chain {c link op : Cursor} : Below top c → isCall c = true → ChainBreaks.Spread s c →
      link ∈ ChainBreaks.flagged s operators c → operator? link = some op →
      BreakAt s operators allowed top op.node.start

/-! ## Newlines that cause breaks -/

/-- The part of a call that gives its line. -/
def head? (c : Cursor) : Option Cursor :=
  (method? c).or (operator? c)

theorem head?_mem (h : head? c = some x) : x ∈ c.children := by
  rcases Option.or_eq_some_iff.1 h with hm | ⟨-, hop⟩
  · exact role?_mem hm
  · exact role?_mem hop

theorem head?_role (h : head? c = some x) :
    ∃ r ∈ ["operator", "method"], c.role? r = some x := by
  rcases Option.or_eq_some_iff.1 h with hm | ⟨-, hop⟩
  · exact ⟨"method", by decide, hm⟩
  · exact ⟨"operator", by decide, hop⟩

theorem callLine_eq (h : head? c = some x) : WrapArguments.callLine s c = s.firstLine x.node := by
  rw [WrapArguments.callLine, ← head?, h]
  rfl

theorem lastLine_eq (s : Source) {n : Node} (h : n.start < n.stop) :
    s.lastLine n = s.lines.lineOf ((n.stop - 1 : Nat) : Int) := by
  rw [Source.lastLine, if_pos h]
  congr 1
  omega

theorem exists_newline (hlines : s.lines = LineIndex.ofBytes s.data)
    (h : s.lines.lineOf p ≠ s.lines.lineOf q) :
    ∃ i, min p q ≤ i ∧ i < max p q ∧ s.data[i]? = some 10 := by
  rw [hlines] at h
  rcases Nat.le_total p q with hle | hle
  · have hmono := LineIndex.lineOf_mono (LineIndex.ofBytes s.data) (p := p) (q := q) (by omega)
    rw [Nat.min_eq_left hle, Nat.max_eq_right hle]
    exact (LineIndex.lineOf_lt_iff hle).1 (by omega)
  · have hmono := LineIndex.lineOf_mono (LineIndex.ofBytes s.data) (p := q) (q := p) (by omega)
    rw [Nat.min_eq_right hle, Nat.max_eq_left hle]
    exact (LineIndex.lineOf_lt_iff hle).1 (by omega)

section

variable (htop : Proper top) (hlines : s.lines = LineIndex.ofBytes s.data)

include htop

theorem head?_before_list (hc : Below top c) (hcall : isCall c = true) (hx : head? c = some x)
    (hlist : argumentList? c = some list) :
    x.node.start < x.node.stop ∧ x.node.stop ≤ list.node.start ∧
      list.node.start < list.node.stop := by
  have hshape := htop.calls c hc hcall
  have horderly := htop.orderly.below hc
  have hrole := argumentList?_role hlist
  refine ⟨?_, ?_, hshape.part_nonempty hrole⟩
  · rcases Option.or_eq_some_iff.1 hx with hm | ⟨-, hop⟩
    · exact hshape.part_nonempty hm
    · exact hshape.part_nonempty hop
  · rcases Option.or_eq_some_iff.1 hx with hm | ⟨-, hop⟩
    · exact hshape.stop_le_start horderly hm hrole
    · exact hshape.stop_le_start horderly hop hrole

theorem receiver_before_head? (hc : Below top c) (hcall : isCall c = true)
    (hreceiver : receiver? c = some u) (hx : head? c = some x) : u.node.stop ≤ x.node.start := by
  have hshape := htop.calls c hc hcall
  rcases Option.or_eq_some_iff.1 hx with hm | ⟨-, hop⟩
  · exact hshape.stop_le_start (htop.orderly.below hc) hreceiver hm
  · exact hshape.stop_le_start (htop.orderly.below hc) hreceiver hop

theorem exists_head? (hc : Below top c) (hcall : isCall c = true)
    (hfirst : (arguments c).head? = some first) : ∃ x, head? c = some x := by
  refine Option.isSome_iff_exists.1 (htop.called c hc hcall fun hnil => ?_)
  simp [hnil] at hfirst

include hlines

/-- A call is wrapped because of a newline between its own line and the end of its arguments. -/
theorem due_newline (hc : Below top c) (hcall : isCall c = true)
    (hdue : WrapArguments.Due s allowed c first last list) :
    ∃ x i, head? c = some x ∧ x.node.start ≤ i ∧ i + 1 < list.node.stop ∧
      s.data[i]? = some 10 := by
  obtain ⟨x, hx⟩ := exists_head? htop hc hcall hdue.isFirst
  have hbefore := head?_before_list htop hc hcall hx hdue.isList
  have hspread := hdue.spread
  rw [lastLine_eq s hbefore.2.2, callLine_eq hx] at hspread
  obtain ⟨i, hlow, hhigh, hnewline⟩ := exists_newline hlines hspread
  exact ⟨x, i, hx, by omega, by omega, hnewline⟩

/-- A chain is broken because of a newline in it. -/
theorem spread_newline (hc : Below top c) (hcall : isCall c = true)
    (h : ChainBreaks.Spread s c) :
    ∃ i, c.node.start ≤ i ∧ i + 1 < c.node.stop ∧ s.data[i]? = some 10 := by
  obtain ⟨link, hlink, hroot⟩ := ChainBreaks.exists_link_root h.receiver
  have horderly := htop.orderly.below hc
  have hsolid :=
    (htop.calls link (hc.trans hlink.descends) (hlink.isCall hcall)).part_nonempty hroot
  have hinside := horderly.inside (ChainBreaks.below_root c)
  have hend := sendEnd_le_stop horderly
  have hspread := h.spread
  rw [lastLine_eq s hsolid, sendLastLine_eq] at hspread
  obtain ⟨i, hlow, hhigh, hnewline⟩ := exists_newline hlines hspread
  rw [sendLast] at hlow hhigh
  exact ⟨i, by omega, by omega, hnewline⟩

/-- A chain whose last call is wrapped spans several lines. -/
theorem spread_of_due (hc : Below top c) (hcall : isCall c = true)
    (hreceiver : receiver? c = some u)
    (houter : ChainBreaks.partOfLargerChain c = false)
    (hdue : WrapArguments.Due s allowed c first last list) : ChainBreaks.Spread s c := by
  obtain ⟨x, i, hx, hlow, hhigh, hnewline⟩ := due_newline htop hlines hc hcall hdue
  obtain ⟨link, hlink, hroot⟩ := ChainBreaks.exists_link_root (c := c) (by simp [hreceiver])
  have horderly := htop.orderly.below hc
  have hsolid :=
    (htop.calls link (hc.trans hlink.descends) (hlink.isCall hcall)).part_nonempty hroot
  have hbefore := receiver_before_head? htop hc hcall hreceiver hx
  have habove := (horderly.below (.of_mem_children (role?_mem hreceiver))).inside
    (ChainBreaks.receiver_above_root hreceiver)
  have hend := stop_le_sendEnd (argumentList?_mem hdue.isList) (isSent_argumentList hdue.isList)
  refine ⟨by simp [hreceiver], houter, ?_⟩
  rw [lastLine_eq s hsolid, sendLastLine_eq, hlines]
  have hlast : sendEnd c - 1 ≤ sendLast c := Nat.le_max_right _ _
  exact Nat.ne_of_lt
    ((LineIndex.lineOf_lt_iff (by omega)).2 ⟨i, by omega, by omega, hnewline⟩)

/-! ## Breaks inside a call -/

omit hlines in
/-- A break strictly inside a call comes from a call below it, or from a chain that starts below it
or leads through it. -/
theorem BreakAt.inside (hb : BreakAt s operators allowed top b) (hc : Below top c)
    (hcall : isCall c = true) (hstart : c.node.start < b) (hstop : b < c.node.stop) :
    (∃ d first last list, Below c d ∧ isCall d = true ∧
        WrapArguments.Due s allowed d first last list ∧ b = first.node.start) ∨
      ∃ e link op, Below top e ∧ isCall e = true ∧ ChainBreaks.Spread s e ∧
        ChainBreaks.Link e link ∧ operator? link = some op ∧ b = op.node.start ∧ Below c link ∧
        ((∃ u ∈ c.children, Below u e) ∨ ChainBreaks.Link e c ∧ ChainBreaks.Link c link) := by
  cases hb with
  | @wrap d first last list hd hcallD hdue =>
      have hlist := argumentList?_mem hdue.isList
      have hfirst := arguments_mem hdue.isList (List.mem_of_head? hdue.isFirst)
      have hbelow := below_of_edge htop.orderly hc (.step hd hlist) hfirst (.inl ⟨hstart, hstop⟩)
      refine .inl ⟨d, first, last, list, ?_, hcallD, hdue, rfl⟩
      cases hbelow with
      | refl => simp [not_isCall_argumentList hdue.isList] at hcall
      | step hbelow hmem => exact parent_unique hmem hlist ▸ hbelow
  | @chain e link op he hcallE hspread hflagged hop =>
      have hlink := ChainBreaks.mem_links_iff.1 (List.mem_filter.1 hflagged).1
      have hbelow := below_of_edge htop.orderly hc (he.trans hlink.descends) (role?_mem hop)
        (.inl ⟨hstart, hstop⟩)
      refine .inr ⟨e, link, op, he, hcallE, hspread, hlink, hop, rfl, hbelow, ?_⟩
      rcases hbelow.comparable hlink.descends with hce | hec
      · rcases hce.eq_or_child with rfl | hchild
        · exact .inr (hlink.between .refl hbelow)
        · exact .inl hchild
      · exact .inr (hlink.between hec hbelow)

omit hlines in
/-- The operator of a link lies inside the chain. -/
theorem link_inside (he : Below top e) (hcall : isCall e = true) (hlink : ChainBreaks.Link e link)
    (hop : operator? link = some op) :
    e.node.start ≤ op.node.start ∧ op.node.start < op.node.stop ∧ op.node.stop ≤ e.node.stop := by
  have hsolid := (htop.calls link (he.trans hlink.descends) (hlink.isCall hcall)).part_nonempty hop
  have hinside := (htop.orderly.below he).inside (.step hlink.descends (role?_mem hop))
  omega

end

section

variable (htop : Solid s allowed top) (hlines : s.lines = LineIndex.ofBytes s.data)

include htop hlines

omit hlines in
/-- The first argument of a call starts before the end of its list. -/
theorem due_reaching (hd : Below top d) (hcall : isCall d = true)
    (hdue : WrapArguments.Due s allowed d first last list) :
    first.node.start < list.node.stop ∧ d.node.start ≤ first.node.start ∧
      list.node.stop ≤ d.node.stop := by
  have hlist := argumentList?_mem hdue.isList
  have horderly := htop.orderly.below hd
  have hfirst := (horderly.below (.of_mem_children hlist)).inside (.of_mem_children
    (arguments_mem hdue.isList (List.mem_of_head? hdue.isFirst)))
  have hinside := horderly.inside (.of_mem_children hlist)
  have hreaching := htop.reaching d first last list hd hcall hdue
  omega

/-- The arguments of a call that ends on its own line are not broken: a break among them would come
with a newline among them. -/
theorem newline_of_break_in_arguments (hc : Below top c) (hcall : isCall c = true)
    (hx : head? c = some x) (hlist : argumentList? c = some list)
    (hquiet : ∀ first last list, ¬WrapArguments.Due s allowed c first last list)
    (hb : BreakAt s operators allowed top b) (hlow : x.node.start < b)
    (hhigh : b < list.node.stop) :
    ∃ i, x.node.start ≤ i ∧ i + 1 < list.node.stop ∧ s.data[i]? = some 10 := by
  have horderly := htop.orderly.below hc
  have hxInside := horderly.inside (.of_mem_children (head?_mem hx))
  have hlistInside := horderly.inside (.of_mem_children (argumentList?_mem hlist))
  have hbetween := fun u hu => horderly.between (u := u) (head?_mem hx) (argumentList?_mem hlist) hu
  rcases hb.inside htop.toProper hc hcall (by omega) (by omega) with
    ⟨d, first, last, listD, hd, hcallD, hdue, rfl⟩ |
    ⟨e, link, op, he, hcallE, hspread, hlink, hop, rfl, hbelow, hrelation⟩
  · obtain ⟨y, i, hy, hstart, hstop, hnewline⟩ :=
      due_newline htop.toProper hlines (hc.trans hd) hcallD hdue
    rcases hd.eq_or_child with rfl | ⟨u, hu, hud⟩
    · exact absurd hdue (hquiet _ _ _)
    have hdueInside := due_reaching htop (hc.trans hd) hcallD hdue
    have huInside := (horderly.below (.of_mem_children hu)).inside hud
    have hyInside := (horderly.below hd).inside (.of_mem_children (head?_mem hy))
    have := hbetween u hu (by omega) (by omega)
    exact ⟨i, by omega, by omega, hnewline⟩
  · have hshape := htop.calls c hc hcall
    rcases hbelow.eq_or_child with rfl | ⟨u, hu, hulink⟩
    · exfalso
      rcases Option.or_eq_some_iff.1 hx with hm | ⟨-, hop'⟩
      · have := hshape.stop_le_start horderly hop hm
        have := hshape.part_nonempty hop
        omega
      · obtain rfl := Option.some.inj (hop.symm.trans hop')
        omega
    have hinside := (horderly.below (.of_mem_children hu)).inside
      (.step hulink (role?_mem hop))
    have hsolid := (link_inside htop.toProper he hcallE hlink hop).2.1
    rcases hrelation with ⟨v, hv, hve⟩ | ⟨-, hlinkC⟩
    · obtain rfl := child_unique hu hv hulink (hve.trans hlink.descends)
      obtain ⟨i, hstart, hstop, hnewline⟩ := spread_newline htop.toProper hlines he hcallE hspread
      have huInside := (horderly.below (.of_mem_children hu)).inside hve
      have := hbetween u hu (by omega) (by omega)
      exact ⟨i, by omega, by omega, hnewline⟩
    · exfalso
      cases hlinkC with
      | here => exact absurd hulink.size_le (Nat.not_le.2 (size_lt_of_mem_children hu))
      | next hreceiver _ _ hrest =>
          obtain rfl := child_unique hu (role?_mem hreceiver) hulink hrest.descends
          have := receiver_before_head? htop.toProper hc hcall hreceiver hx
          omega

/-- The chain that a call is the outer end of, if it stands on one line and its last call is not
wrapped. -/
structure Level (s : Source) (allowed : List Value) (c : Cursor) : Prop where
  isCall : isCall c = true
  receiver : (receiver? c).isSome
  outer : ChainBreaks.partOfLargerChain c = false
  level : ¬ChainBreaks.Spread s c
  quiet : ∀ first last list, ¬WrapArguments.Due s allowed c first last list

/-- A break in such a chain is in one of the parts of its last call, together with a newline that is
after the root if the break is. -/
theorem BreakAt.part (h : Level s allowed c) (hc : Below top c)
    (hb : BreakAt s operators allowed top b) (hstart : c.node.start < b) (hstop : b < c.node.stop) :
    ∃ u ∈ c.children, u.node.start ≤ b ∧ b < u.node.stop ∧ ∃ i, u.node.start ≤ i ∧
      i + 1 < u.node.stop ∧ s.data[i]? = some 10 ∧
      ((ChainBreaks.spine c).2.node.stop ≤ b → (ChainBreaks.spine c).2.node.stop ≤ i + 1) := by
  have horderly := htop.orderly.below hc
  have hroot := ChainBreaks.below_root c
  have hrootForward := (horderly.below hroot).forward
  rcases hb.inside htop.toProper hc h.isCall hstart hstop with
    ⟨d, first, last, list, hd, hcallD, hdue, rfl⟩ |
    ⟨e, link, op, he, hcallE, hspreadE, hlink, hop, rfl, -, hrelation⟩
  · obtain ⟨y, i, hy, hlow, hhigh, hnewline⟩ :=
      due_newline htop.toProper hlines (hc.trans hd) hcallD hdue
    have hreaching := due_reaching htop (hc.trans hd) hcallD hdue
    have hyInside := (horderly.below hd).inside (.of_mem_children (head?_mem hy))
    rcases hd.eq_or_child with rfl | ⟨u, hu, hud⟩
    · exact absurd hdue (h.quiet _ _ _)
    have huInside := (horderly.below (.of_mem_children hu)).inside hud
    refine ⟨u, hu, by omega, by omega, i, by omega, by omega, hnewline, fun hafter => ?_⟩
    -- A call that the chain leads through has its own line after its receiver, hence after the
    -- root.
    rcases nested_or_apart horderly hroot hd with hrd | hdr | hapart | hapart
    · have := (horderly.below hroot).inside hrd
      omega
    · rcases ChainBreaks.root_or_link hd hdr with rfl | ⟨-, r, hr, hrroot⟩
      · omega
      · have := receiver_before_head? htop.toProper (hc.trans hd) hcallD hr hy
        have := (horderly.below (hd.trans (.of_mem_children (role?_mem hr)))).inside hrroot
        omega
    · omega
    · omega
  · have hlinkInside := link_inside htop.toProper he hcallE hlink hop
    rcases hrelation with ⟨u, hu, hue⟩ | ⟨hlinkE, -⟩
    · obtain ⟨i, hlow, hhigh, hnewline⟩ := spread_newline htop.toProper hlines he hcallE hspreadE
      have huInside := (horderly.below (.of_mem_children hu)).inside hue
      have hce : Below c e := .of_child hu hue
      refine ⟨u, hu, by omega, by omega, i, by omega, by omega, hnewline, fun hafter => ?_⟩
      rcases nested_or_apart horderly hroot hce with hre | her | hapart | hapart
      · have := (horderly.below hroot).inside hre
        omega
      · rcases ChainBreaks.root_or_link hce her with rfl | ⟨hlinkC, -⟩
        · omega
        · rcases hlinkC.eq_or_part h.isCall with rfl | hpart
          · exact absurd hspreadE h.level
          · simp [hspreadE.outer] at hpart
      · omega
      · omega
    · exfalso
      rcases hlinkE.eq_or_part hcallE with rfl | hpart
      · exact h.level hspreadE
      · simp [h.outer] at hpart

omit htop hlines in
/-- A receiver that does not count for the end of its call is the root of the chain. -/
theorem root_of_unsent (hreceiver : receiver? c = some u) (hsent : isSent u.node = false) :
    (ChainBreaks.spine c).2 = u := by
  have hkind : triviaKinds.contains u.node.kind = true := by
    simpa [isSent, role?_field hreceiver] using hsent
  have hcall : isCall u = false := by
    rw [isCall, beq_eq_false_iff_ne]
    rintro hcall
    simp [hcall, triviaKinds] at hkind
  rw [ChainBreaks.spine_of_closed hreceiver (by simp [hcall])]

/-- A chain on one line is not broken: a break in it would come with a newline in it. -/
theorem newline_of_break_in_chain (h : Level s allowed c) (hc : Below top c)
    (hb : BreakAt s operators allowed top b)
    (hlow : min ((ChainBreaks.spine c).2.node.stop - 1) (sendLast c) < b)
    (hhigh : b ≤ max ((ChainBreaks.spine c).2.node.stop - 1) (sendLast c)) :
    ∃ i, min ((ChainBreaks.spine c).2.node.stop - 1) (sendLast c) ≤ i ∧
      i < max ((ChainBreaks.spine c).2.node.stop - 1) (sendLast c) ∧ s.data[i]? = some 10 := by
  obtain ⟨r, hr⟩ := Option.isSome_iff_exists.1 h.receiver
  have horderly := htop.orderly.below hc
  have hend := sendEnd_le_stop horderly
  have hrInside := horderly.inside (.of_mem_children (role?_mem hr))
  have hsolid := (htop.calls c hc h.isCall).part_nonempty hr
  have habove := ChainBreaks.receiver_above_root hr
  have hroot := (horderly.below (.of_mem_children (role?_mem hr))).inside habove
  obtain ⟨link, hlink, hlast⟩ := ChainBreaks.exists_link_root h.receiver
  have hrootSolid :=
    (htop.calls link (hc.trans hlink.descends) (hlink.isCall h.isCall)).part_nonempty hlast
  rw [sendLast] at hlow hhigh ⊢
  obtain ⟨u, hu, huStart, huStop, i, hi, hi', hnewline, hafter⟩ :=
    hb.part htop hlines h hc (by omega) (by omega)
  rcases Nat.le_total ((ChainBreaks.spine c).2.node.stop - 1)
      (max c.node.start (sendEnd c - 1)) with
    hle | hle
  · have := stop_le_sendEnd_of_lt horderly hu (by omega)
    have := hafter (by omega)
    exact ⟨i, by omega, by omega, hnewline⟩
  · -- The receiver reaches beyond the end of the call, so it does not count there.
    have heq : (ChainBreaks.spine c).2 = r := by
      refine root_of_unsent hr (Bool.eq_false_iff.2 fun hsent => ?_)
      have := stop_le_sendEnd (role?_mem hr) hsent
      omega
    rw [heq] at hlow hhigh hle ⊢
    have hbeyond : sendEnd c ≤ u.node.start := by
      refine Nat.le_of_not_lt fun hlt => ?_
      have := stop_le_sendEnd_of_lt horderly hu hlt
      omega
    have huInside := horderly.inside (.of_mem_children hu)
    have hbetween := horderly.between hu (role?_mem hr) hu (by omega) (by omega)
    exact ⟨i, by omega, by omega, hnewline⟩

end

end RubyLint.Layout
