import Mathlib.Tactic.WLOG
import RubyLint.Proofs.Rules.Breaks

/-!
# Lines of a corrected text

The edits that the layout rules ask for in a document, and the lines on which its offsets land once
these are applied.  Calls and chains that stand on one line stay on one line, and parts of a call
that stand on different lines stay on different lines.
-/

namespace RubyLint.Layout

open Cursor Ruby Edit

variable {s : Source} {operators allowed : List Value} {edits : List Edit} {edit : Edit}
variable {top c d first last link list m op r x : Cursor} {b i p q : Nat}

/-- The edits that the layout rules ask for in a document. -/
inductive Requested (s : Source) (operators allowed : List Value) (top : Cursor) : Edit → Prop where
  | wrap {c first last list : Cursor} {e : Edit} (blanks : String) : Below top c → isCall c = true →
      WrapArguments.Due s allowed c first last list →
      e ∈ WrapArguments.wrap c first last (isParenthesized c) blanks →
      Requested s operators allowed top e
  | chain {c link op : Cursor} (blanks : String) : Below top c → isCall c = true →
      ChainBreaks.Spread s c → link ∈ ChainBreaks.flagged s operators c →
      operator? link = some op →
      Requested s operators allowed top ⟨op.node.start, op.node.start, "\n" ++ blanks⟩

/-- A list of all the edits that the layout rules ask for, and of no others. -/
structure Corrects (s : Source) (operators allowed : List Value) (top : Cursor)
    (edits : List Edit) : Prop where
  sound : ∀ e ∈ edits, Requested s operators allowed top e
  wraps : ∀ c first last list, Below top c → isCall c = true →
    WrapArguments.Due s allowed c first last list →
      ∃ blanks, ∀ e ∈ WrapArguments.wrap c first last (isParenthesized c) blanks, e ∈ edits
  breaks : ∀ c link, Below top c → isCall c = true → ChainBreaks.Spread s c →
    link ∈ ChainBreaks.flagged s operators c → ∃ op blanks, operator? link = some op ∧
      (⟨op.node.start, op.node.start, "\n" ++ blanks⟩ : Edit) ∈ edits

theorem mem_encode_break (blanks : String) : (10 : UInt8) ∈ Utf8.encode ("\n" ++ blanks) := by
  rw [Utf8.encode, String.toList_append, Utf8.encodeChars, List.flatMap_append]
  exact List.mem_append_left _ (by decide)

theorem Requested.layout (h : Requested s operators allowed top edit) : LayoutEdit top edit := by
  cases h with
  | wrap blanks hc hcall hdue he => exact wrap_edits hc hcall hdue _ he
  | chain blanks hc hcall hspread hlink hop =>
      have hchain := ChainBreaks.mem_links_iff.1 (List.mem_filter.1 hlink).1
      exact .edge _ (.part (hc.trans hchain.descends) (hchain.isCall hcall) (by decide) hop)
        (.inl rfl)

/-- A replacement puts an opening parenthesis in place of a gap. -/
theorem Requested.replacement (h : Requested s operators allowed top edit)
    (hreplace : edit.isInsertion = false) :
    ∃ c m list first last, Below top c ∧ isCall c = true ∧
      WrapArguments.Due s allowed c first last list ∧ Gap c m list first ∧
      edit = ⟨m.node.stop, first.node.start, "("⟩ := by
  cases h with
  | @wrap c first last list _ blanks hc hcall hdue he =>
      rcases WrapArguments.wrap_cases he with rfl | ⟨hbare, ⟨m, hm, rfl⟩ | rfl | rfl⟩
      · simp [isInsertion] at hreplace
      · exact ⟨c, m, list, first, last, hc, hcall, hdue, ⟨hm, hdue.isList, hdue.isFirst, hbare⟩,
          rfl⟩
      · simp [isInsertion] at hreplace
      · simp [isInsertion] at hreplace
  | chain => simp [isInsertion] at hreplace

/-- An edit that brings a newline breaks a line. -/
theorem Requested.break (h : Requested s operators allowed top edit)
    (hnewline : (10 : UInt8) ∈ Utf8.encode edit.replacement) :
    ∃ b, edit.start = (b : Nat) ∧ BreakAt s operators allowed top b := by
  have hopening : (10 : UInt8) ∉ Utf8.encode "(" := by decide
  have hclosing : (10 : UInt8) ∉ Utf8.encode ")" := by decide
  cases h with
  | wrap blanks hc hcall hdue he =>
      rcases WrapArguments.wrap_cases he with rfl | ⟨-, ⟨m, -, rfl⟩ | rfl | rfl⟩
      · exact ⟨_, rfl, .wrap hc hcall hdue⟩
      · exact absurd hnewline hopening
      · exact absurd hnewline hopening
      · exact absurd hnewline hclosing
  | chain blanks hc hcall hspread hlink hop => exact ⟨_, rfl, .chain hc hcall hspread hlink hop⟩

namespace Corrects

variable (h : Corrects s operators allowed top edits)

include h

/-- Lines are broken where the corrections say. -/
theorem breaksAt_pos_iff : 0 < breaksAt edits b ↔ BreakAt s operators allowed top b := by
  rw [breaksAt, List.count_pos_iff, insertedAt, List.mem_flatMap]
  constructor
  · rintro ⟨e, he, hnewline⟩
    obtain ⟨he, hplace⟩ := List.mem_filter.1 he
    obtain ⟨p, hp, hbreak⟩ := (h.sound e he).break hnewline
    simp only [Bool.and_eq_true, beq_iff_eq] at hplace
    obtain rfl : p = b := by omega
    exact hbreak
  · intro hbreak
    cases hbreak with
    | @wrap c first last list hc hcall hdue =>
        obtain ⟨blanks, hedits⟩ := h.wraps c first last list hc hcall hdue
        refine ⟨⟨first.node.start, first.node.start, "\n" ++ blanks⟩, ?_, mem_encode_break blanks⟩
        refine List.mem_filter.2 ⟨hedits _ ?_, by simp [isInsertion]⟩
        rw [WrapArguments.wrap]
        split <;> simp
    | @chain c link op hc hcall hspread hlink hop =>
        obtain ⟨op', blanks, hop', hmem⟩ := h.breaks c link hc hcall hspread hlink
        obtain rfl := Option.some.inj (hop.symm.trans hop')
        exact ⟨_, List.mem_filter.2 ⟨hmem, by simp [isInsertion]⟩, mem_encode_break blanks⟩

/-- An offset is covered by the gap of a call that is wrapped; its start bears the parenthesis. -/
theorem exists_gap (hcovered : isCovered edits i = true) :
    ∃ c m list first last, Below top c ∧ isCall c = true ∧
      WrapArguments.Due s allowed c first last list ∧ Gap c m list first ∧ m.node.stop ≤ i ∧
      i < first.node.start ∧ (⟨m.node.stop, first.node.start, "("⟩ : Edit) ∈ edits := by
  obtain ⟨e, he, hcovers⟩ := List.any_eq_true.1 hcovered
  obtain ⟨hreplace, hstart, hstop⟩ := covers_iff.1 hcovers
  obtain ⟨c, m, list, first, last, hc, hcall, hdue, hgap, rfl⟩ :=
    (h.sound e he).replacement hreplace
  simp only at hstart hstop
  exact ⟨c, m, list, first, last, hc, hcall, hdue, hgap, by omega, by omega, he⟩

theorem replacedAt_eq (p : Nat) :
    (replacedAt edits p = [] ∧ ∀ e ∈ edits, e.isInsertion = false → e.start ≠ p) ∨
      replacedAt edits p = Utf8.encode "(" ∧ ∃ e ∈ edits, e.isInsertion = false ∧ e.start = p := by
  rcases replacedAt_cases edits p with hnone | ⟨e, he, hreplace, hstart, htext⟩
  · exact .inl hnone
  · obtain ⟨_, _, _, _, _, -, -, -, -, hgap⟩ := (h.sound e he).replacement hreplace
    exact .inr ⟨by rw [htext, hgap], e, he, hreplace, hstart⟩

theorem replacedAt_ne_nil (he : edit ∈ edits) (hreplace : edit.isInsertion = false)
    (hstart : edit.start = p) : replacedAt edits p ≠ [] := by
  rcases h.replacedAt_eq p with ⟨-, hnone⟩ | ⟨hopening, -⟩
  · exact absurd hstart (hnone _ he hreplace)
  · rw [hopening]
    decide

/-- An offset that is not strictly inside a gap is visible. -/
theorem visible (hp : ∀ c m list first last, Below top c → isCall c = true →
    WrapArguments.Due s allowed c first last list → Gap c m list first →
      p ≤ m.node.stop ∨ first.node.start ≤ p) : isVisible edits p := by
  cases hcovered : isCovered edits p with
  | false => exact .inl hcovered
  | true =>
      obtain ⟨c, m, list, first, last, hc, hcall, hdue, hgap, hlow, hhigh, hmem⟩ :=
        h.exists_gap hcovered
      have := hp c m list first last hc hcall hdue hgap
      refine .inr (h.replacedAt_ne_nil hmem ?_ (by simp only; omega))
      rw [isInsertion_eq_false_iff]
      simp only
      omega

section

variable (htop : Proper top)

include htop

/-- Replacements bring no newlines, and nothing is inserted inside them. -/
theorem smooth : Smooth edits := by
  refine ⟨fun p => ?_, fun i hcovered => ?_⟩
  · rcases h.replacedAt_eq p with ⟨hnone, -⟩ | ⟨hopening, -⟩
    · rw [hnone]
      rfl
    · rw [hopening]
      decide
  · obtain ⟨c, m, list, first, last, hc, hcall, -, hgap, hlow, hhigh, hmem⟩ := h.exists_gap hcovered
    have hreplace : (⟨m.node.stop, first.node.start, "("⟩ : Edit).isInsertion = false := by
      rw [isInsertion_eq_false_iff]
      simp only
      omega
    rcases Nat.eq_or_lt_of_le hlow with heq | hlt
    · exact .inl (h.replacedAt_ne_nil hmem hreplace (by simp only; omega))
    · refine .inr ⟨?_, i - 1, by omega, ?_⟩
      · refine insertedAt_eq_nil fun e he _ => ?_
        have houtside := (h.sound e he).layout.edge_outside htop.toShaped hc hcall hgap
        omega
      · exact List.any_eq_true.2 ⟨_, hmem, covers_iff.2 ⟨hreplace, by simp only; omega,
          by simp only; omega⟩⟩

/-! ## Lines -/

/-- A break separates what stands before it from what stands after it. -/
theorem linesBefore_lt_break (hb : BreakAt s operators allowed top b) (hlt : p < b) :
    linesBefore s.data edits p < linesBefore s.data edits b :=
  ((h.smooth htop).linesBefore_lt_iff (Nat.le_of_lt hlt)).2
    (.inr ⟨b, hlt, Nat.le_refl b, h.breaksAt_pos_iff.2 hb⟩)

variable (hlines : s.lines = LineIndex.ofBytes s.data)

include hlines

/-- Two offsets of one line stay on one line if no break between them comes without a newline. -/
theorem linesBefore_eq (hline : s.lines.lineOf p = s.lines.lineOf q)
    (hbreaks : ∀ b, BreakAt s operators allowed top b → min p q < b → b ≤ max p q →
      ∃ i, min p q ≤ i ∧ i < max p q ∧ s.data[i]? = some 10) :
    linesBefore s.data edits p = linesBefore s.data edits q := by
  wlog hle : p ≤ q generalizing p q
  · refine (this hline.symm ?_ (by omega)).symm
    rw [Nat.min_comm, Nat.max_comm]
    exact hbreaks
  have hsmooth := h.smooth htop
  have hmono : linesBefore s.data edits p ≤ linesBefore s.data edits q :=
    linesBefore_mono hle
  rw [Nat.min_eq_left hle, Nat.max_eq_right hle] at hbreaks
  have hlevel : ¬∃ i, p ≤ i ∧ i < q ∧ s.data[i]? = some 10 := by
    rw [← LineIndex.lineOf_lt_iff hle, ← hlines, hline]
    exact Nat.lt_irrefl _
  refine Nat.le_antisymm hmono (Nat.le_of_not_lt fun hlt => ?_)
  rcases (hsmooth.linesBefore_lt_iff hle).1 hlt with
    ⟨i, hi, hiq, hnewline, -⟩ | ⟨b, hb, hbq, hbreak⟩
  · exact hlevel ⟨i, hi, hiq, hnewline⟩
  · exact hlevel (hbreaks b (h.breaksAt_pos_iff.1 hbreak) hb hbq)

/-- An offset on a later line stays on a later line if no gap ends beyond it. -/
theorem linesBefore_lt (hline : s.lines.lineOf p < s.lines.lineOf q)
    (hgaps : ∀ c m list first last, Below top c → isCall c = true →
      WrapArguments.Due s allowed c first last list → Gap c m list first → m.node.stop < q →
        first.node.start ≤ q) :
    linesBefore s.data edits p < linesBefore s.data edits q := by
  have hle : p ≤ q := by
    refine Nat.le_of_not_lt fun hlt => ?_
    have := LineIndex.lineOf_mono s.lines (p := q) (q := p) (by omega)
    omega
  rw [hlines, LineIndex.lineOf_lt_iff hle] at hline
  obtain ⟨i, hi, hiq, hnewline⟩ := hline
  rw [(h.smooth htop).linesBefore_lt_iff hle]
  cases hcovered : isCovered edits i with
  | false => exact .inl ⟨i, hi, hiq, hnewline, hcovered⟩
  | true =>
      -- The newline disappears in a gap, at whose end the line is broken again.
      obtain ⟨c, m, list, first, last, hc, hcall, hdue, hgap, hlow, hhigh, -⟩ :=
        h.exists_gap hcovered
      have := hgaps c m list first last hc hcall hdue hgap (by omega)
      exact .inr ⟨first.node.start, by omega, this, h.breaksAt_pos_iff.2 (.wrap hc hcall hdue)⟩

/-- The start of an anchor does not move to the line of what stands before it. -/
theorem linesBefore_lt_anchor (hx : Anchor top x)
    (hline : s.lines.lineOf p < s.lines.lineOf x.node.start) :
    linesBefore s.data edits p < linesBefore s.data edits x.node.start := by
  refine h.linesBefore_lt htop hlines hline fun c m list first last hc hcall _ hgap hlt => ?_
  have := hx.edges_outside htop.toShaped hc hcall hgap
  omega

end

section

variable (htop : Solid s allowed top) (hlines : s.lines = LineIndex.ofBytes s.data)

include htop hlines

/-- The end of the arguments of a call does not move to the line of what stands before it. -/
theorem linesBefore_lt_list (hc : Below top c) (hcall : isCall c = true)
    (hlist : argumentList? c = some list) (hfirst : (arguments c).head? = some first)
    (hline : s.lines.lineOf p < s.lines.lineOf ((list.node.stop - 1 : Nat) : Int)) :
    linesBefore s.data edits p < linesBefore s.data edits (list.node.stop - 1) := by
  have hspan := (htop.calls c hc hcall).part_nonempty (argumentList?_role hlist)
  have hchildren := List.ne_nil_of_mem (node_mem_children
    (arguments_mem hlist (List.mem_of_head? hfirst)))
  refine h.linesBefore_lt htop.toProper hlines hline
    fun d m listD firstD last hd hcallD hdue hgap hlt => ?_
  have := hgap.stop_beyond (htop.calls d hd hcallD) htop.orderly hd
    (.step hc (argumentList?_mem hlist)) hchildren (due_reaching htop hd hcallD hdue).1 hspan
    (by omega)
  omega

/-- The arguments of a call that is not wrapped stay on its line. -/
theorem linesBefore_eq_list (hc : Below top c) (hcall : isCall c = true) (hx : head? c = some x)
    (hlist : argumentList? c = some list)
    (hquiet : ∀ first last list, ¬WrapArguments.Due s allowed c first last list)
    (hline : s.lastLine list.node = WrapArguments.callLine s c) :
    linesBefore s.data edits (list.node.stop - 1) = linesBefore s.data edits x.node.start := by
  have hbefore := head?_before_list htop.toProper hc hcall hx hlist
  rw [lastLine_eq s hbefore.2.2, callLine_eq hx] at hline
  refine h.linesBefore_eq htop.toProper hlines hline fun b hb hlow hhigh => ?_
  obtain ⟨i, hi, hi', hnewline⟩ :=
    newline_of_break_in_arguments htop hlines hc hcall hx hlist hquiet
    hb (by omega) (by omega)
  exact ⟨i, by omega, by omega, hnewline⟩

/-- A chain on one line stays on one line. -/
theorem linesBefore_eq_chain (hlevel : Level s allowed c) (hc : Below top c) :
    linesBefore s.data edits ((ChainBreaks.spine c).2.node.stop - 1) =
      linesBefore s.data edits (sendLast c) := by
  obtain ⟨link, hlink, hroot⟩ := ChainBreaks.exists_link_root hlevel.receiver
  have hspan :=
    (htop.calls link (hc.trans hlink.descends) (hlink.isCall hlevel.isCall)).part_nonempty hroot
  have hline : s.lastLine (ChainBreaks.spine c).2.node = sendLastLine s c := by
    by_contra hne
    exact hlevel.level ⟨hlevel.receiver, hlevel.outer, hne⟩
  rw [lastLine_eq s hspan, sendLastLine_eq] at hline
  exact h.linesBefore_eq htop.toProper hlines hline fun b hb hlow hhigh =>
    newline_of_break_in_chain htop hlines hlevel hc hb hlow hhigh

end

end Corrects

end RubyLint.Layout
