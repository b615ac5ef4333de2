import RubyLint.Proofs.Edit.Correction
import RubyLint.Proofs.Rules.ChainBreaks
import RubyLint.Proofs.Rules.WrapArguments
import RubyLint.Proofs.Text.LineIndex

/-!
# Edits of the layout rules

The corrections of the two layout rules are insertions at the edges of receivers, operators, methods
and arguments, and replacements of the gap between a method and its first argument.  No edge of such
a node lies strictly inside a gap, so the corrections of all calls of a tree can be made at once.
-/

namespace RubyLint.Layout

open Cursor Ruby Edit

variable {top c x first last list m : Cursor} {a b e : Edit}

/-- The edits that the layout rules make in a tree. -/
inductive LayoutEdit (top : Cursor) : Edit → Prop where
  /-- An insertion at an edge of a node. -/
  | edge {x : Cursor} {p : Nat} (text : String) : Anchor top x →
      p = x.node.start ∨ p = x.node.stop → LayoutEdit top ⟨p, p, text⟩
  /-- An opening parenthesis in place of the gap before the arguments of a call. -/
  | gap {c m list first : Cursor} : Below top c → isCall c = true → Gap c m list first →
      LayoutEdit top ⟨m.node.stop, first.node.start, "("⟩

namespace LayoutEdit

/-- An edit starts and ends at edges of nodes. -/
theorem edges (h : LayoutEdit top e) :
    (∃ x, Anchor top x ∧ (e.start = x.node.start ∨ e.start = x.node.stop)) ∧
      ∃ x, Anchor top x ∧ (e.stop = x.node.start ∨ e.stop = x.node.stop) := by
  cases h with
  | edge text hx hp =>
      refine ⟨⟨_, hx, ?_⟩, ⟨_, hx, ?_⟩⟩ <;> simp only <;> omega
  | gap hc hcall hgap =>
      exact ⟨⟨_, .part hc hcall (by decide) hgap.method, .inr rfl⟩,
        ⟨_, .argument hc hcall (List.mem_of_head? hgap.first), .inl rfl⟩⟩

/-- Where nodes begin and end between characters, so do the edits. -/
theorem between (h : LayoutEdit top e) {text : String} (hbetween : ∀ x, Below top x →
    Utf8.Between text x.node.start ∧ Utf8.Between text x.node.stop) :
    Utf8.Between text e.start.toNat ∧ Utf8.Between text e.stop.toNat := by
  obtain ⟨⟨x, hx, hstart⟩, ⟨y, hy, hstop⟩⟩ := h.edges
  obtain ⟨hstartX, hstopX⟩ := hbetween x hx.below
  obtain ⟨hstartY, hstopY⟩ := hbetween y hy.below
  constructor
  · rcases hstart with hstart | hstart
    · rwa [hstart]
    · rwa [hstart]
  · rcases hstop with hstop | hstop
    · rwa [hstop]
    · rwa [hstop]

theorem forward (h : LayoutEdit top e) (htop : Shaped top) : e.start ≤ e.stop := by
  cases h with
  | edge => exact Int.le_refl _
  | gap hc hcall hgap =>
      have horderly := htop.orderly.below hc
      have hshape := htop.calls _ hc hcall
      have hlist := argumentList?_role hgap.list
      have hbefore := hshape.stop_le_start horderly hgap.method hlist
      have hinside := (horderly.below (.of_mem_children (role?_mem hlist))).inside
        (.of_mem_children hgap.first_mem)
      simp only
      omega

/-- The edits lie within a text that holds the tree. -/
theorem not_misplaced (h : LayoutEdit top e) (htop : Shaped top) {size : Nat}
    (hsize : top.node.stop ≤ size) : ¬e.Misplaced size := by
  obtain ⟨⟨x, hx, hstart⟩, ⟨y, hy, hstop⟩⟩ := h.edges
  have hforward := h.forward htop
  have hinside := (htop.orderly.inside hy.below).2
  have hforwardY := (htop.orderly.below hy.below).forward
  rw [not_misplaced_iff]
  omega

/-- An edge of an edit does not lie strictly inside a gap. -/
theorem edge_outside (h : LayoutEdit top e) (htop : Shaped top) (hc : Below top c)
    (hcall : isCall c = true) (hgap : Gap c m list first) :
    (e.start ≤ m.node.stop ∨ first.node.start ≤ e.start) ∧
      (e.stop ≤ m.node.stop ∨ first.node.start ≤ e.stop) := by
  obtain ⟨⟨x, hx, hstart⟩, ⟨y, hy, hstop⟩⟩ := h.edges
  have houtsideX := hx.edges_outside htop hc hcall hgap
  have houtsideY := hy.edges_outside htop hc hcall hgap
  omega

/-- No two of the edits overlap. -/
theorem not_overlap (ha : LayoutEdit top a) (hb : LayoutEdit top b) (htop : Shaped top) :
    ¬Overlap a b := by
  rintro ⟨hne, ⟨hreplaceA, hreplaceB, hab, hba⟩ | ⟨-, hstart, hstop⟩ | ⟨-, hstart, hstop⟩⟩
  · cases ha with
    | edge => simp [isInsertion] at hreplaceA
    | gap hcA hcallA hgapA =>
        have houtsideB := hb.edge_outside htop hcA hcallA hgapA
        cases hb with
        | edge => simp [isInsertion] at hreplaceB
        | gap hcB hcallB hgapB =>
            have houtsideA :=
              (LayoutEdit.gap hcA hcallA hgapA).edge_outside htop hcB hcallB hgapB
            rw [isInsertion_eq_false_iff] at hreplaceA hreplaceB
            simp only at hab hba houtsideA houtsideB hreplaceA hreplaceB
            refine hne (Edit.mk.injEq .. ▸ ⟨?_, ?_, rfl⟩) <;> omega
  · cases hb with
    | edge =>
        simp only at hstart hstop
        omega
    | gap hc hcall hgap =>
        have houtside := ha.edge_outside htop hc hcall hgap
        simp only at hstart hstop houtside
        omega
  · cases ha with
    | edge =>
        simp only at hstart hstop
        omega
    | gap hc hcall hgap =>
        have houtside := hb.edge_outside htop hc hcall hgap
        simp only at hstart hstop houtside
        omega

end LayoutEdit

/-- The edits that wrap the arguments of a call. -/
theorem wrap_layout {blanks : String} (hc : Below top c) (hcall : isCall c = true)
    (hlist : argumentList? c = some list) (hisFirst : (arguments c).head? = some first)
    (hisLast : (arguments c).getLast? = some last) :
    ∀ e ∈ WrapArguments.wrap c first last (isParenthesized c) blanks, LayoutEdit top e := by
  have hfirst : Anchor top first := .argument hc hcall (List.mem_of_head? hisFirst)
  have hlast : Anchor top last := .argument hc hcall (List.mem_of_getLast? hisLast)
  intro e he
  rcases WrapArguments.wrap_cases he with rfl | ⟨hbare, ⟨m, hm, rfl⟩ | rfl | rfl⟩
  · exact .edge _ hfirst (.inl rfl)
  · exact .gap hc hcall ⟨hm, hlist, hisFirst, hbare⟩
  · exact .edge _ hfirst (.inl rfl)
  · exact .edge _ hlast (.inr rfl)

theorem wrap_edits {s : Source} {allowed : List Value} {blanks : String} (hc : Below top c)
    (hcall : isCall c = true) (hdue : WrapArguments.Due s allowed c first last list) :
    ∀ e ∈ WrapArguments.wrap c first last (isParenthesized c) blanks, LayoutEdit top e :=
  wrap_layout hc hcall hdue.isList hdue.isFirst hdue.isLast

/-! ## Indentations of lines -/

theorem length_slice_le {α : Type} (xs : List α) (start stop : Int) :
    (Indexing.slice xs start stop).length ≤ xs.length := by
  rw [Indexing.slice, List.length_take, List.length_drop]
  omega

/-- A line is not indented further than the text is long. -/
theorem lineIndentation_le (s : Source) (line : Int) :
    (s.lineIndentation? line).getD 0 ≤ s.data.length := by
  rw [Source.lineIndentation?, Source.lineText?]
  cases s.lines.lineStart? line with
  | none => exact Nat.zero_le _
  | some start =>
      cases s.lines.lineEnd? line with
      | none => exact Nat.zero_le _
      | some stop =>
          simp only [Option.bind_eq_bind, Option.bind_some, Option.map_some, Option.getD_some,
            Option.pure_def]
          calc ((s.slice start stop).toList.takeWhile fun c => c == ' ' || c == '\t').length
              ≤ (s.slice start stop).toList.length := (List.takeWhile_sublist _).length_le
            _ ≤ (Indexing.slice s.data start stop).length := Utf8.length_decodeLossy_le _
            _ ≤ s.data.length := length_slice_le _ _ _

/-! ## Indentations of moved arguments -/

section

open WrapArguments

variable {s : Source} {width : Nat} {moved : List Move} {count : Nat} {w : Int} {n : Node}

/-- A move after which an argument stands at most `count` indentations away from where its offset
would put it. -/
def Landed (s : Source) (width count : Nat) (m : Move) : Prop :=
  m.line = s.lines.lineOf m.start ∧ m.start ≤ s.data.length ∧
    -((count * width : Nat) : Int) ≤ m.shift + s.lines.columnOf m.start ∧
      m.shift + s.lines.columnOf m.start ≤ m.start + (count * width : Nat)

theorem Landed.mono {m : Move} {more : Nat} (h : Landed s width count m) (hle : count ≤ more) :
    Landed s width more m := by
  obtain ⟨hline, hstart, hlow, hhigh⟩ := h
  have := Nat.mul_le_mul_right width hle
  exact ⟨hline, hstart, by omega, by omega⟩

theorem columnAfter_bounds (hlines : s.lines = LineIndex.ofBytes s.data)
    (hmoved : ∀ m ∈ moved, Landed s width count m) (hn : n.start ≤ s.data.length) :
    -((count * width : Nat) : Int) ≤ columnAfter s moved n ∧
      columnAfter s moved n ≤ n.start + (count * width : Nat) := by
  rw [columnAfter]
  have hcolumn := LineIndex.columnOf_le s.lines n.start
  split
  · rw [Source.column]
    omega
  next m hm =>
    obtain ⟨hline, hstart, hlow, hhigh⟩ := hmoved m (List.mem_of_find?_eq_some hm)
    have htest := List.find?_some hm
    simp only [Bool.and_eq_true, beq_iff_eq, decide_eq_true_eq, Source.firstLine] at htest
    -- On the line of the move columns differ as offsets do, so the bound carries over.
    have hsame := LineIndex.columnOf_add hn hstart (by rw [← hlines, htest.1, hline])
    rw [← hlines] at hsame
    rw [Source.column]
    omega

theorem landing_landed (hlines : s.lines = LineIndex.ofBytes s.data)
    (hmoved : ∀ m ∈ moved, Landed s width count m) (hc : c.node.start ≤ first.node.start)
    (hfirst : first.node.start ≤ s.data.length) (hw : w.natAbs ≤ width) :
    Landed s width (count + 1) (landing s first (columnAfter s moved c.node + w)) := by
  obtain ⟨hlow, hhigh⟩ := columnAfter_bounds hlines hmoved (n := c.node) (by omega)
  have hsucc : (count + 1) * width = count * width + width := Nat.succ_mul count width
  refine ⟨rfl, hfirst, ?_, ?_⟩ <;> simp only [landing, Source.column] <;> omega

end

end RubyLint.Layout
