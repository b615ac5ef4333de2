import RubyLint.Proofs.Rules.Composition
import RubyLint.Proofs.Rules.Moves

/-!
# Where wrapped calls land

The first argument of a call that is wrapped starts a line, and what follows it there moves with it.
A call lands behind the last of the breaks before it on its line.  The rule foretells the column
from the latest of the moves that it made before, which is the same unless that move was made inside
the call that made the other one.
-/

namespace RubyLint.WrapArguments

open Cursor Ruby Edit Layout Dispatcher

variable {document : Document} {ctx : Context Memory} {s : Source} {moved : List Move} {n : Node}
variable {top c first last list : Cursor} {w : Int} {m : Move}
variable {visits before after : List Call} {k g : Call}

/-! ## Moves that take a call with them -/

/-- Whether a move takes a node with it. -/
def carries (s : Source) (m : Move) (n : Node) : Bool :=
  s.firstLine n == m.line && m.start ≤ n.start

theorem carries_iff : carries s m n = true ↔ s.firstLine n = m.line ∧ m.start ≤ n.start := by
  simp [carries]

/-- Whether of the moves that take a node with them none starts behind a given one. -/
def governs (s : Source) (moved : List Move) (n : Node) (m : Move) : Bool :=
  carries s m n && moved.all fun m' => !carries s m' n || m'.start ≤ m.start

theorem governs_iff : governs s moved n m = true ↔
    carries s m n = true ∧ ∀ m' ∈ moved, carries s m' n = true → m'.start ≤ m.start := by
  simp [governs, imp_iff_not_or]

/-- Of the moves that take a node with them one governs it. -/
theorem exists_governs (hm : m ∈ moved) (hcarries : carries s m n = true) :
    ∃ m' ∈ moved, governs s moved n m' = true := by
  have hne : moved.filter (carries s · n) ≠ [] :=
    List.ne_nil_of_mem (List.mem_filter.2 ⟨hm, hcarries⟩)
  obtain ⟨m', hm'⟩ := Option.ne_none_iff_exists'.1 (mt (List.argmax_eq_none (f := Move.start)).1
    hne)
  obtain ⟨hmem, hcarries'⟩ := List.mem_filter.1 (List.argmax_mem hm')
  exact ⟨m', hmem, governs_iff.2 ⟨hcarries', fun m'' hm'' hcarries'' =>
    List.le_of_mem_argmax (List.mem_filter.2 ⟨hm'', hcarries''⟩) hm'⟩⟩

/-- Where no move governs a node none takes it along. -/
theorem carries_eq_false (hnone : moved.find? (governs s moved n) = none) (hm : m ∈ moved) :
    carries s m n = false := by
  refine Bool.eq_false_iff.2 fun hcarries => ?_
  obtain ⟨m', hm', hgoverns⟩ := exists_governs hm hcarries
  exact List.find?_eq_none.1 hnone m' hm' hgoverns

/-- The column on which a node lands, marks apart: behind the first argument whose move governs it,
which starts its line with its indentation, or else the node's own. -/
def landingColumn (s : Source) (moved : List Move) (n : Node) : Int :=
  match moved.find? (governs s moved n) with
  | none => s.column n
  | some m => max 0 (m.shift + s.lines.columnOf m.start) + (n.start - m.start : Nat)

theorem columnAfter_eq_find (s : Source) (moved : List Move) (n : Node) :
    columnAfter s moved n = (moved.find? (carries s · n)).elim (s.column n : Int)
      fun m => s.column n + m.shift := by
  have hfind : (moved.find? fun m => s.firstLine n == m.line && m.start ≤ n.start) =
      moved.find? (carries s · n) := rfl
  rw [columnAfter, hfind]
  cases moved.find? (carries s · n) <;> rfl

theorem landing_column (s : Source) (first : Cursor) (column : Int) :
    (landing s first column).shift + s.lines.columnOf (landing s first column).start = column := by
  change column - (s.column first.node : Int) + s.lines.columnOf first.node.start = column
  rw [Source.column]
  omega

/-- A move found among those of some calls is that of the last call whose move passes the test. -/
theorem exists_found {test : Move → Bool} (hfound : (movesOf visits).find? test = some m) :
    ∃ before g after, visits = before ++ g :: after ∧ move? g = some m ∧ test m = true ∧
      ∀ m' ∈ movesOf after, test m' = false := by
  obtain ⟨htest, later, earlier, hreverse, hlater⟩ := List.find?_eq_some_iff_append.1 hfound
  rw [movesOf, List.reverse_eq_iff, List.reverse_append, List.reverse_cons, List.append_assoc,
    List.singleton_append] at hreverse
  obtain ⟨front, back, rfl, -, hmoves⟩ := List.filterMap_eq_append_iff.1 hreverse
  obtain ⟨idle, g, after, rfl, -, hmove, hafter⟩ := List.filterMap_eq_cons_iff.1 hmoves
  refine ⟨front ++ idle, g, after, by simp, hmove, htest, fun m' hm' => ?_⟩
  rw [movesOf, hafter, List.reverse_reverse] at hm'
  simpa using hlater m' hm'

/-- The move that governs a call is the one that the rule finds, and where it leads there is a
column. -/
structure Steady (s : Source) (before : List Call) (c : Cursor) : Prop where
  /-- From inside its call no other move takes the call with it. -/
  alone : ∀ g ∈ before, ∀ m ∈ move? g, governs s (movesOf before) c.node m = true →
    ∀ g' ∈ before, ∀ m' ∈ move? g', carries s m' c.node = true → Below g.place g'.place →
      g'.place = g.place
  /-- It does not lead to the left of the first column. -/
  upright : ∀ m ∈ movesOf before, governs s (movesOf before) c.node m = true →
    0 ≤ m.shift + s.lines.columnOf m.start

/-- The line on which a call lands: where it starts and on which column. -/
structure Lands (s : Source) (visits : List Call) (c : Cursor) (a column : Nat) : Prop where
  le : a ≤ c.node.start
  blank : ∀ i, a ≤ i → i < c.node.start → s.data[i]? ≠ some 10
  last : ∀ f, Breaks visits f → f ≤ c.node.start → f ≤ a
  lineStart : ∃ early late, LineStart s.data (editsOf visits) early late ")" a column

namespace Traversal

variable (h : Traversal s w top visits) (htop : Proper top)
variable (hsplit : visits = before ++ k :: after)
variable (hsupplied : Supplied top k.place first last list)

include h htop hsplit hsupplied

/-- A break on the line of a call and before it comes from a move that takes the call with it. -/
theorem exists_carries {f : Nat} (hf : Breaks visits f) (hle : f ≤ k.place.node.start)
    (hline : s.lines.lineOf f = s.firstLine k.place.node) :
    ∃ m ∈ movesOf before, m.start = f ∧ carries s m k.place.node = true := by
  obtain ⟨g, hg, m, hm, rfl, hmove⟩ := h.exists_move (List.Subset.refl _) hf
  refine ⟨m, mem_movesOf.2 ⟨g, ?_, hm⟩, rfl, carries_iff.2 ⟨hline.symm.trans hmove.symm, hle⟩⟩
  rw [hsplit] at hg
  refine (List.mem_append.1 hg).resolve_right fun hg => ?_
  exact Nat.not_lt.2 hle (h.start_lt_move htop hsplit hsupplied hg hm)

omit hsupplied in
/-- The move that governs a steady call is the latest one that takes it along. -/
theorem eq_of_steady (hsteady : Steady s before k.place) {m' : Move}
    (hfound : (movesOf before).find? (carries s · k.place.node) = some m)
    (hm' : m' ∈ movesOf before) (hgoverns : governs s (movesOf before) k.place.node m' = true) :
    m' = m := by
  obtain ⟨early, g, late, rfl, hmove, hcarries, hlate⟩ := exists_found hfound
  obtain ⟨hcarries', hgreatest⟩ := governs_iff.1 hgoverns
  obtain ⟨g', hg', hmove'⟩ := mem_movesOf.1 hm'
  rcases List.mem_append.1 hg' with hearly | hlater
  · -- An earlier call that governs would be above the one found, or end before its break.
    have hordered := h.ordered
    rw [hsplit, List.append_assoc, List.pairwise_append] at hordered
    rcases hordered.2.2 g' hearly g (by simp) with ⟨hbelow, hne⟩ | hapart
    · exact absurd (hsteady.alone g' hg' m' hmove' hgoverns g (by simp) m hmove hcarries
        hbelow).symm hne
    · obtain ⟨-, x', y', l', n', -, hsupplied', rfl⟩ := h.of_move (by simp [hsplit, hearly]) hmove'
      obtain ⟨-, x, y, l, n, -, hsupplied'', rfl⟩ := h.of_move (by simp [hsplit]) hmove
      have hspans' := hsupplied'.spans htop
      have hspans := hsupplied''.spans htop
      have hlast : x.node.start ≤ x'.node.start :=
        hgreatest _ (List.mem_of_find?_eq_some hfound) hcarries
      omega
  · rcases List.mem_cons.1 hlater with rfl | hlater
    · exact Option.some.inj (hmove'.symm.trans hmove)
    · have hquiet := hlate m' (mem_movesOf.2 ⟨g', hlater, hmove'⟩)
      exact Bool.noConfusion (hcarries'.symm.trans hquiet)

variable (hlines : s.lines = LineIndex.ofBytes s.data)

include hlines

/-- A call that no move takes with it lands on its own line. -/
theorem lands_still (hstop : top.node.stop ≤ s.data.length)
    (hnone : ∀ m ∈ movesOf before, carries s m k.place.node = false) :
    ∃ a, Lands s visits k.place a 0 ∧ a + s.column k.place.node = k.place.node.start := by
  have hend := (htop.orderly.inside hsupplied.below).2
  have hspans := hsupplied.spans htop
  have hp : k.place.node.start ≤ s.data.length := by omega
  obtain ⟨a, ha, hcolumn, hblank, hbegin⟩ := LineIndex.exists_line_start hp
  have hlast : ∀ f, Breaks visits f → f ≤ k.place.node.start → f < a := by
    intro f hf hle
    refine Nat.lt_of_not_le fun hafter => ?_
    have hsame : s.lines.lineOf f = s.firstLine k.place.node := by
      rw [Source.firstLine, hlines]
      refine Nat.le_antisymm (LineIndex.lineOf_mono _ (Int.ofNat_le.2 hle))
        (Nat.le_of_not_lt fun hlt => ?_)
      obtain ⟨i, hi, hic, hnewline⟩ := (LineIndex.lineOf_lt_iff hle).1 hlt
      exact hblank i (by omega) hic hnewline
    obtain ⟨m, hm, -, hcarries⟩ := h.exists_carries htop hsplit hsupplied hf hle hsame
    exact Bool.noConfusion (hcarries.symm.trans (hnone m hm))
  have hquiet : ∀ e ∈ editsOf visits, e.isInsertion = true → e.start = (a : Int) →
      e.replacement = ")" := by
    intro e he hinsertion hstart
    refine h.marked he hinsertion fun f hf heq => ?_
    have := hlast f hf (by omega)
    omega
  refine ⟨a, ⟨ha, hblank, fun f hf hle => Nat.le_of_lt (hlast f hf hle), [], editsOf visits, ?_⟩,
    ?_⟩
  · rcases hbegin with rfl | ⟨j, rfl, hnewline⟩
    · exact h.mark.lineStart_zero hquiet
    · have hkept := h.kept htop hsupplied (b := j)
        (fun f hf hle => Nat.le_of_lt_succ (hlast f hf hle)) (Nat.le_refl j) (by omega)
      exact h.mark.lineStart_succ hnewline hkept.1 hkept.2 hquiet
  · rw [Source.column, hlines]
    exact hcolumn

omit hlines in
/-- Between the first argument whose move governs a call and the call itself nothing breaks the
line. -/
theorem le_of_governs {m : Move} (hgoverns : governs s (movesOf before) k.place.node m = true)
    (hline : s.firstLine k.place.node = s.lines.lineOf m.start) {f : Nat} (hf : Breaks visits f)
    (hle : f ≤ k.place.node.start) : f ≤ m.start := by
  refine Nat.le_of_not_lt fun hlt => ?_
  have hlow : s.lines.lineOf m.start ≤ s.lines.lineOf f :=
    LineIndex.lineOf_mono _ (Int.ofNat_le.2 (Nat.le_of_lt hlt))
  have hhigh : s.lines.lineOf f ≤ s.firstLine k.place.node :=
    LineIndex.lineOf_mono _ (Int.ofNat_le.2 hle)
  obtain ⟨m', hm', rfl, hcarries⟩ := h.exists_carries htop hsplit hsupplied hf hle (by omega)
  exact Nat.not_le.2 hlt ((governs_iff.1 hgoverns).2 m' hm' hcarries)

/-- A call lands behind the first argument whose move governs it. -/
theorem lands_moved (hfound : (movesOf before).find? (governs s (movesOf before) k.place.node) =
    some m) :
    Lands s visits k.place m.start (m.shift + s.lines.columnOf m.start).toNat := by
  obtain ⟨early, g, late, rfl, hmove, hgoverns, hlate⟩ := exists_found hfound
  obtain ⟨hcarries, hgreatest⟩ := governs_iff.1 hgoverns
  have hsplitG : visits = early ++ g :: (late ++ k :: after) := by
    rw [hsplit]
    simp
  obtain ⟨_, first', last', list', n', hwrapped, -, rfl⟩ := h.of_move (by simp [hsplitG]) hmove
  obtain ⟨hline, hle⟩ : s.firstLine k.place.node = s.firstLine first'.node ∧
      first'.node.start ≤ k.place.node.start := carries_iff.1 hcarries
  refine ⟨hle, fun i hi hic => ?_, fun f hf hlef =>
    h.le_of_governs htop hsplit hsupplied hgoverns hline hf hlef, ?_⟩
  · rw [Source.firstLine, Source.firstLine, hlines] at hline
    exact LineIndex.blank_of_lineOf_eq hline.symm hi hic
  · rw [landing_column]
    -- What breaks there later than the call found would be made behind this call.
    refine h.lineStart_break _ hsplitG hwrapped fun f hf heq => ?_
    obtain ⟨g', hg', m', hm', rfl, hmove'⟩ := h.exists_move (by simp [hsplitG]) hf
    rcases List.mem_append.1 hg' with hg' | hg'
    · have hcarries' : carries s m' k.place.node = true :=
        carries_iff.2 ⟨by rw [hmove', heq]; exact hline, heq ▸ hle⟩
      have hgoverns' := governs_iff.2 ⟨hcarries', fun m'' hm'' hcarries'' =>
        heq ▸ hgreatest m'' hm'' hcarries''⟩
      exact Bool.noConfusion (hgoverns'.symm.trans (hlate m' (mem_movesOf.2 ⟨g', hg', hm'⟩)))
    · have := h.start_lt_move htop hsplit hsupplied hg' hm'
      omega

omit hsplit hlines in
/-- From the start of the line on which a call lands to the call only parentheses are put in. -/
theorem columnOf_lands (hstop : top.node.stop ≤ s.data.length) {a column : Nat}
    (hlands : Lands s visits k.place a column) :
    (LineIndex.ofBytes (positional s.data (editsOf visits))).columnOf
        (carryStart s.data (editsOf visits) k.place.node.start) =
      column + (k.place.node.start - a) +
        marksBefore s.data (editsOf visits) ")" k.place.node.start := by
  have hspans := hsupplied.spans htop
  have hend := (htop.orderly.inside hsupplied.below).2
  obtain ⟨early, late, hstart⟩ := hlands.lineStart
  have hstretch : Stretch s.data (editsOf visits) ")" a k.place.node.start :=
    { le := hlands.le
      blank := fun i hi hic => ⟨by omega, hlands.blank i hi hic⟩
      kept := fun i hi hic => h.kept htop hsupplied hlands.last hi (Nat.le_of_lt hic)
      marked := fun e he hinsertion hlow hhigh => h.marked he hinsertion fun f hf heq => by
        have := hlands.last f hf (by omega)
        omega }
  exact hstretch.columnOf_eq h.mark hstart (by omega) fun e he => h.forward he

/-- The column on which a call lands, closing parentheses on its line apart. -/
theorem columnOf_landing (hstop : top.node.stop ≤ s.data.length) :
    ((LineIndex.ofBytes (positional s.data (editsOf visits))).columnOf
        (carryStart s.data (editsOf visits) k.place.node.start) : Int) =
      landingColumn s (movesOf before) k.place.node +
        marksBefore s.data (editsOf visits) ")" k.place.node.start := by
  rw [landingColumn]
  split
  next hnone =>
    obtain ⟨a, hlands, hcolumn⟩ := h.lands_still htop hsplit hsupplied hlines hstop
      fun m hm => carries_eq_false hnone hm
    rw [h.columnOf_lands htop hsupplied hstop hlands]
    omega
  next m hfound =>
    have hlands := h.lands_moved htop hsplit hsupplied hlines hfound
    rw [h.columnOf_lands htop hsupplied hstop hlands]
    omega

/-- A steady call lands where the rule foretells it. -/
theorem columnAfter_eq (hstop : top.node.stop ≤ s.data.length)
    (hsteady : Steady s before k.place) :
    columnAfter s (movesOf before) k.place.node =
      landingColumn s (movesOf before) k.place.node := by
  rw [columnAfter_eq_find, landingColumn]
  cases hgoverned : (movesOf before).find? (governs s (movesOf before) k.place.node) with
  | none =>
      have hnone : (movesOf before).find? (carries s · k.place.node) = none :=
        List.find?_eq_none.2 fun m hm => Bool.eq_false_iff.1 (carries_eq_false hgoverned hm)
      rw [hnone]
      rfl
  | some m' =>
      have hm' := List.mem_of_find?_eq_some hgoverned
      have hgoverns := List.find?_some hgoverned
      obtain ⟨hcarries, -⟩ := governs_iff.1 hgoverns
      obtain ⟨m, hfound⟩ : ∃ m, (movesOf before).find? (carries s · k.place.node) = some m :=
        Option.isSome_iff_exists.1 (List.find?_isSome.2 ⟨m', hm', hcarries⟩)
      obtain rfl := h.eq_of_steady htop hsplit hsteady hfound hm' hgoverns
      have hupright := hsteady.upright m' hm' hgoverns
      obtain ⟨g, hg, hmove⟩ := mem_movesOf.1 hm'
      obtain ⟨-, x, y, l, n', -, -, rfl⟩ := h.of_move (by simp [hsplit, hg]) hmove
      obtain ⟨hline, hle⟩ : s.firstLine k.place.node = s.firstLine x.node ∧
          x.node.start ≤ k.place.node.start := carries_iff.1 hcarries
      have hspans := hsupplied.spans htop
      have hend := (htop.orderly.inside hsupplied.below).2
      rw [Source.firstLine, Source.firstLine, hlines] at hline
      have hcolumns := LineIndex.columnOf_add (by omega) (by omega) hline.symm
      rw [← hlines] at hcolumns
      rw [landing_column] at hupright
      rw [hfound]
      change s.column k.place.node + (n' - (s.column x.node : Int)) =
        max 0 ((landing s x n').shift + s.lines.columnOf (landing s x n').start) +
          (k.place.node.start - x.node.start : Nat)
      rw [landing_column, max_eq_right hupright, Source.column, Source.column]
      omega

end Traversal

/-! ## Runs -/

section

variable {config : Option Config} {logs : List Log}

/-- On its own the rule reports what its calls report, and nothing but a text that is none keeps its
edits from being applied, all of them. -/
theorem investigate_wraps [Machine] (path text : String) (root : Node) (document : Document)
    {d : Dispatcher} (hattach : Document.attach path text root = .ok document)
    (htop : Proper document.top)
    (hcontext : context config document rule = .ok (ctx, logs))
    (hwidth : ctx.option "IndentationWidth" (.int 2) = .int w)
    (hd : ofRules [rule] config = .ok d) :
    ∃ i, d.investigate document = .ok i ∧
      i.offenses = (calls [(rule, ctx)] document).flatMap (·.outcome.offenses) ∧
      ∀ ranks, Correction.ofFindings ranks text i.findings =
        ((Utf8.decode (positional document.data
          (i.offenses.flatMap (·.edits)))).mapError .undecodable).map
            fun corrected => ⟨corrected, Correction.toApply ranks i.findings⟩ := by
  obtain rfl : d = ⟨.ofEntries [⟨rule, none⟩], config, none⟩ := Except.ok.inj (hd.symm.trans rfl)
  have htakes : Takes ⟨.ofEntries [⟨rule, none⟩], config, none⟩ document [(rule, ctx)] :=
    ⟨rfl, fun p hp => List.mem_singleton.1 hp ▸ ⟨logs, hcontext⟩⟩
  obtain ⟨i, hi, hoffenses, -⟩ := htakes.investigate rfl (List.nodup_singleton _)
    fun r hr => List.mem_singleton.1 hr ▸ rfl
  have h := traversal_calls htop hcontext hwidth
  have hrule : ∀ o ∈ i.offenses, o.rule = info.id := by
    intro o ho
    rw [hoffenses] at ho
    obtain ⟨k, hk, ho⟩ := List.mem_flatMap.1 ho
    obtain ⟨before, after, hsplit⟩ := List.append_of_mem hk
    obtain ⟨-, -, -, -, -, -, hrule, -⟩ := h.of_mem_offenses hsplit ho
    exact hrule
  have hlayout : ∀ e ∈ i.offenses.flatMap (·.edits), LayoutEdit document.top e := by
    intro e he
    rw [hoffenses, List.flatMap_assoc] at he
    exact h.layout he
  refine ⟨i, hi, hoffenses, fun ranks => ?_⟩
  have hedits : (Correction.toApply ranks i.findings).flatMap (·.offense.edits) =
      i.offenses.flatMap (·.edits) := Correction.flatMap_toApply_of_rule ranks hrule
  obtain ⟨rfl, hstop⟩ := Document.attach_eq_ok hattach
  have hfit : Fit text (i.offenses.flatMap (·.edits)) :=
    ⟨fun e he => (hlayout e he).not_misplaced htop.toShaped hstop,
      fun a ha b hb => (hlayout a ha).not_overlap (hlayout b hb) htop.toShaped⟩
  rw [Correction.ofFindings_fit (by rwa [hedits]), hedits]
  rfl

/-- Every wrap of a pass indents from the column that the rule foretells for its call.  The call
keeps its first byte; it lands on the column of the break that governs it, closing parentheses put
before it on its line apart, and that is the column foretold if it is steady. -/
theorem wrap_lands [Machine] (path text : String) (root : Node) (document : Document)
    {d : Dispatcher} (hattach : Document.attach path text root = .ok document)
    (htop : Proper document.top)
    (hcontext : context config document rule = .ok (ctx, logs))
    (hwidth : ctx.option "IndentationWidth" (.int 2) = .int w)
    (hd : ofRules [rule] config = .ok d) :
    ∃ i, d.investigate document = .ok i ∧
      i.offenses = (calls [(rule, ctx)] document).flatMap (·.outcome.offenses) ∧
      (∀ ranks fault, Correction.ofFindings ranks text i.findings ≠ .error (.edit fault)) ∧
      ∀ ranks correction, Correction.ofFindings ranks text i.findings = .ok correction →
        Utf8.encode correction.text = positional document.data (i.offenses.flatMap (·.edits)) ∧
        ∀ before k after, calls [(rule, ctx)] document = before ++ k :: after →
          ∀ o ∈ k.outcome.offenses,
            let node := k.place.node
            let landed := carryStart document.data (i.offenses.flatMap (·.edits)) node.start
            let column := (LineIndex.ofBytes (Utf8.encode correction.text)).columnOf landed
            let marks := marksBefore document.data (i.offenses.flatMap (·.edits)) ")" node.start
            let foretold := columnAfter document.toSource (movesOf before) node
            (Utf8.encode correction.text)[landed]? = document.data[node.start]? ∧
              column = landingColumn document.toSource (movesOf before) node + marks ∧
              (Steady document.toSource before k.place → foretold = (column : Int) - marks) ∧
              ∃ first last, (arguments k.place).head? = some first ∧
                (arguments k.place).getLast? = some last ∧
                o.edits = wrap k.place first last (isParenthesized k.place)
                  (spaces (foretold + w)) := by
  obtain ⟨i, hi, hoffenses, hcorrects⟩ :=
    investigate_wraps path text root document hattach htop hcontext hwidth hd
  obtain ⟨rfl, hstop⟩ := Document.attach_eq_ok hattach
  have h := traversal_calls htop hcontext hwidth
  refine ⟨i, hi, hoffenses, fun ranks fault => ?_, fun ranks correction hcorrection => ?_⟩
  · rw [hcorrects]
    cases Utf8.decode (positional _ (i.offenses.flatMap (·.edits))) with
    | error e => simp [Except.mapError, Except.map]
    | ok corrected => simp [Except.mapError, Except.map]
  rw [hcorrects] at hcorrection
  obtain ⟨corrected, hcorrected, rfl⟩ := map_eq_ok hcorrection
  rw [Utf8.encode_of_decode (mapError_eq_ok hcorrected)]
  refine ⟨rfl, fun before k after hsplit o ho => ?_⟩
  obtain ⟨first, last, list, n, hwrapped, hsupplied, -, hedits⟩ := h.of_mem_offenses hsplit ho
  have hcolumn := h.columnOf_landing htop hsplit hsupplied rfl hstop
  rw [hoffenses, List.flatMap_assoc]
  refine ⟨h.getElem?_landed htop hsupplied hstop, hcolumn, fun hsteady => ?_, first, last,
    hsupplied.isFirst, hsupplied.isLast, hwrapped.indent ▸ hedits⟩
  have hforetold := h.columnAfter_eq htop hsplit hsupplied rfl hstop hsteady
  exact hforetold.trans (eq_sub_of_add_eq hcolumn.symm)

end

/-! ## Runs on small documents -/

def sample (text : String) (root : Node) : Document :=
  ⟨Source.ofText "a.rb" text, root, []⟩

def sampleContext (text : String) (root : Node) (w : Int) : Context Memory :=
  ⟨sample text root, info, [(.str "IndentationWidth", .int w), (.str "AllowedMethods", .list [])],
    "warn", {}⟩

def sampleCalls [Machine] (text : String) (root : Node) (w : Int) : List Call :=
  calls [(rule, sampleContext text root w)] (sample text root)

/-- The rule alone corrects a document as a whole. -/
structure Pass [Machine] (config : Option Config) (text : String) (root : Node) (w : Int)
    (d : Dispatcher) (i : Investigation) (corrected : String) : Prop where
  attached : Document.attach "a.rb" text root = .ok (sample text root)
  proper : Proper (sample text root).top
  assembled : ofRules [rule] config = .ok d
  investigated : d.investigate (sample text root) = .ok i
  edits : i.offenses.flatMap (·.edits) = editsOf (sampleCalls text root w)
  corrects : ∃ correction, Correction.ofFindings i.ranks text i.findings = .ok correction ∧
    correction.text = corrected

section

variable {text corrected : String} {root : Node} {config : Option Config} {d : Dispatcher}
variable {i : Investigation}

theorem width_sample : (sampleContext text root w).option "IndentationWidth" (.int 2) = .int w := by
  simp [sampleContext, Context.option, Table.lookup?, Table.get?, Value.str_sameKey_iff]

theorem exists_pass [Machine] (hattach : Document.attach "a.rb" text root = .ok (sample text root))
    (htop : Proper (sample text root).top)
    (hcontext : context config (sample text root) rule = .ok (sampleContext text root w, []))
    (hbytes : positional (sample text root).data (editsOf (sampleCalls text root w)) =
      Utf8.encode corrected) : ∃ d i, Pass config text root w d i corrected := by
  obtain ⟨i, hi, hoffenses, hcorrects⟩ := investigate_wraps "a.rb" text root (sample text root)
    hattach htop hcontext width_sample rfl
  have hedits : i.offenses.flatMap (·.edits) = editsOf (sampleCalls text root w) := by
    rw [hoffenses, List.flatMap_assoc]
    rfl
  refine ⟨_, i, hattach, htop, rfl, hi, hedits, ⟨corrected, Correction.toApply i.ranks i.findings⟩,
    ?_, rfl⟩
  rw [hcorrects, hedits, hbytes, Utf8.decode_encode]
  rfl

def IndentsFromLanding (document : Document) (visits : List Call) (w : Int)
    (corrected : String) : Prop :=
  ∀ k ∈ visits, ∀ o ∈ k.outcome.offenses, ∃ first last, (arguments k.place).head? = some first ∧
    (arguments k.place).getLast? = some last ∧
    o.edits = wrap k.place first last (isParenthesized k.place)
      (spaces ((LineIndex.ofBytes (Utf8.encode corrected)).columnOf
        (carryStart document.data (editsOf visits) k.place.node.start) + w))

theorem IndentsFromLanding.exists_break (h : IndentsFromLanding document visits w corrected) :
    ∀ k ∈ visits, ∀ o ∈ k.outcome.offenses, ∃ e ∈ o.edits, e.replacement =
      "\n" ++ spaces ((LineIndex.ofBytes (Utf8.encode corrected)).columnOf
        (carryStart document.data (editsOf visits) k.place.node.start) + w) := by
  intro k hk o ho
  obtain ⟨first, last, -, -, hwrap⟩ := h k hk o ho
  obtain ⟨opening, closing, hsplit, -⟩ := wrap_split k.place first last (isParenthesized k.place) _
  rw [hwrap, hsplit]
  exact ⟨_, List.mem_append_right _ List.mem_cons_self, rfl⟩

end

/-- The calls of a document with the columns on which they land and the closing parentheses that
are put before them on their lines. -/
def landings (document : Document) (visits : List Call) : List (Nat × Nat × Nat) :=
  visits.map fun k =>
    (k.place.node.start,
      (LineIndex.ofBytes (positional document.data (editsOf visits))).columnOf
        (carryStart document.data (editsOf visits) k.place.node.start),
      marksBefore document.data (editsOf visits) ")" k.place.node.start)

/-! ### Closing parentheses -/

/-- Two statements on a line: the end of a call without parentheses, and one in which such a call is
an argument of another one. -/
def aside : Node :=
  ⟨"program", 0, 25, true, none, [
    ⟨"call", 0, 10, true, none, [⟨"identifier", 0, 3, true, some "method", []⟩,
      ⟨"argument_list", 4, 10, true, some "arguments", [⟨"identifier", 4, 5, true, none, []⟩,
        ⟨",", 5, 6, false, none, []⟩, ⟨"identifier", 9, 10, true, none, []⟩]⟩]⟩,
    ⟨"call", 12, 25, true, none, [⟨"identifier", 12, 15, true, some "method", []⟩,
      ⟨"argument_list", 16, 25, true, some "arguments", [
        ⟨"call", 16, 25, true, none, [⟨"identifier", 16, 19, true, some "method", []⟩,
          ⟨"argument_list", 20, 25, true, some "arguments", [⟨"identifier", 20, 21, true, none, []⟩,
            ⟨",", 21, 22, false, none, []⟩, ⟨"identifier", 24, 25, true, none, []⟩]⟩]⟩]⟩]⟩]⟩

def asideText : String :=
  "foo a,\n  b; bar baz c,\n d"

def asideCorrected : String :=
  "foo(\n  a,\n  b); bar(\n       baz(\n         c,\n d))"

theorem exists_pass_aside : ∃ d i, Pass none asideText aside 2 d i asideCorrected :=
  exists_pass rfl (by decide) (by cbv) (by decide +kernel)

/-- At most one move takes a call with it. -/
theorem steady_aside (hsplit : sampleCalls asideText aside 2 = before ++ k :: after) :
    Steady (sample asideText aside).toSource before k.place := by
  have hcalls : ∀ g ∈ before, g ∈ sampleCalls asideText aside 2 := fun g hg =>
    hsplit ▸ List.mem_append_left _ hg
  have hk : k ∈ sampleCalls asideText aside 2 := hsplit ▸ by simp
  have hbelow : ∀ g ∈ before, Below (sample asideText aside).top g.place := fun g hg =>
    mem_nodes_iff.1 (of_mem_calls (hcalls g hg)).2.1
  have halone : ∀ k ∈ sampleCalls asideText aside 2, ∀ g ∈ sampleCalls asideText aside 2,
      ∀ m ∈ move? g, carries (sample asideText aside).toSource m k.place.node = true →
        ∀ g' ∈ sampleCalls asideText aside 2, ∀ m' ∈ move? g',
          carries (sample asideText aside).toSource m' k.place.node = true →
            g'.place.path = g.place.path := by
    decide +kernel
  have hupright : ∀ g ∈ sampleCalls asideText aside 2, ∀ m ∈ move? g,
      0 ≤ m.shift + (sample asideText aside).lines.columnOf m.start := by decide +kernel
  exact
    { alone := fun g hg m hm hgoverns g' hg' m' hm' hcarries' _ =>
        (hbelow g' hg').eq_of_path_eq (hbelow g hg) (halone k hk g (hcalls g hg) m hm
          (governs_iff.1 hgoverns).1 g' (hcalls g' hg') m' hm' hcarries')
      upright := fun m hm _ => by
        obtain ⟨g, hg, hmove⟩ := mem_movesOf.1 hm
        exact hupright g (hcalls g hg) m hmove }

/-- Of three calls that are wrapped the second one lands behind the parenthesis that closes the
first one, and the third one on the line that the second one breaks. -/
theorem wrap_lands_aside :
    ∃ d i, Pass none asideText aside 2 d i asideCorrected ∧
      landings (sample asideText aside) (sampleCalls asideText aside 2) =
        [(0, 0, 0), (12, 6, 1), (16, 7, 0)] ∧
      ((sampleCalls asideText aside 2).map fun k => k.outcome.offenses.length) = [1, 1, 1] ∧
      ∀ k ∈ sampleCalls asideText aside 2, ∀ o ∈ k.outcome.offenses, ∃ first last,
        (arguments k.place).head? = some first ∧ (arguments k.place).getLast? = some last ∧
        ∃ l ∈ landings (sample asideText aside) (sampleCalls asideText aside 2),
          l.1 = k.place.node.start ∧
            o.edits = wrap k.place first last (isParenthesized k.place)
              (spaces ((l.2.1 : Int) - l.2.2 + 2)) := by
  obtain ⟨d, i, hpass⟩ := exists_pass_aside
  obtain ⟨i', hi', -, -, hlands⟩ := wrap_lands "a.rb" asideText aside (sample asideText aside) rfl
    hpass.proper (show context none (sample asideText aside) rule =
      .ok (sampleContext asideText aside 2, []) by cbv) width_sample hpass.assembled
  obtain rfl := Except.ok.inj (hpass.investigated.symm.trans hi')
  obtain ⟨correction, hcorrection, -⟩ := hpass.corrects
  obtain ⟨hcorrected, hlands⟩ := hlands i.ranks correction hcorrection
  refine ⟨d, i, hpass, by decide +kernel, by decide +kernel, fun k hk o ho => ?_⟩
  obtain ⟨before, after, hsplit⟩ := List.append_of_mem hk
  obtain ⟨-, -, hforetold, first, last, hfirst, hlast, hedits⟩ := hlands before k after hsplit o ho
  rw [hforetold (steady_aside hsplit), hcorrected, hpass.edits] at hedits
  exact ⟨first, last, hfirst, hlast, _, List.mem_map_of_mem hk, rfl, hedits⟩

/-- The parenthesis that closes the first call is not counted: with it the second one would be
indented by one more column. -/
theorem wrap_lands_pushed :
    ∃ d i, Pass none asideText aside 2 d i asideCorrected ∧
      ¬IndentsFromLanding (sample asideText aside) (sampleCalls asideText aside 2) 2
        asideCorrected := by
  obtain ⟨d, i, hpass⟩ := exists_pass_aside
  exact ⟨d, i, hpass, fun h => absurd h.exists_break (by decide +kernel)⟩

/-! ### A call in the receiver -/

/-- A call with arguments one of which is a call, and in its receiver a call whose argument stands
on the line on which those arguments start. -/
def receiving : Node :=
  ⟨"call", 0, 32, true, none, [
    ⟨"parenthesized_statements", 0, 13, true, some "receiver", [⟨"(", 0, 1, false, none, []⟩,
      ⟨"call", 1, 12, true, none, [⟨"identifier", 1, 2, true, some "receiver", []⟩,
        ⟨".", 2, 3, false, some "operator", []⟩, ⟨"identifier", 3, 6, true, some "method", []⟩,
        ⟨"argument_list", 11, 12, true, some "arguments", [
          ⟨"identifier", 11, 12, true, none, []⟩]⟩]⟩,
      ⟨")", 12, 13, false, none, []⟩]⟩,
    ⟨".", 13, 14, false, some "operator", []⟩, ⟨"identifier", 14, 17, true, some "method", []⟩,
    ⟨"argument_list", 18, 32, true, some "arguments", [⟨"identifier", 18, 19, true, none, []⟩,
      ⟨",", 19, 20, false, none, []⟩,
      ⟨"call", 21, 32, true, none, [⟨"identifier", 21, 22, true, some "method", []⟩,
        ⟨"argument_list", 22, 32, true, some "arguments", [⟨"(", 22, 23, false, none, []⟩,
          ⟨"integer", 23, 24, true, none, []⟩, ⟨",", 24, 25, false, none, []⟩,
          ⟨"integer", 30, 31, true, none, []⟩, ⟨")", 31, 32, false, none, []⟩]⟩]⟩]⟩]⟩

def receivingText : String :=
  "(x.foo \\\n  a).bar c, y(1,\n    2)"

def receivingCorrected : String :=
  "(x.foo(\n   a)).bar(\n  c, y(\n               1,\n    2))"

/-- The last call lands on column 5, where the outer call has moved it, but its argument is indented
by 15 blanks: the rule counts from column 13, as if the break in the receiver had moved it. -/
theorem wrap_lands_receiving :
    ∃ d i, Pass none receivingText receiving 2 d i receivingCorrected ∧
      landings (sample receivingText receiving) (sampleCalls receivingText receiving 2) =
        [(0, 0, 0), (1, 1, 0), (21, 5, 0)] ∧
      ¬IndentsFromLanding (sample receivingText receiving) (sampleCalls receivingText receiving 2) 2
        receivingCorrected := by
  obtain ⟨d, i, hpass⟩ : ∃ d i, Pass none receivingText receiving 2 d i receivingCorrected :=
    exists_pass rfl (by decide) (by cbv) (by decide +kernel)
  exact ⟨d, i, hpass, by decide +kernel, fun h => absurd h.exists_break (by decide +kernel)⟩

/-! ### An indentation to the left of the first column -/

def leading : Node :=
  ⟨"call", 0, 18, true, none, [⟨"identifier", 0, 3, true, some "method", []⟩,
    ⟨"argument_list", 4, 18, true, some "arguments", [⟨"identifier", 4, 6, true, none, []⟩,
      ⟨",", 6, 7, false, none, []⟩,
      ⟨"call", 8, 18, true, none, [⟨"identifier", 8, 11, true, some "method", []⟩,
        ⟨"argument_list", 12, 18, true, some "arguments", [⟨"identifier", 12, 13, true, none, []⟩,
          ⟨",", 13, 14, false, none, []⟩, ⟨"identifier", 17, 18, true, none, []⟩]⟩]⟩]⟩]⟩

def leadingText : String :=
  "foo qq, bar a,\n  b"

def leadingCorrected : String :=
  "foo(\nqq, bar(\n  a,\n  b))"

/-- The arguments of the outer call would start to the left of the first column; the rule counts
from there, though they start on it. -/
theorem wrap_lands_leading :
    ∃ d i, Pass (some (Shipped.widthConfig (-1))) leadingText leading (-1) d i leadingCorrected ∧
      landings (sample leadingText leading) (sampleCalls leadingText leading (-1)) =
        [(0, 0, 0), (8, 4, 0)] ∧
      ¬IndentsFromLanding (sample leadingText leading) (sampleCalls leadingText leading (-1)) (-1)
        leadingCorrected := by
  obtain ⟨d, i, hpass⟩ : ∃ d i, Pass (some (Shipped.widthConfig (-1))) leadingText leading (-1) d i
      leadingCorrected := exists_pass rfl (by decide) (by cbv) (by decide +kernel)
  exact ⟨d, i, hpass, by decide +kernel, fun h => absurd h.exists_break (by decide +kernel)⟩

end RubyLint.WrapArguments
