import RubyLint.Proofs.Rules.Written
import RubyLint.Proofs.Tree.Preorder

/-!
# Parentheses

What the corrections of the layout rules write besides whitespace: a pair of parentheses around the
arguments of every call that is reported for them and has none.
-/

namespace RubyLint.Layout

open Cursor Ruby Edit Dispatcher

variable {top c d first last list m u : Cursor} {data : List UInt8} {offenses : List Offense}
  {o : Offense} {e : Edit}

/-! ## The parentheses of a tree -/

/-- The parentheses around the arguments of a call. -/
def brackets (c : Cursor) : List Edit :=
  match method? c, (arguments c).head?, (arguments c).getLast? with
  | some m, some first, some last =>
    [⟨m.node.stop, first.node.start, "("⟩, ⟨last.node.stop, last.node.stop, ")"⟩]
  | _, _, _ => []

theorem Bare.brackets_eq (h : Bare top c m list first last) : brackets c =
    [⟨m.node.stop, first.node.start, "("⟩, ⟨last.node.stop, last.node.stop, ")"⟩] := by
  simp only [brackets, h.method, h.first, h.isLast]

/-- Whether a call is reported for its arguments and these stand without parentheses. -/
def isFlagged (offenses : List Offense) (c : Cursor) : Bool :=
  isCall c && !(arguments c).isEmpty && !isParenthesized c && offenses.any fun o =>
    o.rule == WrapArguments.info.id &&
      (o.start == (c.node.start : Int) && o.stop == (sendEnd c : Int))

/-- The calls of a tree without parentheses that are reported for their arguments. -/
def flagged (offenses : List Offense) (top : Cursor) : List Cursor :=
  top.nodes.filter (isFlagged offenses)

def opening (u : Cursor) : Edit :=
  ⟨u.node.start, u.node.start, "("⟩

def closing (u : Cursor) : Edit :=
  ⟨u.node.stop, u.node.stop, ")"⟩

theorem ink_of_opening (u : Cursor) : (opening u).ink = [40] :=
  ink_opening _ _

theorem ink_of_closing (u : Cursor) : (closing u).ink = [41] :=
  ink_closing _ _

def enclosing (c : Cursor) : List Edit :=
  (arguments c).head?.toList.map opening ++ (arguments c).getLast?.toList.map closing

/-- The opening parenthesis of the brackets moved to the argument that it is put before. -/
theorem Bare.settled_brackets (h : Bare top c m list first last) :
    (brackets c).map settled = enclosing c := by
  rw [h.brackets_eq, enclosing, h.first, h.isLast]
  rfl

/-- The parenthesis at a node that is the first, or the last, argument of one of some calls. -/
def parenthesis (pick : List Cursor → Option Cursor) (put : Cursor → Edit) (calls : List Cursor)
    (u : Cursor) : List Edit :=
  if calls.any fun c => (pick (arguments c)).any (·.samePlace u) then [put u] else []

/-- The parentheses around the arguments of some calls of a tree, on a tour around it: an opening
one before the first argument, then what comes below it, and a closing one after the last
argument. -/
def parentheses (calls : List Cursor) (top : Cursor) : List Edit :=
  tour (parenthesis List.head? opening calls) (parenthesis List.getLast? closing calls) top

/-! ## Flagged calls -/

namespace WrapsBare

theorem range (h : WrapsBare top c o) :
    o.rule = WrapArguments.info.id ∧ o.start = c.node.start ∧ o.stop = sendEnd c := by
  obtain ⟨m, list, first, last, -, hwraps⟩ := h
  exact ⟨hwraps.rule, hwraps.start, hwraps.stop⟩

/-- A report wraps one call. -/
theorem unique (h : WrapsBare top c o) (h' : WrapsBare top d o) (htop : Proper top) : c = d := by
  obtain ⟨-, hstart, hstop⟩ := h.range
  obtain ⟨-, hstart', hstop'⟩ := h'.range
  obtain ⟨m, list, first, last, hbare, -⟩ := h
  obtain ⟨m', list', first', last', hbare', -⟩ := h'
  apply eq_of_sendRange_eq htop hbare.below hbare.isCall hbare.first hbare'.below hbare'.isCall
    hbare'.first
  · omega
  · omega

/-- Besides blanks a report writes the brackets of the call. -/
theorem seen (h : WrapsBare top c o) : o.edits.filter (fun e => !e.ink.isEmpty) = brackets c := by
  obtain ⟨m, list, first, last, hbare, hwraps⟩ := h
  obtain ⟨indent, hindent, hedits⟩ := hbare.edits hwraps
  have hink : (⟨first.node.start, first.node.start, indent⟩ : Edit).ink = [] := hindent
  rw [hedits, hbare.brackets_eq]
  simp [ink_opening, ink_closing, hink]

theorem brackets_ne_nil (h : WrapsBare top c o) : brackets c ≠ [] := by
  obtain ⟨m, list, first, last, hbare, -⟩ := h
  rw [hbare.brackets_eq]
  exact List.cons_ne_nil _ _

end WrapsBare

/-- The flagged calls of a run are those that a report wraps. -/
theorem Run.mem_flagged_iff (h : Run top offenses) (htop : Spaced data top) :
    c ∈ flagged offenses top ↔ ∃ o ∈ offenses, WrapsBare top c o := by
  rw [flagged, List.mem_filter, mem_nodes_iff]
  simp only [isFlagged, Bool.and_eq_true, Bool.not_eq_true', List.any_eq_true, beq_iff_eq,
    List.isEmpty_eq_false_iff]
  constructor
  · rintro ⟨hc, ⟨⟨hcall, hsome⟩, hbare⟩, o, ho, hrule, hstart, hstop⟩
    have hfirst := List.head?_eq_some_head hsome
    cases h.reported o ho with
    | chain _ _ hbreaks => exact absurd (hbreaks.rule.symm.trans hrule) ids_ne
    | @wrap d first last hd hcallD hfirstD hlastD hwraps =>
        obtain rfl := eq_of_sendRange_eq htop.toProper hc hcall hfirst hd hcallD hfirstD
          (Int.ofNat.inj (hstart.symm.trans hwraps.start))
          (Int.ofNat.inj (hstop.symm.trans hwraps.stop))
        obtain ⟨m, list, hbare⟩ := htop.exists_bare hc hcall hbare hfirstD hlastD
        exact ⟨o, ho, m, list, first, last, hbare, hwraps⟩
  · rintro ⟨o, ho, hwrapsBare⟩
    have hrange := hwrapsBare.range
    obtain ⟨m, list, first, last, hbare, -⟩ := hwrapsBare
    have hsome : arguments c ≠ [] := List.ne_nil_of_mem (List.mem_of_head? hbare.first)
    exact ⟨hbare.below, ⟨⟨hbare.isCall, hsome⟩, hbare.bare⟩, o, ho, hrange⟩

theorem Run.of_cons (h : Run top (o :: offenses)) : Run top offenses :=
  ⟨fun o ho => h.reported o (List.mem_cons_of_mem _ ho), (List.pairwise_cons.1 h.once).2⟩

/-- The edits of a run that write more than blanks are the brackets of different calls. -/
theorem Run.exists_calls (h : Run top offenses) (htop : Spaced data top) :
    ∃ cs : List Cursor, cs.Nodup ∧ (∀ c, c ∈ cs ↔ ∃ o ∈ offenses, WrapsBare top c o) ∧
      (offenses.flatMap (·.edits)).filter (fun e => !e.ink.isEmpty) = cs.flatMap brackets := by
  induction offenses with
  | nil => exact ⟨[], .nil, by simp, rfl⟩
  | cons o rest ih =>
      obtain ⟨cs, hnodup, hmem, hseen⟩ := ih h.of_cons
      rw [List.flatMap_cons, List.filter_append, hseen]
      simp only [List.mem_cons, exists_eq_or_imp]
      rcases (h.reported o List.mem_cons_self).cases htop with hblank | ⟨c, hwraps⟩
      · have hhere : o.edits.filter (fun e => !e.ink.isEmpty) = [] := by
          rw [List.filter_eq_nil_iff]
          intro e he
          simp [(hblank e he).2.2]
        have hnone : ∀ c, ¬WrapsBare top c o := fun c hwraps =>
          hwraps.brackets_ne_nil (hwraps.seen.symm.trans hhere)
        refine ⟨cs, hnodup, fun c => ?_, by rw [hhere, List.nil_append]⟩
        rw [hmem]
        exact ⟨.inr, fun hwraps => hwraps.resolve_left (hnone c)⟩
      · refine ⟨c :: cs, List.nodup_cons.2 ⟨fun hc => ?_, hnodup⟩, fun d => ?_, ?_⟩
        · obtain ⟨o', ho', hwraps'⟩ := (hmem c).1 hc
          obtain ⟨hrule, hstart, hstop⟩ := hwraps.range
          obtain ⟨hrule', hstart', hstop'⟩ := hwraps'.range
          exact (List.pairwise_cons.1 h.once).1 o' ho' hrule hrule' ⟨by omega, by omega⟩
        · have hhere : WrapsBare top d o ↔ d = c :=
            ⟨fun hwraps' => hwraps'.unique hwraps htop.toProper, fun heq => heq ▸ hwraps⟩
          rw [List.mem_cons, hmem, hhere]
        · rw [hwraps.seen, List.flatMap_cons]

theorem Run.seen_perm (h : Run top offenses) (htop : Spaced data top) :
    ((offenses.flatMap (·.edits)).filter fun e => !e.ink.isEmpty).Perm
      ((flagged offenses top).flatMap brackets) := by
  obtain ⟨cs, hnodup, hmem, hseen⟩ := h.exists_calls htop
  rw [hseen]
  apply List.Perm.flatMap_right
  rw [flagged, List.perm_ext_iff_of_nodup hnodup (top.nodup_nodes.filter _)]
  intro c
  rw [hmem, ← h.mem_flagged_iff htop, flagged]

/-! ## Tours -/

section

variable {calls : List Cursor} {pick : List Cursor → Option Cursor} {put : Cursor → Edit}

theorem mem_parenthesis (he : e ∈ parenthesis pick put calls u) :
    e = put u ∧ ∃ c ∈ calls, ∃ x, pick (arguments c) = some x ∧ x.samePlace u = true := by
  rw [parenthesis] at he
  split at he
  next hany =>
    obtain ⟨c, hc, hpick⟩ := List.any_eq_true.1 hany
    obtain ⟨x, hx, hsame⟩ := (Option.any_eq_true _ _).1 hpick
    exact ⟨List.mem_singleton.1 he, c, hc, x, hx, hsame⟩
  next => exact absurd he List.not_mem_nil

theorem flatMap_parenthesis (places : List Cursor) :
    places.flatMap (parenthesis pick put calls) =
      (places.filter fun u => calls.any fun c => (pick (arguments c)).any (·.samePlace u)).map
        put := by
  induction places with
  | nil => rfl
  | cons u rest ih =>
      rw [List.flatMap_cons, ih, parenthesis, List.filter_cons]
      split <;> rfl

/-- A tour comes by every argument that is picked once. -/
theorem parenthesis_perm (hpick : ∀ xs u, pick xs = some u → u ∈ xs) (hnodup : calls.Nodup)
    (hcalls : ∀ c ∈ calls, Below top c) :
    (top.preorder.flatMap (parenthesis pick put calls)).Perm
      (calls.flatMap fun c => (pick (arguments c)).toList.map put) := by
  have hbelow : ∀ c ∈ calls, ∀ u, pick (arguments c) = some u → Below top u := by
    intro c hc u hu
    obtain ⟨list, hlist⟩ := exists_argumentList (hpick _ _ hu)
    exact .step (.step (hcalls c hc) (argumentList?_mem hlist)) (arguments_mem hlist (hpick _ _ hu))
  have hinjective : ∀ c d u, u ∈ pick (arguments c) → u ∈ pick (arguments d) → c = d := by
    intro c d u hc hd
    obtain ⟨list, hlist⟩ := exists_argumentList (hpick _ _ hc)
    have hlist' := argumentList?_of_mem (hpick _ _ hd) (arguments_mem hlist (hpick _ _ hc))
    exact parent_unique (argumentList?_mem hlist) (argumentList?_mem hlist')
  have hpicked : (top.preorder.filter fun u =>
      calls.any fun c => (pick (arguments c)).any (·.samePlace u)).Perm
        (calls.filterMap fun c => pick (arguments c)) := by
    rw [List.perm_ext_iff_of_nodup (top.nodup_preorder.filter _) (hnodup.filterMap hinjective)]
    intro u
    simp only [List.mem_filter, mem_preorder_iff, List.any_eq_true, Option.any_eq_true,
      List.mem_filterMap]
    constructor
    · rintro ⟨hu, c, hc, x, hx, hsame⟩
      obtain rfl := (samePlace_iff (hbelow c hc x hx) hu).1 hsame
      exact ⟨c, hc, hx⟩
    · rintro ⟨c, hc, hu⟩
      have hbelow := hbelow c hc u hu
      exact ⟨hbelow, c, hc, u, hu, (samePlace_iff hbelow hbelow).2 rfl⟩
  calc
    _ = (top.preorder.filter fun u =>
          calls.any fun c => (pick (arguments c)).any (·.samePlace u)).map put :=
      flatMap_parenthesis _
    List.Perm _ ((calls.filterMap fun c => pick (arguments c)).map put) := hpicked.map _
    _ = _ := by rw [List.filterMap_eq_flatMap_toList, List.map_flatMap]

end

section

variable {calls : List Cursor} (htop : Proper top) (hnodup : calls.Nodup)
  (hcalls : ∀ c ∈ calls, ∃ m list first last, Bare top c m list first last)

include hnodup hcalls

/-- A tour writes the parentheses around the arguments of the calls and no others. -/
theorem parentheses_perm : (parentheses calls top).Perm (calls.flatMap enclosing) := by
  have hbelow : ∀ c ∈ calls, Below top c := by
    intro c hc
    obtain ⟨_, _, _, _, hbare⟩ := hcalls c hc
    exact hbare.below
  have hopening : (top.preorder.flatMap (parenthesis List.head? opening calls)).Perm
      (calls.flatMap fun c => (arguments c).head?.toList.map opening) :=
    parenthesis_perm (fun _ _ => List.mem_of_head?) hnodup hbelow
  have hclosing : (top.preorder.flatMap (parenthesis List.getLast? closing calls)).Perm
      (calls.flatMap fun c => (arguments c).getLast?.toList.map closing) :=
    parenthesis_perm (fun _ _ => List.mem_of_getLast?) hnodup hbelow
  calc
    List.Perm (parentheses calls top)
        (top.preorder.flatMap fun u => parenthesis List.head? opening calls u ++
          parenthesis List.getLast? closing calls u) := tour_perm top
    List.Perm _ (top.preorder.flatMap (parenthesis List.head? opening calls) ++
        top.preorder.flatMap (parenthesis List.getLast? closing calls)) :=
      (List.flatMap_append_perm _ _ _).symm
    List.Perm _ ((calls.flatMap fun c => (arguments c).head?.toList.map opening) ++
        calls.flatMap fun c => (arguments c).getLast?.toList.map closing) :=
      hopening.append hclosing
    List.Perm _ (calls.flatMap enclosing) := List.flatMap_append_perm _ _ _

omit hnodup hcalls in
theorem mem_parentheses (he : e ∈ parentheses calls top) :
    e.isInsertion = true ∧ Parenthetic e := by
  obtain ⟨x, -, he | he⟩ := exists_of_mem_tour he
  · rw [(mem_parenthesis he).1]
    exact ⟨by simp [isInsertion, opening], .inr (.inl (ink_of_opening x))⟩
  · rw [(mem_parenthesis he).1]
    exact ⟨by simp [isInsertion, closing], .inr (.inr (ink_of_closing x))⟩

include htop

omit hnodup in
/-- On a tour no closing parenthesis comes before an opening one at the same offset. -/
theorem parentheses_ascending : (parentheses calls top).Pairwise Ascending := by
  have hopening : ∀ {u : Cursor} {e : Edit},
      e ∈ parenthesis List.head? opening calls u → e.ink = [40] := by
    intro u e he
    rw [(mem_parenthesis he).1, ink_of_opening]
  have hclosing : ∀ {u : Cursor} {e : Edit},
      e ∈ parenthesis List.getLast? closing calls u → e.ink = [41] := by
    intro u e he
    rw [(mem_parenthesis he).1, ink_of_closing]
  have hparenthetic : ∀ {u : Cursor} {e : Edit},
      e ∈ parenthesis List.head? opening calls u ++
        parenthesis List.getLast? closing calls u → Parenthetic e := by
    intro u e he
    exact .inr ((List.mem_append.1 he).imp hopening hclosing)
  apply pairwise_tour
  · intro x a ha y b hb
    apply Parenthetic.ascending (.inr (.inl (hopening ha))) (hparenthetic hb)
    simp [hopening ha]
  · intro x b hb y a ha
    apply Parenthetic.ascending (hparenthetic ha) (.inr (.inr (hclosing hb)))
    simp [hclosing hb]
  · intro w u v x y hw hu hv hlt hx hy a ha b hb _ _ hstart
    obtain ⟨rfl, c, hc, x', hlast, hsame⟩ := mem_parenthesis ha
    obtain ⟨rfl, d, hd, y', hfirst, hsame'⟩ := mem_parenthesis hb
    obtain ⟨m, list, first, last, hbare⟩ := hcalls c hc
    obtain ⟨m', list', first', last', hbare'⟩ := hcalls d hd
    obtain rfl := Option.some.inj (hlast.symm.trans hbare.isLast)
    obtain rfl := Option.some.inj (hfirst.symm.trans hbare'.first)
    have hargument : Below top x' :=
      .step (.step hbare.below (argumentList?_mem hbare.list)) hbare.last_mem
    have hargument' : Below top y' :=
      .step (.step hbare'.below (argumentList?_mem hbare'.list)) hbare'.first_mem
    obtain rfl := (samePlace_iff hargument (hw.trans (.of_child hu hx))).1 hsame
    obtain rfl := (samePlace_iff hargument' (hw.trans (.of_child hv hy))).1 hsame'
    simp only [closing, opening] at hstart
    exact absurd (by omega)
      (hbare.last_stop_ne_first_start hbare' htop hw hu hv hlt hx hy)

omit hnodup in
theorem parentheses_ordered : Ordered (parentheses calls top) := by
  refine ⟨fun e he => (mem_parentheses he).2.single, fun g hg hreplace => ?_,
    parentheses_ascending htop hcalls⟩
  rw [(mem_parentheses hg).1] at hreplace
  nomatch hreplace

end

/-! ## Corrected texts -/

namespace Run

variable (h : Run top offenses) (htop : Spaced data top)

include h htop

theorem flagged_bare : ∀ c ∈ flagged offenses top, ∃ m list first last,
    Bare top c m list first last := by
  intro c hc
  obtain ⟨-, -, m, list, first, last, hbare, -⟩ := (h.mem_flagged_iff htop).1 hc
  exact ⟨m, list, first, last, hbare⟩

theorem flagged_perm : (parentheses (flagged offenses top) top).Perm
    ((flagged offenses top).flatMap enclosing) :=
  parentheses_perm (top.nodup_nodes.filter _) (h.flagged_bare htop)

/-- The edits of a correction put parentheses around the arguments of the flagged calls and write
nothing else but blanks. -/
theorem inked_positional (hsize : top.node.stop ≤ data.length) (ranks : Finding.Ranks) :
    inked (positional data ((Correction.toApply ranks (Finding.number offenses)).flatMap
        (·.offense.edits))) =
      inked (positional data (parentheses (flagged offenses top) top)) := by
  have happlied := h.applied ranks
  have hmovable := happlied.movable htop hsize
  have hordered := happlied.ordered htop
  rw [List.flatMap_map] at hmovable hordered
  have hsettled : ((flagged offenses top).flatMap brackets).map settled =
      (flagged offenses top).flatMap enclosing := by
    rw [List.map_flatMap]
    apply List.flatMap_congr
    intro c hc
    obtain ⟨_, _, _, _, hbare⟩ := h.flagged_bare htop c hc
    exact hbare.settled_brackets
  apply hmovable.inked_positional hordered
  · exact fun e he => (mem_parentheses he).1
  · exact parentheses_ordered htop.toProper (h.flagged_bare htop)
  · calc
      List.Perm _ (((offenses.flatMap (·.edits)).filter fun e => !e.ink.isEmpty).map settled) :=
        ((Correction.flatMap_toApply_perm ranks offenses).filter _).map _
      List.Perm _ (((flagged offenses top).flatMap brackets).map settled) :=
        (h.seen_perm htop).map _
      _ = (flagged offenses top).flatMap enclosing := hsettled
      List.Perm _ (parentheses (flagged offenses top) top) := (h.flagged_perm htop).symm

end Run

/-- Corrections of the layout rules only change the layout.  Erase whitespace and backslashes from
the corrected text: what is left is the source, less whitespace and backslashes, with parentheses
around the arguments of every call that is reported for them and has none.  This is so under every
configuration, for every tree of the right shape in which only whitespace and backslashes come
between the methods and the arguments of calls without parentheses.  Each such call gets one opening
parenthesis right before its first argument and one closing parenthesis right after its last.  The
edits can always be made, and they leave a text unless a node ends inside a character. -/
theorem ofFindings_parentheses [Machine] (path text : String) (root : Node) (document : Document)
    (config : Option Config) (hattach : Document.attach path text root = .ok document)
    (htop : Spaced (Utf8.encode text) document.top) :
    ∃ d, ofRules rules config = .ok d ∧
      ((∀ c ∈ config, c.Tabular) → ∃ i, d.investigate document = .ok i) ∧
      ∀ i, d.investigate document = .ok i → ∀ ranks,
        (∀ fault, Correction.ofFindings ranks text i.findings ≠ .error (.edit fault)) ∧
        ((∀ x, Below document.top x →
            Utf8.Between text x.node.start ∧ Utf8.Between text x.node.stop) →
          ∃ correction, Correction.ofFindings ranks text i.findings = .ok correction) ∧
        (parentheses (flagged i.offenses document.top) document.top).Perm
          ((flagged i.offenses document.top).flatMap enclosing) ∧
        ∀ correction, Correction.ofFindings ranks text i.findings = .ok correction →
          inked (Utf8.encode correction.text) =
            inked (positional (Utf8.encode text)
              (parentheses (flagged i.offenses document.top) document.top)) := by
  obtain ⟨rfl, hstop⟩ := Document.attach_eq_ok hattach
  set document : Document := ⟨Source.ofText path text, root, []⟩
  obtain ⟨d, hd⟩ : ∃ d, ofRules rules config = .ok d := ⟨_, rfl⟩
  have hconfig : d.config = config := by
    obtain rfl := Except.ok.inj hd
    rfl
  refine ⟨d, hd, fun htabular => ?_, fun i hi ranks => ?_⟩
  · exact d.exists_investigation (hconfig ▸ htabular) document
  have hrun := run_of_investigate htop.toProper hd hi
  have hfit : Fit text ((Correction.toApply ranks i.findings).flatMap (·.offense.edits)) :=
    hrun.fit htop hstop ranks
  refine ⟨Correction.ofFindings_fit_ne_edit hfit, fun hbetween => ?_, hrun.flagged_perm htop,
    fun correction hok => ?_⟩
  · obtain ⟨corrected, hcorrected⟩ :=
      hfit.exists_decode fun e he => (hrun.layout htop ranks he).between hbetween
    refine ⟨⟨corrected, Correction.toApply ranks i.findings⟩, ?_⟩
    rw [Correction.ofFindings_fit hfit, hcorrected]
    rfl
  · rw [Correction.encode_of_fit hfit hok]
    exact hrun.inked_positional htop hstop ranks

/-! ## Calls in calls -/

/-- What is left of a text with the parentheses that the layout rules add. -/
def parenthesized (config : Option Config) (document : Document) : Option (List UInt8) := do
  let d ← (ofRules rules config).toOption
  let i ← (d.investigate document).toOption
  return inked (positional document.data
    (parentheses (flagged i.offenses document.top) document.top))

/-- A call over two lines is the only argument of another one. -/
def nested : Node :=
  ⟨"program", 0, 13, true, none, [⟨"call", 0, 13, true, none, [
    ⟨"identifier", 0, 3, true, some "method", []⟩,
    ⟨"argument_list", 4, 13, true, some "arguments", [⟨"call", 4, 13, true, none, [
      ⟨"identifier", 4, 7, true, some "method", []⟩,
      ⟨"argument_list", 8, 13, true, some "arguments", [⟨"identifier", 8, 9, true, none, []⟩,
        ⟨",", 9, 10, false, none, []⟩, ⟨"identifier", 12, 13, true, none, []⟩]⟩]⟩]⟩]⟩]⟩

def nestedText : String :=
  "foo bar b,\n c"

/-- Both calls are put between parentheses, which close at the same offset. -/
theorem ofFindings_parentheses_nested :
    ∃ d i correction, ofRules rules none = .ok d ∧
      d.investigate ⟨Source.ofText "a.rb" nestedText, nested, []⟩ = .ok i ∧
      Correction.ofFindings i.ranks nestedText i.findings = .ok correction ∧
      inked (Utf8.encode correction.text) = Utf8.encode "foo(bar(b,c))" := by
  set document : Document := ⟨Source.ofText "a.rb" nestedText, nested, []⟩ with hdocument
  obtain ⟨d, hd, hruns, hcorrected⟩ := ofFindings_parentheses "a.rb" nestedText nested document none
    rfl (by decide +kernel)
  obtain ⟨i, hi⟩ := hruns (by simp)
  obtain ⟨-, hok, -, hinked⟩ := hcorrected i hi i.ranks
  obtain ⟨correction, hcorrection⟩ := hok (by decide +kernel)
  have hexpected : parenthesized none document = some (Utf8.encode "foo(bar(b,c))") := by
    decide +kernel
  simp only [parenthesized, hd, hi, Except.toOption, Option.bind_eq_bind, Option.bind_some, pure,
    Option.some.injEq] at hexpected
  exact ⟨d, i, correction, hd, hi, hcorrection, (hinked correction hcorrection).trans hexpected⟩

/-- A call whose method is another call, right before its arguments. -/
def abutting : Node :=
  ⟨"program", 0, 14, true, none, [⟨"call", 0, 14, true, none, [
    ⟨"call", 0, 6, true, some "method", [⟨"identifier", 0, 1, true, some "method", []⟩,
      ⟨"argument_list", 2, 6, true, some "arguments", [⟨"identifier", 2, 3, true, none, []⟩,
        ⟨",", 3, 4, false, none, []⟩, ⟨"identifier", 5, 6, true, none, []⟩]⟩]⟩,
    ⟨"argument_list", 6, 14, true, some "arguments", [⟨"string", 6, 9, true, none, []⟩,
      ⟨",", 9, 10, false, none, []⟩, ⟨"string", 11, 14, true, none, []⟩]⟩]⟩]⟩

def abuttingText : String :=
  "f a,\nb\"c\",\n\"d\""

def abuttingEdits : List (List Edit) :=
  [[⟨6, 6, "("⟩, ⟨6, 6, "\n  "⟩, ⟨14, 14, ")"⟩], [⟨1, 2, "("⟩, ⟨2, 2, "\n  "⟩, ⟨6, 6, ")"⟩]]

def reportsByRule (config : Option Config) (document : Document) :
    Option (List (String × List Edit)) := do
  let d ← (ofRules rules config).toOption
  let i ← (d.investigate document).toOption
  return i.offenses.map fun o => (o.rule, o.edits)

/-- A method must not be a call.  Where the arguments of one call end and those of another one
begin, the parenthesis of the outer call is opened before that of the inner one is closed. -/
theorem ofFindings_parentheses_abutting :
    ∃ document d i correction, Document.attach "a.rb" abuttingText abutting = .ok document ∧
      Shaped document.top ∧
      (∀ c, Below document.top c → isCall c = true → isParenthesized c = false →
        ∀ m ∈ method? c, ∀ first ∈ (arguments c).head?,
          ∀ b ∈ (document.data.drop m.node.stop).take (first.node.start - m.node.stop),
            b ∈ blankBytes) ∧
      ofRules rules none = .ok d ∧ d.investigate document = .ok i ∧
      Correction.ofFindings i.ranks abuttingText i.findings = .ok correction ∧
      correction.text = "f(\n  a,\nb(\n  )\"c\",\n\"d\")" ∧
      inked (positional (Utf8.encode abuttingText)
        (parentheses (flagged i.offenses document.top) document.top)) =
          Utf8.encode "f(a,b)(\"c\",\"d\")" ∧
      inked (Utf8.encode correction.text) ≠ inked (positional (Utf8.encode abuttingText)
        (parentheses (flagged i.offenses document.top) document.top)) := by
  set document : Document := ⟨Source.ofText "a.rb" abuttingText, abutting, []⟩
  have hreports : reportsByRule none document =
      some (abuttingEdits.map fun edits => (WrapArguments.info.id, edits)) := by
    decide +kernel
  have hexpected : parenthesized none document = some (Utf8.encode "f(a,b)(\"c\",\"d\")") := by
    decide +kernel
  obtain ⟨d, hd⟩ : ∃ d, ofRules rules none = .ok d := ⟨_, rfl⟩
  cases hi : d.investigate document with
  | error fault => simp [reportsByRule, hd, hi, Except.toOption] at hreports
  | ok i =>
      simp only [reportsByRule, parenthesized, hd, hi, Except.toOption, Option.bind_eq_bind,
        Option.bind_some, pure, Option.some.injEq] at hreports hexpected
      obtain ⟨outer, rest, hoffenses, houter, hrest⟩ := List.map_eq_cons_iff.1 hreports
      obtain ⟨inner, rest, rfl, hinner, hrest⟩ := List.map_eq_cons_iff.1 hrest
      obtain rfl := List.map_eq_nil_iff.1 hrest
      obtain ⟨hrule, hedits⟩ := Prod.mk.inj houter
      obtain ⟨hrule', hedits'⟩ := Prod.mk.inj hinner
      have happlied : (Correction.toApply i.ranks i.findings).flatMap (·.offense.edits) =
          abuttingEdits.flatten := by
        simp only [Correction.toApply, Finding.byRule, Investigation.findings, hoffenses,
          Finding.number, List.mapIdx_cons, List.mapIdx_nil, mergeSort_pair, hrule, hrule',
          Int.le_refl, decide_true, if_true]
        simp [Offense.correctable, hedits, hedits', abuttingEdits]
      have hfit : Fit abuttingText
          ((Correction.toApply i.ranks i.findings).flatMap (·.offense.edits)) := by
        rw [happlied]
        decide +kernel
      have hdecode : Utf8.decode (positional (Utf8.encode abuttingText) abuttingEdits.flatten) =
          .ok "f(\n  a,\nb(\n  )\"c\",\n\"d\")" := by
        decide +kernel
      have hcorrection : Correction.ofFindings i.ranks abuttingText i.findings =
          .ok ⟨"f(\n  a,\nb(\n  )\"c\",\n\"d\")", Correction.toApply i.ranks i.findings⟩ := by
        rw [Correction.ofFindings_fit hfit, happlied, hdecode]
        rfl
      refine ⟨document, d, i, _, rfl, ?_, ?_, hd, hi, hcorrection, rfl, hexpected, ?_⟩
      · decide +kernel
      · decide +kernel
      · have hne : inked (Utf8.encode "f(\n  a,\nb(\n  )\"c\",\n\"d\")") ≠
            Utf8.encode "f(a,b)(\"c\",\"d\")" := by
          decide +kernel
        exact hexpected ▸ hne

end RubyLint.Layout
