import RubyLint.Proofs.Lint
import RubyLint.Proofs.Rules.Bare

/-!
# What the layout rules write

A run of the layout rules writes line breaks and parentheses.  Each line break is an insertion of
blanks, each closing parenthesis one after the last argument of a call, and each opening parenthesis
replaces the gap between a method and its arguments.  No call is reported twice for its arguments,
so the edits of a run fit together, and at every offset the opening parentheses are written before
the closing ones.
-/

namespace RubyLint.Layout

open Cursor Ruby Edit Dispatcher

variable {top c d first first' last last' list list' m m' : Cursor}

/-! ## Reports -/

/-- An offense that the layout rules report in a tree. -/
inductive Reported (top : Cursor) (o : Offense) : Prop where
  | chain {c : Cursor} : Below top c → isCall c = true → ChainBreaks.Breaks c o → Reported top o
  | wrap {c first last : Cursor} : Below top c → isCall c = true →
      (arguments c).head? = some first → (arguments c).getLast? = some last →
      WrapArguments.Wraps c first last o → Reported top o

/-- The offenses of a run of the layout rules.  No call is reported twice for its arguments. -/
structure Run (top : Cursor) (offenses : List Offense) : Prop where
  reported : ∀ o ∈ offenses, Reported top o
  once : offenses.Pairwise fun o o' =>
    o.rule = WrapArguments.info.id → o'.rule = WrapArguments.info.id →
      ¬(o.start = o'.start ∧ o.stop = o'.stop)

/-- The run of a rule at one call, which alone it reports for its arguments. -/
structure RunAt (top c : Cursor) (rule : String) (offenses : List Offense) : Prop
    extends Run top offenses where
  own : ∀ o ∈ offenses, o.rule = WrapArguments.info.id → rule = WrapArguments.info.id ∧
    (∃ first, (arguments c).head? = some first) ∧ o.start = c.node.start ∧ o.stop = sendEnd c

theorem ids_ne : ChainBreaks.info.id ≠ WrapArguments.info.id := by
  decide

theorem runAt_of_call [Machine] {p : Participant} (hp : p.1 ∈ rules) (hinfo : p.2.info = p.1.info)
    (memory : Memory) (hc : Below top c) (hcall : isCall c = true) :
    RunAt top c p.id (p.call memory c).offenses := by
  obtain ⟨rule, ctx⟩ := p
  have hinfo : ({ ctx with memory } : Context Memory).info = rule.info := hinfo
  simp only [Participant.call]
  generalize ({ ctx with memory } : Context Memory) = ctx' at hinfo ⊢
  simp only [rules, List.mem_cons, List.not_mem_nil, or_false] at hp
  rcases hp with rfl | rfl
  · have hbreaks : ∀ o ∈ (ChainBreaks.rule.visit ctx' c).offenses, ChainBreaks.Breaks c o :=
      ChainBreaks.visit_breaks hinfo c
    have hother : ∀ o ∈ (ChainBreaks.rule.visit ctx' c).offenses, o.rule ≠ WrapArguments.info.id :=
      fun o ho => (hbreaks o ho).rule ▸ ids_ne
    refine ⟨⟨fun o ho => .chain hc hcall (hbreaks o ho), ?_⟩, fun o ho hrule => ?_⟩
    · apply List.pairwise_of_forall_mem_list
      intro o ho _ _ hrule
      exact absurd hrule (hother o ho)
    · exact absurd hrule (hother o ho)
  · have hvisit : WrapArguments.rule.visit ctx' c = WrapArguments.visit ctx' c := rfl
    rw [hvisit]
    rcases WrapArguments.visit_reports hinfo c with
      hnone | ⟨first, last, o, hfirst, hlast, hone, hwraps⟩
    · rw [hnone]
      exact ⟨⟨by simp, .nil⟩, by simp⟩
    · rw [hone]
      refine ⟨⟨?_, List.pairwise_singleton _ _⟩, ?_⟩
      · intro o' ho'
        obtain rfl := List.mem_singleton.1 ho'
        exact .wrap hc hcall hfirst hlast hwraps
      · intro o' ho' _
        obtain rfl := List.mem_singleton.1 ho'
        exact ⟨rfl, ⟨first, hfirst⟩, hwraps.start, hwraps.stop⟩

/-- Under any configuration the layout rules make a run. -/
theorem run_of_investigate [Machine] {config : Option Config} {document : Document}
    {dispatcher : Dispatcher} {i : Investigation} (htop : Proper document.top)
    (hd : ofRules rules config = .ok dispatcher) (hi : dispatcher.investigate document = .ok i) :
    Run document.top i.offenses := by
  obtain rfl : dispatcher = ⟨.ofEntries (rules.map fun rule => ⟨rule, none⟩), config, none⟩ :=
    Except.ok.inj (hd.symm.trans rfl)
  obtain ⟨participants, htakes⟩ := exists_takes hi
  have hrules : participants.map (·.1) = rules := htakes.rules
  have hrule : ∀ p ∈ participants, p.1 ∈ rules := fun p hp => hrules ▸ List.mem_map_of_mem hp
  have hids : (participants.map (·.id)).Nodup := by
    have hmap : participants.map (·.id) = (participants.map (·.1)).map (·.info.id) := by
      rw [List.map_map]
      rfl
    rw [hmap, hrules]
    exact rules_ids
  obtain ⟨i', hi', hoffenses, -⟩ := htakes.investigate rfl hids rules_finish
  obtain rfl := Except.ok.inj (hi.symm.trans hi')
  have hcalls : ∀ k ∈ calls participants document, Below document.top k.place ∧
      isCall k.place = true ∧
        RunAt document.top k.place k.participant.id k.outcome.offenses := by
    intro k hk
    obtain ⟨hp, hplace, hkind, memory, houtcome⟩ := of_mem_calls hk
    have hc := mem_nodes_iff.1 hplace
    have hcall : isCall k.place = true := by
      rw [rules_kinds _ (hrule _ hp), List.mem_singleton] at hkind
      simpa [isCall] using hkind
    obtain ⟨logs, hctx⟩ := htakes.contexts _ hp
    rw [houtcome]
    exact ⟨hc, hcall, runAt_of_call (hrule _ hp) (context_info hctx) memory hc hcall⟩
  rw [hoffenses]
  constructor
  · intro o ho
    obtain ⟨k, hk, ho⟩ := List.mem_flatMap.1 ho
    exact (hcalls k hk).2.2.reported o ho
  · rw [List.pairwise_flatMap]
    refine ⟨fun k hk => (hcalls k hk).2.2.once, ?_⟩
    have honce : ∀ p ∈ participants, ∀ kind, p.1.info.kinds.count kind ≤ 1 := by
      intro p hp kind
      rw [rules_kinds _ (hrule p hp), List.count_singleton]
      split <;> omega
    -- Two reports of one range come from one call, and no rule is called twice at a place.
    apply (calls_pairwise hids honce).imp_of_mem
    intro k k' hk hk' hplaces o ho o' ho' hruleO hruleO'
    obtain ⟨hc, hcall, hown⟩ := hcalls k hk
    obtain ⟨hc', hcall', hown'⟩ := hcalls k' hk'
    obtain ⟨hid, ⟨first, hfirst⟩, hstart, hstop⟩ := hown.own o ho hruleO
    obtain ⟨hid', ⟨first', hfirst'⟩, hstart', hstop'⟩ := hown'.own o' ho' hruleO'
    rintro ⟨hsameStart, hsameStop⟩
    apply hplaces (hid.trans hid'.symm)
    exact eq_of_sendRange_eq htop hc hcall hfirst hc' hcall' hfirst' (by omega) (by omega)

/-! ## Edits -/

theorem ink_opening (start stop : Int) : (⟨start, stop, "("⟩ : Edit).ink = [40] := by
  change inked (Utf8.encode "(") = [40]
  decide

theorem ink_closing (start stop : Int) : (⟨start, stop, ")"⟩ : Edit).ink = [41] := by
  change inked (Utf8.encode ")") = [41]
  decide

/-- A line break is blank. -/
theorem inked_break (count : Nat) :
    inked (Utf8.encode ("\n" ++ String.ofList (List.replicate count ' '))) = [] := by
  have hspaces : inked (Utf8.encodeChars (List.replicate count ' ')) = [] := by
    induction count with
    | zero => rfl
    | succ count ih =>
        have hspace : inked (Utf8.encodeChars [' ']) = [] := by decide
        rw [List.replicate_succ, ← List.singleton_append, Utf8.encodeChars_append, inked_append,
          hspace, ih]
        rfl
  have hnewline : inked (Utf8.encodeChars ['\n']) = [] := by decide
  have htext : ("\n" ++ String.ofList (List.replicate count ' ')).toList =
      ['\n'] ++ List.replicate count ' ' := by
    simp
  rw [Utf8.encode, htext, Utf8.encodeChars_append, inked_append, hnewline, hspaces]
  rfl

variable {data : List UInt8} {offenses : List Offense} {o o' : Offense} {e e' : Edit}

/-- What an edit writes besides blanks is a parenthesis, if anything. -/
def Parenthetic (e : Edit) : Prop :=
  e.ink = [] ∨ e.ink = [40] ∨ e.ink = [41]

namespace Parenthetic

theorem single (h : Parenthetic e) : e.ink.Pairwise (· ≤ ·) := by
  rcases h with hink | hink | hink
  · rw [hink]
    exact .nil
  · rw [hink]
    exact List.pairwise_singleton _ _
  · rw [hink]
    exact List.pairwise_singleton _ _

/-- An opening parenthesis is the least byte that is written. -/
theorem least (h : Parenthetic e) {x y : UInt8} (hx : x ∈ [40]) (hy : y ∈ e.ink) : x ≤ y := by
  rw [List.mem_singleton] at hx
  rcases h with hink | hink | hink
  · simp [hink] at hy
  · rw [hink, List.mem_singleton] at hy
    exact UInt8.le_of_eq (hx.trans hy.symm)
  · rw [hink, List.mem_singleton] at hy
    rw [hx, hy]
    decide

/-- Two edits come in ascending order unless a closing parenthesis is inserted before an opening
one. -/
theorem ascending (h : Parenthetic e) (h' : Parenthetic e')
    (hapart : e.ink = [41] → e'.ink = [40] → e'.isInsertion = true → e.start ≠ e'.start) :
    Ascending e e' := by
  intro _ hinsertion hstart x hx y hy
  rcases h with hink | hink | hink
  · simp [hink] at hx
  · exact h'.least (hink ▸ hx) hy
  · rcases h' with hink' | hink' | hink'
    · simp [hink'] at hy
    · exact absurd hstart (hapart hink hink' hinsertion)
    · rw [hink, List.mem_singleton] at hx
      rw [hink', List.mem_singleton] at hy
      exact UInt8.le_of_eq (hx.trans hy.symm)

end Parenthetic

def WrapsBare (top c : Cursor) (o : Offense) : Prop :=
  ∃ m list first last, Bare top c m list first last ∧ WrapArguments.Wraps c first last o

/-- The edits that put the arguments of a call between parentheses. -/
theorem Bare.edits (h : Bare top c m list first last)
    (hwraps : WrapArguments.Wraps c first last o) :
    ∃ indent, inked (Utf8.encode indent) = [] ∧
      o.edits = [⟨m.node.stop, first.node.start, "("⟩, ⟨first.node.start, first.node.start, indent⟩,
        ⟨last.node.stop, last.node.stop, ")"⟩] := by
  obtain ⟨count, hedits⟩ := hwraps.edits
  refine ⟨_, inked_break count, ?_⟩
  rw [hedits, WrapArguments.wrap, h.bare, h.method]
  rfl

/-- What the layout rules write in a tree: line breaks and parentheses. -/
inductive Written (top : Cursor) : Edit → Prop where
  | blank {e : Edit} : LayoutEdit top e → e.isInsertion = true → e.ink = [] → Written top e
  | opening {c m list first last : Cursor} : Bare top c m list first last →
      Written top ⟨m.node.stop, first.node.start, "("⟩
  | closing {c m list first last : Cursor} : Bare top c m list first last →
      Written top ⟨last.node.stop, last.node.stop, ")"⟩

namespace Written

theorem layout (h : Written top e) : LayoutEdit top e := by
  cases h with
  | blank hlayout => exact hlayout
  | opening h => exact .gap h.below h.isCall h.toGap
  | closing h =>
      exact .edge _ (.argument h.below h.isCall (List.mem_of_getLast? h.isLast)) (.inr rfl)

theorem parenthetic (h : Written top e) : Parenthetic e := by
  cases h with
  | blank _ _ hink => exact .inl hink
  | opening => exact .inr (.inl (ink_opening _ _))
  | closing => exact .inr (.inr (ink_closing _ _))

theorem ascending (h : Written top e) (h' : Written top e')
    (hapart : e.ink = [41] → e'.ink = [40] → e'.isInsertion = true → e.start ≠ e'.start) :
    Ascending e e' :=
  h.parenthetic.ascending h'.parenthetic hapart

theorem replacement (h : Written top e) (hreplace : e.isInsertion = false) :
    ∃ c m list first last, Bare top c m list first last ∧
      e = ⟨m.node.stop, first.node.start, "("⟩ := by
  cases h with
  | blank _ hinsertion => simp [hinsertion] at hreplace
  | @opening c m list first last h => exact ⟨c, m, list, first, last, h, rfl⟩
  | closing => simp [isInsertion] at hreplace

theorem ink_of_replacement (h : Written top e) (hreplace : e.isInsertion = false) :
    e.ink = [40] := by
  obtain ⟨_, _, _, _, _, -, rfl⟩ := h.replacement hreplace
  exact ink_opening _ _

end Written

/-- Two edits that keep their order at every offset and do not replace ranges that start
together. -/
structure Apart (e e' : Edit) : Prop where
  ascending : Ascending e e'
  starts : e.isInsertion = false → e'.isInsertion = false → e.start ≠ e'.start

/-- Line breaks are apart from whatever follows them. -/
theorem Written.apart_of_blank (h : Written top e) (h' : Written top e')
    (hinsertion : e.isInsertion = true) (hink : e.ink = []) : Apart e e' where
  ascending := h.ascending h' (by simp [hink])
  starts := by simp [hinsertion]

/-- A report asks for line breaks alone, or it wraps a call without parentheses. -/
theorem Reported.cases (h : Reported top o) (htop : Spaced data top) :
    (∀ e ∈ o.edits, LayoutEdit top e ∧ e.isInsertion = true ∧ e.ink = []) ∨
      ∃ c, WrapsBare top c o := by
  cases h with
  | chain hc hcall hbreaks =>
      refine .inl fun e he => ?_
      obtain ⟨link, op, count, hlink, hop, rfl⟩ := hbreaks.edits e he
      have hanchor : Anchor top op :=
        .part (hc.trans hlink.descends) (hlink.isCall hcall) (by decide) hop
      exact ⟨.edge _ hanchor (.inl rfl), by simp [isInsertion], inked_break count⟩
  | @wrap c first last hc hcall hfirst hlast hwraps =>
      cases hbare : isParenthesized c with
      | false =>
          obtain ⟨m, list, hbare⟩ := htop.exists_bare hc hcall hbare hfirst hlast
          exact .inr ⟨c, m, list, first, last, hbare, hwraps⟩
      | true =>
          refine .inl fun e he => ?_
          obtain ⟨count, hedits⟩ := hwraps.edits
          rw [hedits, WrapArguments.wrap, hbare] at he
          obtain rfl := List.mem_singleton.1 he
          have hanchor : Anchor top first := .argument hc hcall (List.mem_of_head? hfirst)
          exact ⟨.edge _ hanchor (.inl rfl), by simp [isInsertion], inked_break count⟩

theorem Bare.written (h : Bare top c m list first last)
    (hwraps : WrapArguments.Wraps c first last o) (he : e ∈ o.edits) : Written top e ∧
      (e.ink = [40] → e = ⟨m.node.stop, first.node.start, "("⟩) ∧
      (e.ink = [41] → e = ⟨last.node.stop, last.node.stop, ")"⟩) := by
  obtain ⟨indent, hindent, hedits⟩ := h.edits hwraps
  rw [hedits] at he
  simp only [List.mem_cons, List.not_mem_nil, or_false] at he
  rcases he with rfl | rfl | rfl
  · exact ⟨.opening h, fun _ => rfl, by simp [ink_opening]⟩
  · have hink : (⟨first.node.start, first.node.start, indent⟩ : Edit).ink = [] := hindent
    have hanchor : Anchor top first := .argument h.below h.isCall (List.mem_of_head? h.first)
    refine ⟨.blank (.edge _ hanchor (.inl rfl)) (by simp [isInsertion]) hink, ?_, ?_⟩
    · simp [hink]
    · simp [hink]
  · exact ⟨.closing h, by simp [ink_closing], fun _ => rfl⟩

theorem Reported.written (h : Reported top o) (htop : Spaced data top) :
    ∀ e ∈ o.edits, Written top e := by
  intro e he
  rcases h.cases htop with hblank | ⟨c, m, list, first, last, hbare, hwraps⟩
  · obtain ⟨hlayout, hinsertion, hink⟩ := hblank e he
    exact .blank hlayout hinsertion hink
  · exact (hbare.written hwraps he).1

/-- The edits that wrap different calls are apart. -/
theorem Bare.apart (h : Bare top c m list first last) (h' : Bare top d m' list' first' last')
    (hwraps : WrapArguments.Wraps c first last o) (hwraps' : WrapArguments.Wraps d first' last' o')
    (htop : Proper top) (hne : c ≠ d) (he : e ∈ o.edits) (he' : e' ∈ o'.edits) : Apart e e' := by
  obtain ⟨hwritten, hopening, hclosing⟩ := h.written hwraps he
  obtain ⟨hwritten', hopening', -⟩ := h'.written hwraps' he'
  constructor
  · apply hwritten.ascending hwritten'
    intro hink hink' hinsertion hstart
    obtain rfl := hclosing hink
    obtain rfl := hopening' hink'
    have hgap := isInsertion_iff.1 hinsertion
    simp only at hgap hstart
    exact h.last_stop_ne h' htop hne (by omega) (by omega)
  · intro hreplace hreplace' hstart
    obtain rfl := hopening (hwritten.ink_of_replacement hreplace)
    obtain rfl := hopening' (hwritten'.ink_of_replacement hreplace')
    simp only at hstart
    exact h.method_stop_ne h' htop hne (by omega)

/-- Two reports that do not wrap the same call have their edits apart. -/
theorem Reported.apart (h : Reported top o) (h' : Reported top o') (htop : Spaced data top)
    (honce : o.rule = WrapArguments.info.id → o'.rule = WrapArguments.info.id →
      ¬(o.start = o'.start ∧ o.stop = o'.stop))
    (he : e ∈ o.edits) (he' : e' ∈ o'.edits) : Apart e e' := by
  have hwritten := h.written htop e he
  have hwritten' := h'.written htop e' he'
  rcases h.cases htop with hblank | ⟨c, m, list, first, last, hbare, hwraps⟩
  · obtain ⟨-, hinsertion, hink⟩ := hblank e he
    exact hwritten.apart_of_blank hwritten' hinsertion hink
  rcases h'.cases htop with hblank | ⟨d, m', list', first', last', hbare', hwraps'⟩
  · obtain ⟨-, hinsertion, hink⟩ := hblank e' he'
    exact ⟨hwritten.ascending hwritten' (by simp [hink]), by simp [hinsertion]⟩
  have hne : c ≠ d := by
    rintro rfl
    exact honce hwraps.rule hwraps'.rule
      ⟨hwraps.start.trans hwraps'.start.symm, hwraps.stop.trans hwraps'.stop.symm⟩
  exact hbare.apart hbare' hwraps hwraps' htop.toProper hne he he'

theorem Reported.apart_within (h : Reported top o) (htop : Spaced data top) :
    o.edits.Pairwise Apart := by
  have hwritten := h.written htop
  rcases h.cases htop with hblank | ⟨c, m, list, first, last, hbare, hwraps⟩
  · apply List.pairwise_of_forall_mem_list
    intro e he e' he'
    obtain ⟨-, hinsertion, hink⟩ := hblank e he
    exact (hwritten e he).apart_of_blank (hwritten e' he') hinsertion hink
  · obtain ⟨indent, hindent, hedits⟩ := hbare.edits hwraps
    rw [hedits] at hwritten ⊢
    have hopening := hwritten _ List.mem_cons_self
    have hbreak := hwritten _ (List.mem_cons_of_mem _ List.mem_cons_self)
    have hclosing := hwritten ⟨last.node.stop, last.node.stop, ")"⟩ (by simp)
    refine .cons ?_ (.cons ?_ (List.pairwise_singleton _ _))
    · refine List.forall_mem_cons.2 ⟨?_, List.forall_mem_singleton.2 ?_⟩
      · exact ⟨hopening.ascending hbreak (by simp [ink_opening]), by simp [isInsertion]⟩
      · exact ⟨hopening.ascending hclosing (by simp [ink_opening]), by simp [isInsertion]⟩
    · refine List.forall_mem_singleton.2 ?_
      exact hbreak.apart_of_blank hclosing (by simp [isInsertion]) hindent

namespace Run

variable (h : Run top offenses) (htop : Spaced data top)

include h htop

theorem written : ∀ e ∈ offenses.flatMap (·.edits), Written top e := by
  intro e he
  obtain ⟨o, ho, he⟩ := List.mem_flatMap.1 he
  exact (h.reported o ho).written htop e he

theorem pairwise : (offenses.flatMap (·.edits)).Pairwise Apart := by
  rw [List.pairwise_flatMap]
  refine ⟨fun o ho => (h.reported o ho).apart_within htop, ?_⟩
  apply h.once.imp_of_mem
  intro o o' ho ho' honce e he e' he'
  exact (h.reported o ho).apart (h.reported o' ho') htop honce he he'

theorem ordered : Ordered (offenses.flatMap (·.edits)) := by
  have hwritten := h.written htop
  refine ⟨fun e he => (hwritten e he).parenthetic.single, ?_, (h.pairwise htop).imp Apart.ascending⟩
  intro g hg hreplace e he x hx y hy
  rw [(hwritten g hg).ink_of_replacement hreplace] at hx
  exact (hwritten e he).parenthetic.least hx hy

theorem movable (hsize : top.node.stop ≤ data.length) :
    Movable data (offenses.flatMap (·.edits)) := by
  have hwritten := h.written htop
  refine ⟨fun e he => ?_, fun g hg hreplace e he => ?_, ?_, fun g hg i hcovers => ?_⟩
  · exact (hwritten e he).layout.not_misplaced htop.toShaped hsize
  · obtain ⟨c, m, list, first, last, hbare, rfl⟩ := (hwritten g hg).replacement hreplace
    have := (hwritten e he).layout.edge_outside htop.toShaped hbare.below hbare.isCall hbare.toGap
    simp only
    omega
  · exact (h.pairwise htop).imp Apart.starts
  · obtain ⟨hreplace, hlow, hhigh⟩ := covers_iff.1 hcovers
    obtain ⟨c, m, list, first, last, hbare, rfl⟩ := (hwritten g hg).replacement hreplace
    simp only at hlow hhigh
    exact htop.blank hbare (by omega) (by omega)

end Run

/-! ## Corrections -/

/-- The offenses of a run that a correction applies make a run as well. -/
theorem Run.applied (h : Run top offenses) (ranks : Finding.Ranks) :
    Run top ((Correction.toApply ranks (Finding.number offenses)).map (·.offense)) := by
  constructor
  · intro o ho
    obtain ⟨f, hf, rfl⟩ := List.mem_map.1 ho
    have hmem := List.mem_map_of_mem (f := (·.offense)) (Correction.mem_toApply.1 hf).1
    rw [Finding.map_offense_number] at hmem
    exact h.reported _ hmem
  · have honce := h.once
    rw [← Finding.map_offense_number offenses, List.pairwise_map] at honce
    rw [List.pairwise_map]
    apply List.Pairwise.filter
    rw [(Correction.byRule_perm ranks _).pairwise_iff]
    · exact honce
    · intro f g hfg hg hf hsame
      exact hfg hf hg ⟨hsame.1.symm, hsame.2.symm⟩

theorem Run.layout (h : Run top offenses) (htop : Spaced data top) (ranks : Finding.Ranks)
    (he : e ∈ (Correction.toApply ranks (Finding.number offenses)).flatMap (·.offense.edits)) :
    LayoutEdit top e :=
  (h.written htop e ((Correction.flatMap_toApply_perm ranks offenses).mem_iff.1 he)).layout

/-- The edits of a correction fit together. -/
theorem Run.fit {text : String} (h : Run top offenses) (htop : Spaced data top)
    (hsize : top.node.stop ≤ (Utf8.encode text).length) (ranks : Finding.Ranks) :
    Fit text ((Correction.toApply ranks (Finding.number offenses)).flatMap (·.offense.edits)) := by
  constructor
  · intro e he
    exact (h.layout htop ranks he).not_misplaced htop.toShaped hsize
  · intro a ha b hb
    exact (h.layout htop ranks ha).not_overlap (h.layout htop ranks hb) htop.toShaped

end RubyLint.Layout
