import RubyLint.Proofs.Rules.Composition
import RubyLint.Proofs.Rules.Reparsed

/-!
# One pass of corrections

The layout rules need one pass.  If none of their calls fails, the edits that they report are
exactly those that make up a correction of the document, and in the tree of the corrected text they
find nothing more to report.
-/

namespace RubyLint.Layout

open Cursor Ruby Edit Dispatcher

def rules [Machine] : List (Rule Memory) :=
  [ChainBreaks.rule, WrapArguments.rule]

theorem rules_ids [Machine] : (rules.map (·.info.id)).Nodup := by
  change [ChainBreaks.info.id, WrapArguments.info.id].Nodup
  decide

theorem rules_kinds [Machine] : ∀ rule ∈ rules, rule.info.kinds = ["call"] := by
  simp only [rules, List.forall_mem_cons]
  exact ⟨rfl, rfl, by simp⟩

theorem rules_finish [Machine] : ∀ rule ∈ rules, rule.finish = none := by
  simp only [rules, List.forall_mem_cons]
  exact ⟨rfl, rfl, by simp⟩

/-- The list that a rule reads from one of its options under a configuration. -/
def listOption (config : Option Config) (document : Document) (rule : Rule Memory)
    (name : String) : Except ValueFault (List Value) := do
  let (ctx, _) ← context config document rule
  (ctx.option name .null).members

/-- The contexts of the layout rules on a document, and what they read from their options there. -/
structure Crew [Machine] (config : Option Config) (w w' : Int) (operators allowed : List Value)
    (document : Document) (chain wrap : Context Memory) : Prop where
  chainContext : ∃ logs, context config document ChainBreaks.rule = .ok (chain, logs)
  wrapContext : ∃ logs, context config document WrapArguments.rule = .ok (wrap, logs)
  chain : ChainBreaks.Setup chain document w operators
  wrap : WrapArguments.Setup wrap document w' allowed

variable {config : Option Config} {document : Document} {w w' : Int} {width : Nat}
variable {operators allowed : List Value} {chain wrap : Context Memory} {edits : List Edit}
variable {d : Dispatcher} {k : Call}

def participants [Machine] (chain wrap : Context Memory) : List Participant :=
  [(ChainBreaks.rule, chain), (WrapArguments.rule, wrap)]

/-- Under a typed configuration the layout rules read the same from their options on every
document. -/
theorem exists_crew [Machine] (hconfig : ∀ rule ∈ rules, ∀ c ∈ config, c.Typed width rule.info.id)
    (hallowed : listOption config document WrapArguments.rule "AllowedMethods" = .ok allowed) :
    ∃ w w' operators, ∀ document, ∃ chain wrap,
      Crew config w w' operators allowed document chain wrap := by
  have hwidth : 2 ≤ max 2 width := Nat.le_max_left _ _
  have htyped := fun rule (hrule : rule ∈ rules) c hc =>
    (hconfig rule hrule c hc).mono (Nat.le_max_right 2 width)
  obtain ⟨options, severity, logs, hoptions, hchain⟩ :=
    exists_context ChainBreaks.rule (htyped _ (by simp [rules]))
      (Shipped.rules_defaults hwidth _ (by simp [Shipped.rules]))
  obtain ⟨options', severity', logs', hoptions', hwrap⟩ :=
    exists_context WrapArguments.rule (htyped _ (by simp [rules]))
      (Shipped.rules_defaults hwidth _ (by simp [Shipped.rules]))
  have hready : (⟨document, ChainBreaks.info, options, severity, {}⟩ : Context Memory).Ready
      (max 2 width) document ChainBreaks.info := ⟨rfl, rfl, hoptions⟩
  have hready' : (⟨document, WrapArguments.info, options', severity', {}⟩ : Context Memory).Ready
      (max 2 width) document WrapArguments.info := ⟨rfl, rfl, hoptions'⟩
  obtain ⟨w, hw, -⟩ := hready.width_option hwidth
  obtain ⟨words, -, hwords⟩ := hready.words_option "OperatorMethods" (by decide)
  obtain ⟨w', hw', -⟩ := hready'.width_option hwidth
  rw [listOption, hwrap document] at hallowed
  exact ⟨w, w', words.map .str, fun document =>
    ⟨_, _, ⟨logs, hchain document⟩, ⟨logs', hwrap document⟩, ⟨rfl, rfl, hw, hwords⟩,
      ⟨rfl, rfl, hw', hallowed⟩⟩⟩

namespace Crew

variable [Machine] (h : Crew config w w' operators allowed document chain wrap)

include h

/-- The calls of a run of the layout rules. -/
theorem investigate (hd : ofRules rules config = .ok d) :
    ∃ i, d.investigate document = .ok i ∧
      i.offenses = (calls (participants chain wrap)
        document).flatMap (·.outcome.offenses) ∧
      i.failures = (calls (participants chain wrap)
        document).filterMap (Call.failure? document) := by
  obtain rfl : d = ⟨.ofEntries (rules.map fun rule => ⟨rule, none⟩), config, none⟩ :=
    Except.ok.inj (hd.symm.trans rfl)
  refine Takes.investigate ⟨rfl, ?_⟩ rfl rules_ids rules_finish
  exact List.forall_mem_cons.2 ⟨h.chainContext, List.forall_mem_cons.2 ⟨h.wrapContext, by simp⟩⟩

omit h in
/-- A call of a run is made at a call of the document, by one of the two rules. -/
theorem call_cases (hk : k ∈ calls (participants chain wrap) document) :
    Below document.top k.place ∧ isCall k.place = true ∧ ∃ memory,
      (k.outcome = ChainBreaks.visit { chain with memory } k.place ∨
        k.outcome = WrapArguments.visit { wrap with memory } k.place) := by
  obtain ⟨hp, hplace, hkind, memory, houtcome⟩ := of_mem_calls hk
  simp only [participants, List.mem_cons, List.not_mem_nil, or_false] at hp
  refine ⟨mem_nodes_iff.1 hplace, ?_, memory, ?_⟩
  · rcases hp with hp | hp
    · rw [hp] at hkind
      simpa [isCall] using List.mem_singleton.1 hkind
    · rw [hp] at hkind
      simpa [isCall] using List.mem_singleton.1 hkind
  · rcases hp with hp | hp
    · exact .inl (houtcome.trans (by rw [hp]; rfl))
    · exact .inr (houtcome.trans (by rw [hp]; rfl))

/-- Calls ask for the edits of corrections and fail only over an indentation that is too wide. -/
theorem requested (htop : Shaped document.top) (hk : k ∈ calls (participants chain wrap) document) :
    (∀ o ∈ k.outcome.offenses, ∀ e ∈ o.edits,
        Requested document.toSource operators allowed document.top e) ∧
      ∀ f, k.outcome.fault = some f → ∃ v ∈ Value.widthFaults, f = .value v := by
  obtain ⟨hc, hcall, memory, hvisit | hvisit⟩ := call_cases hk
  · rcases ChainBreaks.visit_cases (h.chain.remember memory) hcall
      (fun x hx => htop.calls x (hc.trans hx)) (htop.orderly.below hc) with
      ⟨-, hquiet⟩ | ⟨hspread, -, ⟨fault, hblanks, hfail⟩ | ⟨os, blanks, -, hok, hsound, -⟩⟩
    · simp [hvisit, hquiet, Outcome.quiet]
    · simp [hvisit, hfail, Outcome.fail, Value.blanks_int_error hblanks]
    · rw [hvisit, hok]
      refine ⟨fun o ho e he => ?_, by simp⟩
      obtain ⟨link, hlink, op, hop, hlist⟩ := hsound o ho
      rw [hlist, List.mem_singleton] at he
      exact he ▸ .chain blanks hc hcall hspread hlink hop
  · rcases WrapArguments.visit_cases (h.wrap.remember memory) (htop.calls _ hc hcall)
      (htop.orderly.below hc) with
      ⟨-, hquiet⟩ | ⟨first, last, list, n, hdue, -,
        ⟨fault, hblanks, hfail⟩ | ⟨o, blanks, -, hlist, hok⟩⟩
    · simp [hvisit, hquiet, Outcome.quiet]
    · simp [hvisit, hfail, Outcome.fail, Value.blanks_int_error hblanks]
    · rw [hvisit, hok]
      refine ⟨fun o' ho e he => ?_, by simp⟩
      obtain rfl := List.mem_singleton.1 ho
      exact .wrap blanks hc hcall hdue (hlist ▸ he)

/-- If no call fails, the edits of the calls correct the document. -/
theorem corrects (htop : Shaped document.top)
    (hfault : ∀ k ∈ calls (participants chain wrap) document, k.outcome.fault = none)
    (hedits : ∀ e, e ∈ edits ↔ ∃ k ∈ calls (participants chain wrap) document,
      ∃ o ∈ k.outcome.offenses, e ∈ o.edits) :
    Corrects document.toSource operators allowed document.top edits := by
  refine ⟨fun e he => ?_, fun c first last list hc hcall hdue => ?_,
    fun c link hc hcall hspread hlink => ?_⟩
  · obtain ⟨k, hk, o, ho, he⟩ := (hedits e).1 he
    exact (h.requested htop hk).1 o ho e he
  · have hp : (WrapArguments.rule, wrap) ∈ participants chain wrap := by simp [participants]
    obtain ⟨k, hk, memory, hvisit⟩ :=
      exists_mem_calls hp (mem_nodes_iff.2 hc) (List.mem_singleton.2 (beq_iff_eq.1 hcall))
    have hvisit : k.outcome = WrapArguments.visit { wrap with memory } c := hvisit
    have hnone := hfault k hk
    rcases WrapArguments.visit_cases (h.wrap.remember memory) (htop.calls c hc hcall)
      (htop.orderly.below hc) with
      ⟨hquiet, -⟩ | ⟨first', last', list', n, hdue', -,
        ⟨fault, -, hfail⟩ | ⟨o, blanks, -, hlist, hok⟩⟩
    · exact absurd hdue (hquiet first last list)
    · simp [hvisit, hfail, Outcome.fail] at hnone
    · obtain rfl := Option.some.inj (hdue.isFirst.symm.trans hdue'.isFirst)
      obtain rfl := Option.some.inj (hdue.isLast.symm.trans hdue'.isLast)
      exact ⟨blanks, fun e he => (hedits e).2 ⟨k, hk, o, by simp [hvisit, hok], hlist ▸ he⟩⟩
  · have hp : (ChainBreaks.rule, chain) ∈ participants chain wrap := by simp [participants]
    obtain ⟨k, hk, memory, hvisit⟩ :=
      exists_mem_calls hp (mem_nodes_iff.2 hc) (List.mem_singleton.2 (beq_iff_eq.1 hcall))
    have hvisit : k.outcome = ChainBreaks.visit { chain with memory } c := hvisit
    have hnone := hfault k hk
    rcases ChainBreaks.visit_cases (h.chain.remember memory) hcall
      (fun x hx => htop.calls x (hc.trans hx)) (htop.orderly.below hc) with
      ⟨hquiet | hquiet, -⟩ | ⟨-, -, ⟨fault, -, hfail⟩ | ⟨os, blanks, -, hok, -, hall⟩⟩
    · exact absurd hspread hquiet
    · simp [hquiet] at hlink
    · simp [hvisit, hfail, Outcome.fail] at hnone
    · obtain ⟨o, ho, op, hop, hlist⟩ := hall link hlink
      exact ⟨op, blanks, hop, (hedits _).2 ⟨k, hk, o, by simp [hvisit, hok, ho], by simp [hlist]⟩⟩

/-- If nothing is due and nothing is flagged, the calls do nothing. -/
theorem calls_quiet
    (hdue : ∀ c, Below document.top c → isCall c = true → ∀ first last list,
      ¬WrapArguments.Due document.toSource allowed c first last list)
    (hflagged : ∀ c, Below document.top c → isCall c = true →
      ChainBreaks.Spread document.toSource c →
        ChainBreaks.flagged document.toSource operators c = [])
    (hk : k ∈ calls (participants chain wrap) document) :
    k.outcome.offenses = [] ∧ k.outcome.fault = none := by
  obtain ⟨hc, hcall, memory, hvisit | hvisit⟩ := call_cases hk
  · have hsetup := h.chain.remember memory
    by_cases hspread : ChainBreaks.Spread document.toSource k.place
    · rw [hvisit, ChainBreaks.visit_spread hsetup hspread, hflagged _ hc hcall hspread]
      exact ⟨rfl, rfl⟩
    · have hquiet : ChainBreaks.visit { chain with memory } k.place = .quiet memory :=
        ChainBreaks.visit_quiet (by rwa [hsetup.document])
      rw [hvisit, hquiet]
      exact ⟨rfl, rfl⟩
  · have hsetup := h.wrap.remember memory
    have hquiet : WrapArguments.visit { wrap with memory } k.place = .quiet memory := by
      refine WrapArguments.visit_quiet hsetup.allowed fun first last list => ?_
      rw [hsetup.document]
      exact hdue _ hc hcall first last list
    rw [hvisit, hquiet]
    exact ⟨rfl, rfl⟩

end Crew

/-- One pass reaches a fixed point.  The layout rules run on every text with a tree of the right
shape and under every typed configuration, fail only over an indentation that is too wide to be
written, and never ask for edits that cannot be made together.  If none of their calls failed, then
they find nothing in the corrected text: whatever tree it is parsed into, as long as that is the old
one carried through the edits, with parentheses added where calls were wrapped. -/
theorem investigate_corrected [Machine] (path text : String) (root : Node) (document : Document)
    (config : Option Config) (width : Nat) (allowed : List Value)
    (hattach : Document.attach path text root = .ok document) (htop : Proper document.top)
    (hconfig : ∀ rule ∈ rules, ∀ c ∈ config, c.Typed width rule.info.id)
    (hallowed : listOption config document WrapArguments.rule "AllowedMethods" = .ok allowed) :
    ∃ d i, ofRules rules config = .ok d ∧ d.investigate document = .ok i ∧
      (∀ f ∈ i.failures, ∃ v ∈ Value.widthFaults, f.error = (RuleFault.value v).summary) ∧
      (∀ ranks fault, Correction.ofFindings ranks text i.findings ≠ .error (.edit fault)) ∧
      (i.failures = [] → ∀ ranks correction,
        Correction.ofFindings ranks text i.findings = .ok correction → ∀ r opening closing,
          r = reparse document.toSource allowed (correction.applied.flatMap (·.offense.edits))
            opening closing →
          (∀ y, Below (r.image document.top) y → y.node.start ≤ y.node.stop) →
            ∃ document' i', Document.attach path correction.text (r.image document.top).node =
                .ok document' ∧
              d.investigate document' = .ok i' ∧ i'.offenses = [] ∧ i'.failures = []) := by
  obtain ⟨rfl, hstop⟩ := Document.attach_eq_ok hattach
  set document : Document := ⟨Source.ofText path text, root, []⟩ with hdocument
  obtain ⟨w, w', operators, hcrew⟩ := exists_crew hconfig hallowed
  obtain ⟨chain, wrap, h⟩ := hcrew document
  obtain ⟨d, hd⟩ : ∃ d, ofRules rules config = .ok d := ⟨_, rfl⟩
  obtain ⟨i, hi, hoffenses, hfailures⟩ := h.investigate hd
  have hfound : ∀ e, (∃ f ∈ i.findings, e ∈ f.offense.edits) ↔
      ∃ k ∈ calls (participants chain wrap) document, ∃ o ∈ k.outcome.offenses, e ∈ o.edits := by
    intro e
    refine (Finding.exists_mem_number fun o => e ∈ o.edits).trans ?_
    simp only [hoffenses, List.mem_flatMap]
    constructor
    · rintro ⟨o, ⟨k, hk, ho⟩, he⟩
      exact ⟨k, hk, o, ho, he⟩
    · rintro ⟨k, hk, o, ho, he⟩
      exact ⟨o, ⟨k, hk, ho⟩, he⟩
  have hlayout : ∀ f ∈ i.findings, ∀ e ∈ f.offense.edits, LayoutEdit document.top e := by
    intro f hf e he
    obtain ⟨k, hk, o, ho, he⟩ := (hfound e).1 ⟨f, hf, he⟩
    exact ((h.requested htop.toShaped hk).1 o ho e he).layout
  have harranged := fun ranks => Correction.arrange_toApply text ranks
    (fun f hf e he => (hlayout f hf e he).not_misplaced htop.toShaped hstop)
    fun f hf a ha g hg b hb => (hlayout f hf a ha).not_overlap (hlayout g hg b hb) htop.toShaped
  refine ⟨d, i, hd, hi, fun f hf => ?_,
    fun ranks => Correction.ofFindings_ne_edit (harranged ranks),
    fun hnone ranks correction hok r opening closing hr hforward => ?_⟩
  · rw [hfailures] at hf
    obtain ⟨k, hk, hf⟩ := List.mem_filterMap.1 hf
    obtain ⟨fault, hfault, rfl⟩ := Option.map_eq_some_iff.1 hf
    obtain ⟨v, hv, rfl⟩ := (h.requested htop.toShaped hk).2 fault hfault
    exact ⟨v, hv, rfl⟩
  subst hr
  rw [hfailures, failures_eq_nil_iff] at hnone
  have hcorrects := h.corrects htop.toShaped hnone
    fun e => (Correction.mem_applied_iff hok).trans (hfound e)
  have hdata := Correction.encode_ofFindings (harranged ranks) hok
  set edits := correction.applied.flatMap (·.offense.edits)
  set r := reparse document.toSource allowed edits opening closing
  set document' : Document := ⟨Source.ofText path correction.text, (r.image document.top).node, []⟩
    with hdocument'
  have hcorrecting :
      Correcting r document.toSource document'.toSource operators allowed document.top
      edits :=
    { toCorrects := hcorrects
      solid := solid_of_forward hcorrects htop hforward
      root := rfl
      within := hstop
      lines := rfl
      data' := hdata
      lines' := rfl
      startOf := rfl
      stopOf := rfl
      wrapped := rfl }
  obtain ⟨chain', wrap', h'⟩ := hcrew document'
  obtain ⟨i', hi', hoffenses', hfailures'⟩ := h'.investigate hd
  have hquiet : ∀ k ∈ calls (participants chain' wrap') document',
      k.outcome.offenses = [] ∧ k.outcome.fault = none := by
    intro k hk
    refine h'.calls_quiet (fun y hy hcall => ?_) (fun y hy hcall => ?_) hk
    · obtain ⟨c, hc, hcall', rfl⟩ := r.exists_call hy hcall
      exact fun _ _ _ => hcorrecting.not_due_image hc hcall'
    · obtain ⟨c, hc, hcall', rfl⟩ := r.exists_call hy hcall
      exact hcorrecting.flagged_image hc hcall'
  refine ⟨document', i', ?_, hi', ?_, ?_⟩
  · have hreach : ¬document'.data.length < (r.image document.top).node.stop :=
      Nat.not_lt.2 hcorrecting.stop_image_le
    rw [Document.attach]
    exact if_neg hreach
  · rw [hoffenses', List.flatMap_eq_nil_iff]
    exact fun k hk => (hquiet k hk).1
  · rw [hfailures', failures_eq_nil_iff]
    exact fun k hk => (hquiet k hk).2

/-! ## Runs on small documents -/

/-- The edits that the layout rules report in a document, offense by offense, and their failures. -/
def reports [Machine] (config : Option Config) (document : Document) :
    Option (List (List Edit) × List Failure) := do
  let d ← (ofRules rules config).toOption
  let i ← (d.investigate document).toOption
  return (i.offenses.map (·.edits), i.failures)

theorem exists_of_reports [Machine] {found : List (List Edit)} {failures : List Failure}
    (h : reports config document = some (found, failures)) :
    ∃ d i, ofRules rules config = .ok d ∧ d.investigate document = .ok i ∧
      i.offenses.map (·.edits) = found ∧ i.failures = failures := by
  rw [reports] at h
  cases hd : ofRules rules config with
  | error fault => simp [hd, Except.toOption] at h
  | ok d =>
      cases hi : d.investigate document with
      | error fault => simp [hd, hi, Except.toOption] at h
      | ok i =>
          simp only [hd, hi, Except.toOption, Option.bind_eq_bind, Option.bind_some, pure,
            Option.some.injEq, Prod.mk.injEq] at h
          exact ⟨d, i, rfl, hi, h⟩

/-- The correction of a document in which the layout rules report one offense. -/
theorem ofFindings_of_reported {i : Investigation} (text corrected : String) {found : List Edit}
    (h : i.offenses.map (·.edits) = [found]) (hne : found ≠ [])
    (happly : ∀ owner, EditScript.apply ⟨text, found.map fun e => ⟨e, owner⟩⟩ = .ok corrected) :
    ∃ correction, Correction.ofFindings i.ranks text i.findings = .ok correction ∧
      correction.text = corrected ∧ correction.applied.flatMap (·.offense.edits) = found := by
  obtain ⟨o, hoffenses, rfl⟩ := List.map_eq_singleton_iff.1 h
  refine ⟨⟨corrected, [⟨0, o⟩]⟩, ?_, rfl, by simp⟩
  have hfindings : i.findings = [⟨0, o⟩] := by
    rw [Investigation.findings, hoffenses]
    rfl
  rw [hfindings, Correction.ofFindings_singleton hne, happly]
  rfl

def spreadEdits : List Edit :=
  [⟨3, 4, "("⟩, ⟨4, 4, "\n  "⟩, ⟨9, 9, ")"⟩]

/-- A call over two lines is wrapped in one pass, and a second one finds nothing. -/
theorem investigate_corrected_spread :
    ∃ d i correction r document' i', ofRules rules none = .ok d ∧
      d.investigate ⟨Source.ofText "a.rb" Shipped.spreadText, Shipped.spread, []⟩ = .ok i ∧
      i.failures = [] ∧
      Correction.ofFindings i.ranks Shipped.spreadText i.findings = .ok correction ∧
      correction.text = "foo(\n  a,\n b)" ∧
      r = reparse (Source.ofText "a.rb" Shipped.spreadText) []
        (correction.applied.flatMap (·.offense.edits)) (fun _ => (3, 4)) (fun _ => (12, 13)) ∧
      Document.attach "a.rb" correction.text (r.image (Cursor.root Shipped.spread)).node =
        .ok document' ∧
      d.investigate document' = .ok i' ∧ i'.offenses = [] := by
  set document : Document := ⟨Source.ofText "a.rb" Shipped.spreadText, Shipped.spread, []⟩
  have hreports : reports none document = some ([spreadEdits], []) := by decide +kernel
  obtain ⟨d, i, hd, hi, hfound, hfailures⟩ := exists_of_reports hreports
  obtain ⟨correction, hcorrection, htext, hedits⟩ := ofFindings_of_reported Shipped.spreadText
    "foo(\n  a,\n b)" hfound (by decide) fun owner => by cbv
  have hallowed : listOption none document WrapArguments.rule "AllowedMethods" = .ok [] := by cbv
  obtain ⟨d', i'', hd', hi'', -, -, hagain⟩ := investigate_corrected "a.rb" Shipped.spreadText
    Shipped.spread document none 2 [] rfl (by decide) (by simp) hallowed
  obtain rfl := Except.ok.inj (hd.symm.trans hd')
  obtain rfl := Except.ok.inj (hi.symm.trans hi'')
  obtain ⟨document', i', hattach, hi', hquiet, -⟩ := hagain hfailures i.ranks correction hcorrection
    _ (fun _ => (3, 4)) (fun _ => (12, 13)) rfl (by rw [hedits]; decide +kernel)
  exact ⟨d, i, correction, _, document', i', hd, hi, hfailures, hcorrection, htext, rfl, hattach,
    hi', hquiet⟩

/-- Two calls without parentheses, one behind the other; the arguments of the first one end at the
start of a line, where the second one starts. -/
def adjoining : Node :=
  ⟨"program", 0, 14, true, none, [
    ⟨"call", 1, 8, true, none, [⟨"identifier", 1, 2, true, some "method", []⟩,
      ⟨"argument_list", 3, 8, true, some "arguments", [⟨"identifier", 3, 4, true, none, []⟩,
        ⟨",", 4, 5, false, none, []⟩, ⟨"identifier", 6, 8, true, none, []⟩]⟩]⟩,
    ⟨"call", 8, 14, true, none, [⟨"identifier", 8, 9, true, some "method", []⟩,
      ⟨"argument_list", 10, 14, true, some "arguments", [⟨"identifier", 10, 11, true, none, []⟩,
        ⟨",", 11, 12, false, none, []⟩, ⟨"identifier", 13, 14, true, none, []⟩]⟩]⟩]⟩

def adjoiningText : String :=
  "-f a,\nb\ng c,\nd"

/-- A configuration under which an indentation can be written from column 1 on, but not at column
0. -/
def narrowConfig : Config :=
  Shipped.widthConfig (-9223372036854775809)

def adjoiningEdits : List Edit :=
  [⟨2, 3, "("⟩, ⟨3, 3, "\n"⟩, ⟨8, 8, ")"⟩]

/-- The tree of the corrected text, where only the first call has parentheses. -/
def adjoiningReparse (edits : List Edit) : Reparse :=
  { reparse (Source.ofText "a.rb" adjoiningText) [] edits (fun _ => (2, 3)) (fun _ => (9, 10)) with
    wrapped := fun x => x.node.kind == "argument_list" && x.node.start == 3 }

/-- Under such a configuration one pass does not reach a fixed point.  The second call fails at
column 0 and is left as it is; the parenthesis that closes the first call moves it to column 1,
where it is reported. -/
theorem investigate_corrected_adjoining :
    ∃ document d i correction r document' i',
      Document.attach "a.rb" adjoiningText adjoining = .ok document ∧ Proper document.top ∧
      (∀ rule ∈ rules, narrowConfig.Typed 9223372036854775809 rule.info.id) ∧
      ofRules rules (some narrowConfig) = .ok d ∧ d.investigate document = .ok i ∧
      Correction.ofFindings i.ranks adjoiningText i.findings = .ok correction ∧
      correction.text = "-f(\na,\nb\n)g c,\nd" ∧
      r = adjoiningReparse (correction.applied.flatMap (·.offense.edits)) ∧
      (∀ y, Below (r.image document.top) y → y.node.start ≤ y.node.stop) ∧
      Document.attach "a.rb" correction.text (r.image document.top).node = .ok document' ∧
      d.investigate document' = .ok i' ∧ i'.offenses ≠ [] := by
  set document : Document := ⟨Source.ofText "a.rb" adjoiningText, adjoining, []⟩
  have hreports : (reports (some narrowConfig) document).map (·.1) = some [adjoiningEdits] := by
    decide +kernel
  obtain ⟨⟨_, failures⟩, hreports, rfl⟩ := Option.map_eq_some_iff.1 hreports
  obtain ⟨d, i, hd, hi, hfound, -⟩ := exists_of_reports hreports
  obtain ⟨correction, hcorrection, htext, hedits⟩ := ofFindings_of_reported adjoiningText
    "-f(\na,\nb\n)g c,\nd" hfound (by decide) fun owner => by cbv
  set document' : Document := ⟨Source.ofText "a.rb" "-f(\na,\nb\n)g c,\nd",
    ((adjoiningReparse adjoiningEdits).image document.top).node, []⟩
  have hattach : Document.attach "a.rb" "-f(\na,\nb\n)g c,\nd"
      ((adjoiningReparse adjoiningEdits).image document.top).node = .ok document' := by
    rw [Document.attach]
    exact if_neg (by decide +kernel)
  have hagain : (reports (some narrowConfig) document').map (·.1) =
      some [[⟨11, 12, "("⟩, ⟨12, 12, "\n"⟩, ⟨16, 16, ")"⟩]] := by decide +kernel
  obtain ⟨⟨_, failures'⟩, hagain, rfl⟩ := Option.map_eq_some_iff.1 hagain
  obtain ⟨d', i', hd', hi', hfound', -⟩ := exists_of_reports hagain
  obtain rfl := Except.ok.inj (hd.symm.trans hd')
  refine ⟨document, d, i, correction, _, document', i', rfl, by decide,
    fun rule _ => Shipped.widthConfig_typed _ _, hd, hi, hcorrection, htext, rfl, ?_, ?_, hi', ?_⟩
  · rw [hedits]
    decide +kernel
  · rw [htext, hedits]
    exact hattach
  · rintro hnone
    simp [hnone] at hfound'

end RubyLint.Layout
