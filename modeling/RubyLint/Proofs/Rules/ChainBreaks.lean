import RubyLint.Proofs.Rule.Options
import RubyLint.Proofs.Rule.Outcome
import RubyLint.Proofs.Ruby.Shape
import RubyLint.Proofs.Steps
import RubyLint.Rules.ChainBreaks

/-!
# What the line breaks in chains do

The links of a chain are the calls that lead from its outer end to its root, from each call to its
receiver.  A call of the rule does nothing, or it reports every link that stays on the line where
its receiver ends, each with a line break before the operator.  It fails only where the indentation
is too wide to be written.
-/

namespace RubyLint.ChainBreaks

open Cursor Ruby

variable {document : Document} {ctx : Context Memory} {operators : List Value}
variable {s : Source} {c d link r top x : Cursor} {n w : Int}

/-! ## Links -/

/-- The calls of a chain, from its outer end inwards. -/
inductive Link : Cursor → Cursor → Prop where
  | here {c : Cursor} : (receiver? c).isSome → Link c c
  | next {c r link : Cursor} : receiver? c = some r → isCall r = true → hasBlock r = false →
      Link r link → Link c link

theorem spine_of_none (h : receiver? c = none) : spine c = ([], c) := by
  rw [spine]
  split
  · rfl
  next heq => simp [h] at heq

theorem spine_of_closed (h : receiver? c = some r) (hclosed : (!isCall r || hasBlock r) = true) :
    spine c = ([c], r) := by
  rw [spine]
  split
  next heq => simp [h] at heq
  next r' heq =>
    obtain rfl := Option.some.inj (h.symm.trans heq)
    simp [hclosed]

theorem spine_of_open (h : receiver? c = some r) (hcall : isCall r = true)
    (hblock : hasBlock r = false) : spine c = (c :: (spine r).1, (spine r).2) := by
  rw [spine]
  split
  next heq => simp [h] at heq
  next r' heq =>
    obtain rfl := Option.some.inj (h.symm.trans heq)
    simp [hcall, hblock]

/-- Induction along a chain.  A chain stops at a call without a receiver and at a receiver that is
no call or has a block, and goes on with any other receiver. -/
@[elab_as_elim]
theorem spine_induction {motive : Cursor → Prop} (c : Cursor)
    (bare : ∀ c, receiver? c = none → motive c)
    (closed : ∀ c r, receiver? c = some r → (!isCall r || hasBlock r) = true → motive c)
    (next : ∀ c r, receiver? c = some r → isCall r = true → hasBlock r = false → motive r →
      motive c) : motive c := by
  induction c using spine.induct with
  | case1 c hnone => exact bare c hnone
  | case2 c r hreceiver hclosed => exact closed c r hreceiver hclosed
  | case3 c r hreceiver hopen _ _ _ ih =>
      rw [Bool.not_eq_true, Bool.or_eq_false_iff, Bool.not_eq_false'] at hopen
      exact next c r hreceiver hopen.1 hopen.2 ih

theorem mem_links_iff : link ∈ (spine c).1 ↔ Link c link := by
  induction c using spine_induction with
  | bare c hreceiver =>
      rw [spine_of_none hreceiver]
      refine ⟨by simp, fun h => ?_⟩
      cases h with
      | here hsome => simp [hreceiver] at hsome
      | next hsome => simp [hreceiver] at hsome
  | closed c r hreceiver hclosed =>
      rw [spine_of_closed hreceiver hclosed, List.mem_singleton]
      constructor
      · rintro rfl
        exact .here (by simp [hreceiver])
      · intro h
        cases h with
        | here => rfl
        | next hsome hcall hblock =>
            obtain rfl := Option.some.inj (hreceiver.symm.trans hsome)
            simp [hcall, hblock] at hclosed
  | next c r hreceiver hcall hblock ih =>
      rw [spine_of_open hreceiver hcall hblock, List.mem_cons, ih]
      constructor
      · rintro (rfl | h)
        · exact .here (by simp [hreceiver])
        · exact .next hreceiver hcall hblock h
      · intro h
        cases h with
        | here => exact .inl rfl
        | next hsome _ _ h =>
            obtain rfl := Option.some.inj (hreceiver.symm.trans hsome)
            exact .inr h

namespace Link

theorem descends (h : Link c link) : Below c link := by
  induction h with
  | here => exact .refl
  | next hreceiver _ _ _ ih => exact .of_child (role?_mem hreceiver) ih

theorem receiver (h : Link c link) : ∃ r, receiver? link = some r := by
  induction h with
  | here hsome => exact Option.isSome_iff_exists.1 hsome
  | next _ _ _ _ ih => exact ih

theorem isCall (h : Link c link) (hcall : isCall c = true) : Ruby.isCall link = true := by
  induction h with
  | here => exact hcall
  | next _ hcall' _ _ ih => exact ih hcall'

/-- What lies on the way from the outer end of a chain to a link is a link. -/
theorem between (h : Link c link) (hx : Below c x) (hlink : Below x link) :
    Link c x ∧ Link x link := by
  induction h with
  | here hsome =>
      obtain rfl := hx.antisymm hlink
      exact ⟨.here hsome, .here hsome⟩
  | next hreceiver hcall hblock hrest ih =>
      rcases hx.eq_or_child with rfl | ⟨u, hu, hux⟩
      · exact ⟨.here (by simp [hreceiver]), .next hreceiver hcall hblock hrest⟩
      · obtain rfl := child_unique hu (role?_mem hreceiver) (hux.trans hlink) hrest.descends
        obtain ⟨hfirst, hsecond⟩ := ih hux hlink
        exact ⟨.next hreceiver hcall hblock hfirst, hsecond⟩

/-- All links of a chain but the outer end are part of a larger chain. -/
theorem eq_or_part (h : Link c link) (hcall : Ruby.isCall c = true) :
    link = c ∨ partOfLargerChain link = true := by
  induction h with
  | here => exact .inl rfl
  | next hreceiver hcall' hblock _ ih =>
      rcases ih hcall' with rfl | hpart
      · refine .inr ?_
        simp [partOfLargerChain, parent?_of_mem_children (role?_mem hreceiver), hcall, hblock,
          role?_field hreceiver]
      · exact .inr hpart

end Link

/-- A chain has a link whose receiver is the root of the chain. -/
theorem exists_link_root (h : (receiver? c).isSome) :
    ∃ link, Link c link ∧ receiver? link = some (spine c).2 := by
  induction c using spine_induction with
  | bare c hreceiver => simp [hreceiver] at h
  | closed c r hreceiver hclosed =>
      rw [spine_of_closed hreceiver hclosed]
      exact ⟨c, .here h, hreceiver⟩
  | next c r hreceiver hcall hblock ih =>
      rw [spine_of_open hreceiver hcall hblock]
      cases hsome : receiver? r with
      | none =>
          rw [spine_of_none hsome]
          exact ⟨c, .here h, hreceiver⟩
      | some inner =>
          obtain ⟨link, hlink, hroot⟩ := ih (by simp [hsome])
          exact ⟨link, .next hreceiver hcall hblock hlink, hroot⟩

/-- The root of a chain is the receiver of its outer end or below it. -/
theorem receiver_above_root (h : receiver? c = some r) : Below r (spine c).2 := by
  obtain ⟨link, hlink, hroot⟩ := exists_link_root (c := c) (by simp [h])
  cases hlink with
  | here =>
      obtain rfl := Option.some.inj (h.symm.trans hroot)
      exact .refl
  | next hreceiver _ _ hrest =>
      obtain rfl := Option.some.inj (h.symm.trans hreceiver)
      exact .step hrest.descends (role?_mem hroot)

theorem below_root (c : Cursor) : Below c (spine c).2 := by
  cases hreceiver : receiver? c with
  | none =>
      rw [spine_of_none hreceiver]
      exact .refl
  | some r => exact .of_child (role?_mem hreceiver) (receiver_above_root hreceiver)

/-- What lies on the way from the outer end of a chain to its root is a link or the root. -/
theorem root_or_link (hx : Below c x) (hroot : Below x (spine c).2) :
    x = (spine c).2 ∨ Link c x ∧ ∃ r, receiver? x = some r ∧ Below r (spine c).2 := by
  cases hreceiver : receiver? c with
  | none =>
      rw [spine_of_none hreceiver] at hroot ⊢
      exact .inl (hroot.antisymm hx)
  | some r =>
      obtain ⟨link, hlink, hlast⟩ := exists_link_root (c := c) (by simp [hreceiver])
      rcases hroot.eq_or_child with heq | ⟨u, hu, hbelow⟩
      · exact .inl heq.symm
      -- The root is a child of the last link, so whatever is strictly above it is above that link.
      have habove : Below x link := by
        cases hroot with
        | refl => exact absurd (hbelow.size_le) (Nat.not_le.2 (size_lt_of_mem_children hu))
        | step hbelow' hmem => exact parent_unique hmem (role?_mem hlast) ▸ hbelow'
      obtain ⟨hfirst, hsecond⟩ := hlink.between hx habove
      refine .inr ⟨hfirst, ?_⟩
      cases hsecond with
      | here => exact ⟨_, hlast, .refl⟩
      | next hreceiver' _ _ hrest =>
          exact ⟨_, hreceiver', .step hrest.descends (role?_mem hlast)⟩

/-! ## Calls of the rule -/

/-- The outer end of a chain that spans several lines. -/
structure Spread (s : Source) (c : Cursor) : Prop where
  receiver : (receiver? c).isSome
  outer : partOfLargerChain c = false
  spread : s.lastLine (spine c).2.node ≠ sendLastLine s c

def flagged (s : Source) (operators : List Value) (c : Cursor) : List Cursor :=
  (spine c).1.filter (isOffending s operators)

/-- The indentation of the line on which the root of a chain starts. -/
def base (s : Source) (c : Cursor) : Nat :=
  (s.lineIndentation? (s.firstLine (spine c).2.node)).getD 0

/-- A context of the rule whose options are known. -/
structure Setup (ctx : Context Memory) (document : Document) (w : Int) (operators : List Value) :
    Prop where
  document : ctx.document = document
  info : ctx.info = info
  width : ctx.option "IndentationWidth" (.int 2) = .int w
  operators : (ctx.option "OperatorMethods" .null).members = .ok operators

theorem Setup.remember (h : Setup ctx document w operators) (memory : Memory) :
    Setup { ctx with memory } document w operators :=
  ⟨h.document, h.info, h.width, h.operators⟩

variable [Machine]

theorem visit_quiet (h : ¬Spread ctx.document.toSource c) : visit ctx c = .quiet ctx.memory := by
  rw [visit]
  dsimp only
  split
  · rfl
  next houter =>
  split
  · rfl
  next hspread =>
  simp only [Bool.or_eq_true, not_or, Bool.not_eq_true] at houter
  exact absurd ⟨by simpa using houter.1, houter.2, by simpa using hspread⟩ h

theorem visit_spread (hctx : Setup ctx document w operators) (h : Spread document.toSource c) :
    visit ctx c = .each ctx.memory (flagged document.toSource operators c)
      (report ctx (.int (base document.toSource c + w))) := by
  obtain rfl := hctx.document
  have houter : ((receiver? c).isNone || partOfLargerChain c) = false := by
    rw [h.outer, Bool.or_false, Option.isNone_eq_false_iff]
    exact h.receiver
  have hspread : (ctx.document.lastLine (spine c).2.node == sendLastLine ctx.document.toSource c) =
      false := by simpa using h.spread
  rw [visit]
  simp only [houter, hspread, Bool.false_eq_true, if_false, hctx.width, Value.addTo,
    Except.mapError, Outcome.withValue, hctx.operators]
  rfl

theorem report_fail {fault : ValueFault} (hlink : Link c link) (hshape : CallShape link)
    (memory : Memory) (hblanks : (Value.int n).blanks = .error fault) :
    report ctx (.int n) memory link = .fail memory (.value fault) := by
  obtain ⟨r, hr⟩ := hlink.receiver
  obtain ⟨op, hop⟩ := hshape.operator hr
  have hrange : ∃ range, offenseRange link = .ok range := by
    rw [offenseRange, hop]
    cases method? link <;> exact ⟨_, rfl⟩
  obtain ⟨range, hrange⟩ := hrange
  rw [report, hrange]
  simp only [Outcome.withValue, breakBefore, hop, hblanks, bind, Except.bind, Except.mapError]

theorem report_ok {blanks : String} (hinfo : ctx.info = info) (hlink : Link c link)
    (hshape : CallShape link) (horderly : link.Orderly) (memory : Memory)
    (hblanks : (Value.int n).blanks = .ok blanks) :
    ∃ o : Offense, (∃ op, operator? link = some op ∧
        o.edits = [⟨op.node.start, op.node.start, "\n" ++ blanks⟩]) ∧
      report ctx (.int n) memory link = ⟨[o], memory, none⟩ := by
  obtain ⟨r, hr⟩ := hlink.receiver
  obtain ⟨op, hop⟩ := hshape.operator hr
  have hmessage : ctx.info.message ≠ "" := by rw [hinfo]; decide
  have hcorrect : ctx.info.autocorrect = true := by rw [hinfo]; rfl
  have hsolid := hshape.part_nonempty hop
  have hrange : ∃ range : Int × Int, offenseRange link = .ok range ∧ 0 ≤ range.1 ∧
      range.1 < range.2 := by
    rw [offenseRange, hop]
    cases hm : method? link with
    | none => exact ⟨_, rfl, by simp only; omega, by simp only; omega⟩
    | some m =>
        have hsolid' := hshape.part_nonempty hm
        have hbefore := hshape.stop_le_start horderly hop hm
        exact ⟨_, rfl, by simp only; omega, by simp only; omega⟩
  obtain ⟨range, hrange, hstart, hstop⟩ := hrange
  obtain ⟨o, ho, hedits⟩ := ctx.exists_offense range
    [⟨op.node.start, op.node.start, "\n" ++ blanks⟩] none .null hmessage hstart hstop
  refine ⟨o, ⟨op, hop, by rw [hedits, if_pos hcorrect]⟩, ?_⟩
  rw [report, hrange]
  simp only [Outcome.withValue, breakBefore, hop, hblanks, bind, Except.bind, Except.mapError, pure,
    Except.pure, ho, Outcome.report]

/-- What a call of the rule can do. -/
theorem visit_cases (h : Setup ctx document w operators) (hcall : isCall c = true)
    (hcalls : ∀ x, Below c x → isCall x = true → CallShape x) (horderly : c.Orderly) :
    ((¬Spread document.toSource c ∨ flagged document.toSource operators c = []) ∧
        visit ctx c = .quiet ctx.memory) ∨
      (Spread document.toSource c ∧ flagged document.toSource operators c ≠ [] ∧
        ((∃ fault, (Value.int (base document.toSource c + w)).blanks = .error fault ∧
            visit ctx c = .fail ctx.memory (.value fault)) ∨
          ∃ os blanks, (Value.int (base document.toSource c + w)).blanks = .ok blanks ∧
            visit ctx c = ⟨os, ctx.memory, none⟩ ∧
            (∀ o ∈ os, ∃ link ∈ flagged document.toSource operators c, ∃ op,
              operator? link = some op ∧
                o.edits = [⟨op.node.start, op.node.start, "\n" ++ blanks⟩]) ∧
            ∀ link ∈ flagged document.toSource operators c, ∃ o ∈ os, ∃ op,
              operator? link = some op ∧
                o.edits = [⟨op.node.start, op.node.start, "\n" ++ blanks⟩])) := by
  by_cases hspread : Spread document.toSource c
  · rw [visit_spread h hspread]
    have hlinks : ∀ link ∈ flagged document.toSource operators c,
        Link c link ∧ CallShape link ∧ link.Orderly := by
      intro link hmem
      have hlink := mem_links_iff.1 (List.mem_filter.1 hmem).1
      exact ⟨hlink, hcalls link hlink.descends (hlink.isCall hcall), horderly.below hlink.descends⟩
    by_cases hempty : flagged document.toSource operators c = []
    · rw [hempty]
      exact .inl ⟨.inr rfl, rfl⟩
    refine .inr ⟨hspread, hempty, ?_⟩
    cases hblanks : (Value.int (base document.toSource c + w)).blanks with
    | error fault =>
        refine .inl ⟨fault, rfl, Outcome.each_eq_fail hempty fun link hmem => ?_⟩
        obtain ⟨hlink, hshape, -⟩ := hlinks link hmem
        exact report_fail hlink hshape _ hblanks
    | ok blanks =>
        obtain ⟨os, heq, hspec⟩ := Outcome.each_eq_ok fun link hmem => by
          obtain ⟨hlink, hshape, horderly⟩ := hlinks link hmem
          exact report_ok h.info hlink hshape horderly ctx.memory hblanks
        exact .inr ⟨os, blanks, rfl, heq, hspec⟩
  · obtain rfl := h.document
    exact .inl ⟨.inl hspread, visit_quiet hspread⟩

/-! ## Reports under any options -/

/-- What the rule reports of a chain: a line break, with some indentation, before the operator of a
link. -/
structure Breaks (c : Cursor) (o : Offense) : Prop where
  rule : o.rule = info.id
  edits : ∀ e ∈ o.edits, ∃ link op count, Link c link ∧ operator? link = some op ∧
    e = ⟨op.node.start, op.node.start, "\n" ++ String.ofList (List.replicate count ' ')⟩

theorem report_breaks (hinfo : ctx.info = info) (hlink : Link c link) (indent : Value)
    (memory : Memory) : (report ctx indent memory link).Every (Breaks c) := by
  refine Outcome.every_withValue fun range _ => Outcome.every_withValue fun edits hedits => ?_
  refine Outcome.every_report memory fun o ho => ?_
  obtain rfl := Offense.eq_of_checked ho
  refine ⟨congrArg RuleInfo.id hinfo, fun e he => ?_⟩
  have hcorrect : ctx.info.autocorrect = true := by rw [hinfo]; rfl
  simp only [hcorrect, if_true] at he
  replace hedits := mapError_eq_ok hedits
  rw [breakBefore] at hedits
  cases hop : operator? link with
  | none =>
      rw [hop] at hedits
      obtain rfl := Except.ok.inj hedits
      exact absurd he List.not_mem_nil
  | some op =>
      rw [hop] at hedits
      obtain ⟨blanks, hblanks, hedits⟩ := bind_eq_ok hedits
      obtain rfl := Except.ok.inj hedits
      obtain ⟨count, rfl⟩ := Value.blanks_eq_ok hblanks
      exact ⟨link, op, count, hlink, hop, List.mem_singleton.1 he⟩

/-- Whatever its options are, the rule only breaks lines before operators of links. -/
theorem visit_breaks (hinfo : ctx.info = info) (c : Cursor) :
    (visit ctx c).Every (Breaks c) := by
  rw [visit]
  dsimp only
  split
  · exact Outcome.every_quiet _
  split
  · exact Outcome.every_quiet _
  refine Outcome.every_withValue fun indent _ => Outcome.every_withValue fun operators _ => ?_
  refine Outcome.every_each fun memory link hlink => ?_
  exact report_breaks hinfo (mem_links_iff.1 (List.mem_filter.1 hlink).1) indent memory

end RubyLint.ChainBreaks
