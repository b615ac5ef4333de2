import RubyLint.Proofs.Rule.Outcome
import RubyLint.Proofs.Steps
import RubyLint.Rule.Scripted
import RubyLint.Rules.Shipped

/-!
# Rules that report through their context

The one way for a call to report is to hand its context a range and a message; the context then puts
the id of its rule on the offense.  Rules that are put together from the parts of an outcome report
in no other way, and neither do the rules of this library and those given by data.  The rules of
this library moreover report plainly: they leave the severity to the context, add no details, and
edit only between offsets that are not negative.
-/

namespace RubyLint

variable {μ ν α : Type} {ctx : Context μ} {o : Offense}

def Context.Reported (ctx : Context μ) (o : Offense) : Prop :=
  ∃ range message edits severity details, ctx.offense range message edits severity details = .ok o

theorem Context.Reported.rule (h : ctx.Reported o) : o.rule = ctx.info.id := by
  obtain ⟨range, message, edits, severity, details, h⟩ := h
  rw [Offense.eq_of_checked h]

namespace Outcome

/-- A call that reports through a context alone. -/
def Reported (ctx : Context μ) (outcome : Outcome ν) : Prop :=
  ∀ o ∈ outcome.offenses, ctx.Reported o

theorem reported_quiet (memory : ν) : (quiet memory).Reported ctx :=
  every_quiet memory

theorem reported_fail (memory : ν) (fault : RuleFault) : (fail memory fault).Reported ctx :=
  every_fail memory fault

theorem reported_report (memory : ν) (range : Int × Int) (message : String) (edits : List Edit)
    (severity : Option String) (details : Value) :
    (report memory (ctx.offense range message edits severity details)).Reported ctx :=
  every_report memory fun _ ho => ⟨range, message, edits, severity, details, ho⟩

theorem reported_withValue {memory : ν} {value : Except RuleFault α} {next : α → Outcome ν}
    (hnext : ∀ a, (next a).Reported ctx) : (withValue memory value next).Reported ctx :=
  every_withValue fun a _ => hnext a

theorem reported_each {memory : ν} {items : List α} {act : ν → α → Outcome ν}
    (hact : ∀ memory a, (act memory a).Reported ctx) : (each memory items act).Reported ctx :=
  every_each fun memory a _ => hact memory a

end Outcome

/-- A rule whose calls report through their contexts alone. -/
structure Rule.Reporting (rule : Rule μ) : Prop where
  visit : ∀ ctx c, (rule.visit ctx c).Reported ctx
  finish : ∀ act ∈ rule.finish, ∀ ctx, (act ctx).Reported ctx

open Outcome

/-! ## Rules given by data -/

theorem Action.perform_reported [Machine] (ctx : Context Memory) (n : Node) (memory : Memory)
    (action : Action) :
    (action.perform ctx n memory).Reported ctx := by
  cases action with
  | count name => exact reported_quiet _
  | fail text => exact reported_fail _ _
  | report remark => exact reported_withValue fun message => reported_report _ _ _ _ _ _

/-- Rules given by data report through their contexts. -/
theorem Rule.scripted_reporting [Machine] (info : RuleInfo) (atNode : List Action)
    (atEnd : Option (List Action)) :
    (Rule.scripted info atNode atEnd).Reporting where
  visit ctx c := reported_each fun memory action => action.perform_reported ctx c.node memory
  finish act hact ctx := by
    obtain ⟨actions, -, rfl⟩ := Option.map_eq_some_iff.1 hact
    exact reported_each fun memory action => action.perform_reported ctx _ memory

/-! ## Plain reports -/

def Edit.NonNegative (e : Edit) : Prop :=
  0 ≤ e.start ∧ 0 ≤ e.stop

/-- An offense that a report in a context makes with nothing but a range, a message and edits. -/
def Context.Plain (ctx : Context μ) (o : Offense) : Prop :=
  ∃ range message edits, ctx.offense range message edits none .null = .ok o ∧
    ∀ e ∈ edits, e.NonNegative

/-- A rule whose calls report plainly, and that asks for nothing at the end of a document. -/
structure Rule.Plain (rule : Rule μ) : Prop where
  visit : ∀ ctx c, (rule.visit ctx c).Every ctx.Plain
  finish : rule.finish = none

theorem Outcome.plain_report (memory : ν) (range : Int × Int) (message : String) {edits : List Edit}
    (hedits : ∀ e ∈ edits, e.NonNegative) :
    (report memory (ctx.offense range message edits none .null)).Every ctx.Plain :=
  every_report memory fun _ ho => ⟨range, message, edits, ho, hedits⟩

theorem Edit.nonNegative_natCast (start stop : Nat) (text : String) :
    NonNegative ⟨start, stop, text⟩ :=
  ⟨Int.natCast_nonneg start, Int.natCast_nonneg stop⟩

/-! ## The rules of this library -/

theorem WrapArguments.wrap_nonNegative (c first last : Cursor) (parenthesized : Bool)
    (blanks : String) : ∀ e ∈ wrap c first last parenthesized blanks, e.NonNegative := by
  have hnatCast := Edit.nonNegative_natCast
  cases parenthesized <;> cases hmethod : Ruby.method? c <;> simp [wrap, hmethod, hnatCast]

variable [Machine]

theorem ChainBreaks.breakBefore_nonNegative {c : Cursor} {indent : Value} {edits : List Edit}
    (h : breakBefore c indent = .ok edits) : ∀ e ∈ edits, e.NonNegative := by
  rw [breakBefore] at h
  split at h
  · obtain rfl := Except.ok.inj h
    simp
  · obtain ⟨blanks, -, h⟩ := bind_eq_ok h
    obtain rfl := Except.ok.inj h
    simpa using Edit.nonNegative_natCast _ _ _

theorem ChainBreaks.rule_plain : (ChainBreaks.rule : Rule μ).Plain where
  visit ctx c := by
    simp only [ChainBreaks.rule, ChainBreaks.visit]
    split
    · exact every_quiet _
    split
    · exact every_quiet _
    refine every_withValue fun indent _ => every_withValue fun operators _ => ?_
    refine every_each fun memory link _ => ?_
    refine every_withValue fun range _ => every_withValue fun edits hedits => ?_
    exact plain_report _ _ _ (breakBefore_nonNegative (mapError_eq_ok hedits))
  finish := rfl

theorem WrapArguments.report_plain (ctx : Context Memory) (c first last : Cursor)
    (parenthesized : Bool) :
    (WrapArguments.report ctx c first last parenthesized).Every ctx.Plain := by
  refine every_withValue fun indent _ => every_withValue fun blanks _ => ?_
  refine (plain_report _ _ _ (wrap_nonNegative _ _ _ _ _)).andThen fun memory => ?_
  split <;> exact every_quiet _

theorem WrapArguments.rule_plain : WrapArguments.rule.Plain where
  visit ctx c := by
    simp only [WrapArguments.rule, WrapArguments.visit]
    split
    next =>
      split
      · exact every_quiet _
      refine every_withValue fun allowed _ => ?_
      split
      · exact every_quiet _
      · exact WrapArguments.report_plain ctx c _ _ _
    next => exact every_quiet _
  finish := rfl

omit [Machine] in
theorem NestedContext.rule_plain : (NestedContext.rule : Rule μ).Plain where
  visit ctx c := by
    simp only [NestedContext.rule, NestedContext.visit]
    split
    · refine every_withValue fun words _ => ?_
      split
      · exact plain_report _ _ _ (by simp)
      · exact every_quiet _
    · exact every_quiet _
  finish := rfl

namespace Redefinition

variable {naming : Naming} {methods : List Value}

theorem checkStatement_plain (ctx : Context μ) (memory : μ) (definitions : Definitions)
    (statement : Cursor) :
    (checkStatement ctx naming methods memory definitions statement).1.Every ctx.Plain := by
  rw [checkStatement]
  split
  · exact every_fail _ _
  · exact every_quiet _
  · dsimp only
    split
    · exact every_quiet _
    · exact every_withValue fun text _ => plain_report _ _ _ (by simp)

theorem scan_plain (ctx : Context μ) (depth : Nat) (memory : μ) (definitions : Definitions)
    (statements : List Cursor) :
    (scan ctx naming methods depth memory definitions statements).Every ctx.Plain := by
  induction depth generalizing memory definitions statements with
  | zero => exact every_quiet _
  | succ depth ih =>
      cases statements with
      | nil => exact every_quiet _
      | cons statement rest =>
          rw [scan]
          split
          · exact ih _ _ _
          split
          · exact (ih _ _ _).andThen fun memory => ih _ _ _
          · exact (checkStatement_plain ctx memory definitions statement).andThen
              fun memory => ih _ _ _

theorem visit_plain (naming : Naming) (ctx : Context μ) (c : Cursor) :
    (visit naming ctx c).Every ctx.Plain := by
  rw [visit]
  refine iteInduction (motive := Outcome.Every ctx.Plain) (fun _ => every_quiet _) fun _ => ?_
  exact every_withValue fun methods _ => scan_plain _ _ _ _ _

theorem letRule_plain : (letRule : Rule μ).Plain :=
  ⟨visit_plain letName, rfl⟩

theorem subjectRule_plain : (subjectRule : Rule μ).Plain :=
  ⟨visit_plain subjectName, rfl⟩

end Redefinition

end RubyLint
