import RubyLint.Proofs.Rule.Options
import RubyLint.Proofs.Rule.Outcome
import RubyLint.Proofs.Ruby.Shape
import RubyLint.Proofs.Steps
import RubyLint.Rules.WrapArguments

/-!
# What the wrapping of arguments does

A call of the rule does nothing, or it reports the call it is made at, corrects it by the edits that
wrap its arguments and remembers where the first argument lands.  It fails only where the
indentation is too wide to be written.
-/

namespace RubyLint.WrapArguments

open Cursor Ruby

variable {width : Nat} {document : Document} {ctx : Context Memory} {allowed : List Value}
variable {s : Source} {c first last list : Cursor} {n w : Int}

/-- A call whose arguments are to be wrapped. -/
structure Due (s : Source) (allowed : List Value) (c first last list : Cursor) : Prop where
  isFirst : (arguments c).head? = some first
  isLast : (arguments c).getLast? = some last
  isList : argumentList? c = some list
  /-- The arguments end on another line than that of the call. -/
  spread : s.lastLine list.node ≠ callLine s c
  notSetter : isSetter c = false
  notAllowed : allowed.contains (Value.ofText? (methodName? s c)) = false
  noHeredoc : hasHeredoc c = false
  /-- Between parentheses the first argument does not yet stand on a line of its own. -/
  unbroken : isParenthesized c = true → s.firstLine first.node ≤ callLine s c

/-- Whether the arguments of a call are to be wrapped. -/
def isDue (s : Source) (allowed : List Value) (c : Cursor) : Bool :=
  match (arguments c).head?, (arguments c).getLast?, argumentList? c with
  | some first, some _, some list =>
    s.lastLine list.node != callLine s c && !isSetter c &&
      !allowed.contains (Value.ofText? (methodName? s c)) && !hasHeredoc c &&
      !(isParenthesized c && callLine s c < s.firstLine first.node)
  | _, _, _ => false

theorem isDue_iff :
    isDue s allowed c = true ↔ ∃ first last list, Due s allowed c first last list := by
  rw [isDue]
  constructor
  · intro h
    split at h
    next first last list hfirst hlast hlist =>
      simp only [Bool.and_eq_true, Bool.not_eq_true', bne_iff_ne, ne_eq, Bool.and_eq_false_imp,
        decide_eq_false_iff_not, Nat.not_lt] at h
      obtain ⟨⟨⟨⟨hspread, hsetter⟩, hallowed⟩, hheredoc⟩, hunbroken⟩ := h
      exact ⟨first, last, list, hfirst, hlast, hlist, hspread, hsetter, hallowed, hheredoc,
        hunbroken⟩
    next => nomatch h
  · rintro ⟨first, last, list, h⟩
    simp only [h.isFirst, h.isLast, h.isList, h.notSetter, h.notAllowed, h.noHeredoc,
      bne_iff_ne.2 h.spread, Bool.not_false, Bool.and_true, Bool.true_and, Bool.not_eq_true',
      Bool.and_eq_false_imp, decide_eq_false_iff_not, Nat.not_lt]
    exact h.unbroken

/-- What an edit of a call that is wrapped can be. -/
theorem wrap_cases {edit : Edit} {blanks : String}
    (h : edit ∈ wrap c first last (isParenthesized c) blanks) :
    edit = ⟨first.node.start, first.node.start, "\n" ++ blanks⟩ ∨
      isParenthesized c = false ∧
        ((∃ m, method? c = some m ∧ edit = ⟨m.node.stop, first.node.start, "("⟩) ∨
          edit = ⟨first.node.start, first.node.start, "("⟩ ∨
          edit = ⟨last.node.stop, last.node.stop, ")"⟩) := by
  rw [wrap] at h
  cases hbare : isParenthesized c with
  | true =>
      simp only [hbare, if_true, List.mem_singleton] at h
      exact .inl h
  | false =>
      simp only [hbare, Bool.false_eq_true, if_false, List.mem_append, List.mem_cons,
        List.not_mem_nil, or_false] at h
      rcases h with hopening | rfl | rfl
      · cases hm : method? c with
        | some m =>
            simp only [hm, List.mem_singleton] at hopening
            exact .inr ⟨rfl, .inl ⟨m, rfl, hopening⟩⟩
        | none =>
            simp only [hm, List.mem_singleton] at hopening
            exact .inr ⟨rfl, .inr (.inl hopening)⟩
      · exact .inl rfl
      · exact .inr ⟨rfl, .inr (.inr rfl)⟩

/-- A context of the rule whose options are known. -/
structure Setup (ctx : Context Memory) (document : Document) (w : Int) (allowed : List Value) :
    Prop where
  document : ctx.document = document
  info : ctx.info = info
  width : ctx.option "IndentationWidth" (.int 2) = .int w
  allowed : (ctx.option "AllowedMethods" .null).members = .ok allowed

theorem Setup.remember (h : Setup ctx document w allowed) (memory : Memory) :
    Setup { ctx with memory } document w allowed :=
  ⟨h.document, h.info, h.width, h.allowed⟩

variable [Machine]

theorem visit_due (hallowed : (ctx.option "AllowedMethods" .null).members = .ok allowed)
    (h : Due ctx.document.toSource allowed c first last list) :
    visit ctx c = report ctx c first last (isParenthesized c) := by
  have hspread : (ctx.document.lastLine list.node == callLine ctx.document.toSource c) = false := by
    simpa using h.spread
  have hunbroken : (isParenthesized c &&
      decide (callLine ctx.document.toSource c < ctx.document.firstLine first.node)) = false := by
    cases hparenthesized : isParenthesized c with
    | false => rfl
    | true => simpa using h.unbroken hparenthesized
  rw [visit]
  simp only [h.isFirst, h.isLast, h.isList, hspread, h.notSetter, hallowed, Except.mapError,
    Outcome.withValue, h.notAllowed, h.noHeredoc, hunbroken, Bool.or_false, Bool.false_eq_true,
    if_false]

theorem visit_quiet (hallowed : (ctx.option "AllowedMethods" .null).members = .ok allowed)
    (h : ∀ first last list, ¬Due ctx.document.toSource allowed c first last list) :
    visit ctx c = .quiet ctx.memory := by
  rw [visit]
  dsimp only
  split
  next first last list hfirst hlast hlist =>
    split
    · rfl
    next hspread =>
    simp only [hallowed, Except.mapError, Outcome.withValue]
    split
    · rfl
    next hdue =>
    simp only [Bool.or_eq_true, beq_iff_eq, not_or, Bool.not_eq_true] at hspread
    simp only [Bool.or_eq_true, not_or, Bool.not_eq_true] at hdue
    refine absurd ⟨hfirst, hlast, hlist, hspread.1, hspread.2, hdue.1.1, hdue.1.2, ?_⟩
      (h first last list)
    intro hparenthesized
    simpa [hparenthesized] using hdue.2
  next => rfl

/-- Where the first argument lands when its call is indented by `n` columns. -/
def landing (s : Source) (first : Cursor) (n : Int) : Move :=
  ⟨s.firstLine first.node, first.node.start, n - s.column first.node⟩

theorem report_fail {fault : ValueFault} {parenthesized : Bool}
    (hwidth : ctx.option "IndentationWidth" (.int 2) = .int w)
    (hblanks : (Value.int (columnAfter ctx.document.toSource ctx.memory.moved c.node + w)).blanks =
      .error fault) :
    report ctx c first last parenthesized = .fail ctx.memory (.value fault) := by
  rw [report]
  simp only [hwidth, Value.addTo, Except.mapError, Outcome.withValue, hblanks]

theorem report_ok {blanks : String} {parenthesized : Bool} (hinfo : ctx.info = info)
    (hwidth : ctx.option "IndentationWidth" (.int 2) = .int w)
    (hspan : c.node.start < sendEnd c)
    (hn : n = columnAfter ctx.document.toSource ctx.memory.moved c.node + w)
    (hblanks : (Value.int n).blanks = .ok blanks) :
    ∃ o : Offense, o.edits = wrap c first last parenthesized blanks ∧
      report ctx c first last parenthesized =
        ⟨[o], { ctx.memory with
          moved := landing ctx.document.toSource first n :: ctx.memory.moved }, none⟩ := by
  have hmessage : ctx.info.message ≠ "" := by rw [hinfo]; decide
  have hcorrect : ctx.info.autocorrect = true := by rw [hinfo]; rfl
  obtain ⟨o, ho, hedits⟩ := ctx.exists_offense ((sendRange c).1, (sendRange c).2)
    (wrap c first last parenthesized blanks) none .null hmessage (Int.natCast_nonneg _)
    (by simpa [sendRange] using hspan)
  subst hn
  refine ⟨o, by rw [hedits, if_pos hcorrect], ?_⟩
  rw [report]
  simp only [hwidth, Value.addTo, Except.mapError, Outcome.withValue, hblanks, ho, Outcome.report,
    Outcome.andThen, Outcome.quiet, List.append_nil]
  rfl

/-- What a call of the rule can do. -/
theorem visit_cases (h : Setup ctx document w allowed) (hshape : CallShape c)
    (horderly : c.Orderly) :
    ((∀ first last list, ¬Due document.toSource allowed c first last list) ∧
        visit ctx c = .quiet ctx.memory) ∨
      ∃ first last list n, Due document.toSource allowed c first last list ∧
        n = columnAfter document.toSource ctx.memory.moved c.node + w ∧
        ((∃ fault, (Value.int n).blanks = .error fault ∧
            visit ctx c = .fail ctx.memory (.value fault)) ∨
          ∃ o blanks, (Value.int n).blanks = .ok blanks ∧
            o.edits = wrap c first last (isParenthesized c) blanks ∧
            visit ctx c = ⟨[o], { ctx.memory with
              moved := landing document.toSource first n :: ctx.memory.moved }, none⟩) := by
  obtain rfl := h.document
  by_cases hdue : ∃ first last list, Due ctx.document.toSource allowed c first last list
  · obtain ⟨first, last, list, hdue⟩ := hdue
    have hspan := hshape.start_lt_sendEnd horderly hdue.isList
    refine .inr ⟨first, last, list, _, hdue, rfl, ?_⟩
    rw [visit_due h.allowed hdue]
    cases hblanks : (Value.int (columnAfter ctx.document.toSource ctx.memory.moved c.node +
        w)).blanks with
    | error fault => exact .inl ⟨fault, rfl, report_fail h.width hblanks⟩
    | ok blanks =>
        obtain ⟨o, hedits, hreport⟩ := report_ok h.info h.width hspan rfl hblanks
        exact .inr ⟨o, blanks, rfl, hedits, hreport⟩
  · simp only [not_exists] at hdue
    exact .inl ⟨hdue, visit_quiet h.allowed hdue⟩

/-! ## Reports under any options -/

/-- What the rule reports of a call: the range without the block, and edits that wrap the arguments
with some indentation. -/
structure Wraps (c first last : Cursor) (o : Offense) : Prop where
  rule : o.rule = info.id
  start : o.start = c.node.start
  stop : o.stop = sendEnd c
  edits : ∃ count, o.edits =
    wrap c first last (isParenthesized c) (String.ofList (List.replicate count ' '))

theorem report_reports (hinfo : ctx.info = info) (c first last : Cursor) :
    (report ctx c first last (isParenthesized c)).offenses = [] ∨
      ∃ o, (report ctx c first last (isParenthesized c)).offenses = [o] ∧
        Wraps c first last o := by
  rw [report]
  rcases Outcome.withValue_cases ctx.memory _ _ with hnone | ⟨indent, -, hindent⟩
  · exact .inl hnone
  rw [hindent]
  rcases Outcome.withValue_cases ctx.memory _ _ with hnone | ⟨blanks, hblanks, hnext⟩
  · exact .inl hnone
  rw [hnext]
  obtain ⟨count, hcount⟩ := Value.blanks_eq_ok (mapError_eq_ok hblanks)
  dsimp only
  cases ho : ctx.offense ((sendRange c).1, (sendRange c).2) ctx.info.message
      (wrap c first last (isParenthesized c) blanks) none .null with
  | error fault => exact .inl rfl
  | ok o =>
      refine .inr ⟨o, ?_, ?_⟩
      · cases indent <;> rfl
      · obtain rfl := Offense.eq_of_checked ho
        rw [hinfo, hcount]
        exact ⟨rfl, rfl, rfl, count, rfl⟩

/-- Whatever its options are, the rule reports a call once at most, and only for its arguments. -/
theorem visit_reports (hinfo : ctx.info = info) (c : Cursor) :
    (visit ctx c).offenses = [] ∨ ∃ first last o, (arguments c).head? = some first ∧
      (arguments c).getLast? = some last ∧ (visit ctx c).offenses = [o] ∧
        Wraps c first last o := by
  rw [visit]
  dsimp only
  split
  next first last list hfirst hlast hlist =>
    split
    · exact .inl rfl
    rcases Outcome.withValue_cases ctx.memory _ _ with hnone | ⟨allowed, -, hnext⟩
    · exact .inl hnone
    rw [hnext]
    split
    · exact .inl rfl
    rcases report_reports hinfo c first last with hnone | ⟨o, ho, hwraps⟩
    · exact .inl hnone
    · exact .inr ⟨first, last, o, hfirst, hlast, ho, hwraps⟩
  next => exact .inl rfl

end RubyLint.WrapArguments
