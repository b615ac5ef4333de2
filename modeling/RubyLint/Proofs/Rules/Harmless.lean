import RubyLint.Proofs.Pattern.Placement
import RubyLint.Proofs.Rule.Options
import RubyLint.Proofs.Rule.Outcome
import RubyLint.Proofs.Ruby.Statements
import RubyLint.Proofs.Text.Template
import RubyLint.Rules.NestedContext
import RubyLint.Rules.Redefinition

/-!
# Rules without corrections

The rules on example groups never fail on a tree of the right shape: their patterns and messages are
sound whatever the options say, and what they report covers at least one byte.
-/

namespace RubyLint

open Cursor

variable {width : Nat} {document : Document} {c top : Cursor}

/-! ## Nested contexts -/

namespace NestedContext

theorem loweredWords_words (words : List String) :
    ∃ lowered, loweredWords (words.map .str) = .ok lowered := by
  induction words with
  | nil => exact ⟨[], rfl⟩
  | cons w rest ih =>
      obtain ⟨lowered, hlowered⟩ := ih
      refine ⟨String.ofList (Text.lower w.toList) :: lowered, ?_⟩
      simp [loweredWords, hlowered, bind, Except.bind, pure, Except.pure]

/-- A context that is described has arguments. -/
theorem argumentList_of_description {s : Source} {description : Cursor}
    (h : description? s c = some description) :
    Ruby.isCall c = true ∧ ∃ list, Ruby.argumentList? c = some list := by
  rw [description?] at h
  split at h
  next hcontext =>
    simp only [Bool.and_eq_true] at hcontext
    have hfirst := (Option.filter_eq_some_iff.1 h).1
    exact ⟨hcontext.1.1.1, Ruby.exists_argumentList (List.mem_of_head? hfirst)⟩
  next => simp at h

theorem visit_harmless {ctx : Context Memory} (hctx : ctx.Ready width document info)
    (hshape : Ruby.isCall c = true → Ruby.CallShape c) (horderly : c.Orderly) :
    (visit ctx c).Harmless := by
  obtain ⟨words, hwords, -⟩ := hctx.words_option "Prefixes" (by decide)
  obtain ⟨lowered, hlowered⟩ := loweredWords_words words
  rw [visit]
  dsimp only
  split
  next description _ hdescription _ =>
    obtain ⟨hcall, list, hlist⟩ := argumentList_of_description hdescription
    have hspan := (hshape hcall).start_lt_sendEnd horderly hlist
    simp only [hwords, Except.bind, hlowered, Except.mapError, Outcome.withValue]
    split
    · refine Outcome.harmless_report _ _ _ _ (by rw [hctx.info]; rfl) (by rw [hctx.info]; decide)
        ?_ ?_ <;> simp only [Ruby.sendRange] <;> omega
    · exact Outcome.harmless_quiet _
  next => exact Outcome.harmless_quiet _

end NestedContext

/-! ## Redefinitions -/

namespace Redefinition

theorem grammarPattern_placed (description : String) :
    (grammarPattern description).wellPlaced = true := by
  rw [grammarPattern]
  split
  next hcompile => exact Pattern.compile_placed hcompile
  next => rfl

theorem capturedValues_ok (s : Source) (description : String) (c : Cursor) :
    ∃ r, capturedValues s (grammarPattern description) c = .ok r := by
  obtain ⟨r, hr⟩ := Pattern.run_ok ⟨s, fun _ _ => false⟩ (grammarPattern_placed description) c
  rw [capturedValues, hr]
  cases r <;> exact ⟨_, rfl⟩

theorem letName_ok (s : Source) (methods : List Value) (c : Cursor) :
    ∃ r, letName s methods c = .ok r := by
  obtain ⟨r, hr⟩ := capturedValues_ok s _ c
  rw [letName, namedDefinition, hr]
  cases r <;> exact ⟨_, rfl⟩

theorem subjectName_ok (s : Source) (methods : List Value) (c : Cursor) :
    ∃ r, subjectName s methods c = .ok r := by
  obtain ⟨r, hr⟩ := capturedValues_ok s _ c
  rw [subjectName, namedSubject, hr]
  cases r with
  | some values => exact ⟨_, rfl⟩
  | none =>
      obtain ⟨r, hr⟩ := capturedValues_ok s _ c
      rw [plainSubject, hr]
      cases r <;> exact ⟨_, rfl⟩

def messageParts (what : String) : List Template.Part :=
  [.text (what ++ " `:").toList, .field "name".toList,
    .text "` is already defined in ancestor(s) block(s) at: ".toList,
    .field "definitions".toList, .text ".".toList]

theorem message_letInfo :
    letInfo.message.toList = (messageParts "Let").flatMap Template.Part.written := by
  decide +kernel

theorem message_subjectInfo :
    subjectInfo.message.toList = (messageParts "Subject").flatMap Template.Part.written := by
  decide +kernel

def messageText (what name : String) (lines : List Nat) : String :=
  what ++ " `:" ++ name ++ "` is already defined in ancestor(s) block(s) at: " ++
    ", ".intercalate (lines.map toString) ++ "."

theorem messageText_ne_empty (what name : String) (lines : List Nat) :
    messageText what name lines ≠ "" := by
  intro hempty
  have hnil := congrArg String.toList hempty
  simp [messageText] at hnil

variable [Machine]

theorem message_eq {μ : Type} {ctx : Context μ} (what : String) (hwhat : what ∈ ["Let", "Subject"])
    (hmessage : ctx.info.message.toList = (messageParts what).flatMap Template.Part.written)
    (name : String) (lines : List Nat) :
    message ctx name lines = .ok (messageText what name lines) := by
  have hplain : ∀ part ∈ messageParts what, part.Plain
      [("name", .str name), ("definitions", .str (", ".intercalate (lines.map toString)))] := by
    intro part hpart
    simp only [messageParts, List.mem_cons, List.not_mem_nil, or_false] at hpart hwhat
    rcases hpart with rfl | rfl | rfl | rfl | rfl
    · rcases hwhat with rfl | rfl <;> simp only [Template.Part.Plain] <;> decide
    · exact Template.Part.plain_field (by decide) (by decide) rfl
    · simp only [Template.Part.Plain]
      decide
    · exact Template.Part.plain_field (by decide) (by decide) rfl
    · simp only [Template.Part.Plain]
      decide
  rw [message, Template.format_plain hmessage hplain, Except.mapError, messageText]
  generalize ", ".intercalate (lines.map toString) = listed
  refine congrArg Except.ok (String.ext ?_)
  simp [messageParts, Template.Part.filled, List.lookup_cons]

theorem message_ok {ctx : Context Memory} (what : String) (hwhat : what ∈ ["Let", "Subject"])
    (hmessage : ctx.info.message.toList = (messageParts what).flatMap Template.Part.written)
    (name : String) (lines : List Nat) :
    ∃ text, message ctx name lines = .ok text ∧ text ≠ "" :=
  ⟨_, message_eq what hwhat hmessage name lines, messageText_ne_empty what name lines⟩

section

variable {ctx : Context Memory} {naming : Naming} {methods : List Value}
variable (hnaming : ∀ s methods c, ∃ r, naming s methods c = .ok r)
variable (hmessage : ∀ name lines, ∃ text, message ctx name lines = .ok text ∧ text ≠ "")
variable (hcorrect : ctx.info.autocorrect = false)
variable (hsolid : ∀ x, Below top x → Ruby.isCall x = true → x.node.start < x.node.stop)

include hnaming hmessage hcorrect

theorem checkStatement_harmless (memory : Memory) (definitions : Definitions) {statement : Cursor}
    (h : statement.node.start < statement.node.stop) :
    (checkStatement ctx naming methods memory definitions statement).1.Harmless := by
  obtain ⟨r, hr⟩ := hnaming ctx.document.toSource methods statement
  rw [checkStatement]
  simp only [hr]
  cases r with
  | none => exact Outcome.harmless_quiet _
  | some name =>
      obtain ⟨text, htext, hne⟩ := hmessage name (linesOf definitions name)
      dsimp only
      split
      · exact Outcome.harmless_quiet _
      · simp only [htext, Outcome.withValue]
        refine Outcome.harmless_report _ _ _ _ hcorrect hne ?_ ?_ <;> simp only <;> omega

include hsolid

/-- Checking a group does not fail: each statement is a node of the tree, and a nested group is
checked on its own statements. -/
theorem scan_harmless (methods : List Value) (depth : Nat) (memory : Memory)
    (definitions : Definitions)
    (statements : List Cursor) (h : ∀ x ∈ statements, Below top x) :
    (scan ctx naming methods depth memory definitions statements).Harmless := by
  induction depth generalizing memory definitions statements with
  | zero => exact Outcome.harmless_quiet _
  | succ depth ih =>
      cases statements with
      | nil => exact Outcome.harmless_quiet _
      | cons statement rest =>
          have hstatement := h statement List.mem_cons_self
          have hrest := fun x hx => h x (List.mem_cons_of_mem statement hx)
          rw [scan]
          split
          · exact ih _ _ _ hrest
          next hcall =>
          split
          · refine (ih _ _ _ fun x hx => ?_).andThen fun memory => ih _ _ _ hrest
            exact hstatement.trans (Ruby.below_of_mem_blockStatements hx)
          · have hcall : Ruby.isCall statement = true := by simpa using hcall
            exact (checkStatement_harmless hnaming hmessage hcorrect memory definitions
              (hsolid statement hstatement hcall)).andThen fun memory => ih _ _ _ hrest

theorem visit_harmless (hmethods : (ctx.option "Methods" .null).members = .ok methods)
    (hc : Below top c) : (visit naming ctx c).Harmless := by
  have hscan := scan_harmless hnaming hmessage hcorrect hsolid methods
    (c.node.size + 1) ctx.memory [] (Ruby.blockStatements c)
    fun x hx => hc.trans (Ruby.below_of_mem_blockStatements hx)
  rw [visit]
  simp only [hmethods, Except.mapError, Outcome.withValue]
  split <;> split
  · exact Outcome.harmless_quiet _
  · exact hscan
  · exact Outcome.harmless_quiet _
  · exact hscan

end

theorem letRule_harmless {ctx : Context Memory} (hctx : ctx.Ready width document letInfo)
    (hsolid : ∀ x, Below top x → Ruby.isCall x = true → x.node.start < x.node.stop)
    (hc : Below top c) : (letRule.visit ctx c).Harmless := by
  obtain ⟨words, -, hwords⟩ := hctx.words_option "Methods" (by decide)
  exact visit_harmless letName_ok
    (message_ok "Let" (by decide) (by rw [hctx.info, message_letInfo]))
    (by rw [hctx.info]; rfl) hsolid hwords hc

theorem subjectRule_harmless {ctx : Context Memory} (hctx : ctx.Ready width document subjectInfo)
    (hsolid : ∀ x, Below top x → Ruby.isCall x = true → x.node.start < x.node.stop)
    (hc : Below top c) : (subjectRule.visit ctx c).Harmless := by
  obtain ⟨words, -, hwords⟩ := hctx.words_option "Methods" (by decide)
  exact visit_harmless subjectName_ok
    (message_ok "Subject" (by decide) (by rw [hctx.info, message_subjectInfo]))
    (by rw [hctx.info]; rfl) hsolid hwords hc

end Redefinition

end RubyLint
