import Mathlib.Data.List.Infix
import RubyLint.Suppression

/-!
# Texts that name the tool

A text that does not name the tool is not read for suppressions.  The name is looked for in lower
case only, while a directive may spell it in any case; so the two agree on every text that spells
the name in lower case somewhere, if it spells it at all, and may disagree on any other.
-/

namespace RubyLint

theorem Text.occursIn_iff {needle s : List Char} : occursIn needle s = true ↔ needle <:+: s := by
  induction s with
  | nil => simp [occursIn]
  | cons c s ih => simp [occursIn, List.infix_cons_iff, ih]

theorem Text.trimLeft_suffix (s : List Char) : trimLeft s <:+ s :=
  List.dropWhile_suffix _

namespace Suppression

variable {text : String} {word s rest body line : List Char} {fuel : Nat}

def toolName : List Char :=
  "treecop".toList

/-- Whether a text spells the name of the tool, in any case. -/
def Names (s : List Char) : Prop :=
  ∃ spelling, spelling <:+: s ∧ spelling.map foldCase = toolName

theorem Names.mono (h : Names s) (hs : s <:+: line) : Names line := by
  obtain ⟨spelling, hspelling, hname⟩ := h
  exact ⟨spelling, hspelling.trans hs, hname⟩

/-! ## Directives name the tool -/

theorem dropWord?_eq_some (h : dropWord? word s = some rest) :
    ∃ spelling, s = spelling ++ rest ∧ spelling.map foldCase = word := by
  induction word generalizing s with
  | nil => exact ⟨[], by simpa [dropWord?] using h, rfl⟩
  | cons w word ih =>
      cases s with
      | nil => simp [dropWord?] at h
      | cons c s =>
          rw [dropWord?] at h
          split at h
          next hc =>
            obtain ⟨spelling, rfl, hword⟩ := ih h
            exact ⟨c :: spelling, rfl, by rw [List.map_cons, beq_iff_eq.1 hc, hword]⟩
          next => nomatch h

theorem names_of_dropWords? (h : dropWords? s = some rest) : Names s := by
  obtain ⟨after, hafter, -⟩ := Option.bind_eq_some_iff.1 h
  obtain ⟨spelling, hs, hword⟩ := dropWord?_eq_some hafter
  have hinfix : spelling.dropLast <:+: Text.trimLeft s :=
    (List.dropLast_prefix spelling).isInfix.trans ⟨[], after, by simp [hs]⟩
  exact ⟨spelling.dropLast, hinfix.trans (Text.trimLeft_suffix s).isInfix,
    by rw [List.map_dropLast, hword]; rfl⟩

theorem names_of_directive? (h : directive? s = some (body, rest)) : Names s := by
  obtain ⟨after, hafter, -⟩ := Option.bind_eq_some_iff.1 h
  exact names_of_dropWords? hafter

theorem names_of_directivesIn (h : directivesIn fuel s ≠ []) : Names s := by
  fun_induction directivesIn fuel s with
  | case1 => simp at h
  | case2 => simp at h
  | case3 fuel c s _ body rest hdirective =>
      exact (names_of_directive? hdirective).mono (List.suffix_cons c s).isInfix
  | case4 fuel c s _ _ ih => exact (ih h).mono (List.suffix_cons c s).isInfix
  | case5 fuel c s _ ih => exact (ih h).mono (List.suffix_cons c s).isInfix

theorem names_of_linePatterns (h : linePatterns line ≠ []) : Names line := by
  have hsome : directivesIn (line.length + 1) line ≠ [] := by
    intro hnone
    exact h (by rw [linePatterns, hnone]; rfl)
  exact names_of_directivesIn hsome

/-! ## Lines of a text -/

theorem infix_of_mem_linesOf (h : line ∈ linesOf text) : line <:+: text.toList := by
  obtain ⟨i, hi, rfl⟩ := List.getElem_of_mem h
  have hjoin : ['\n'].intercalate (linesOf text) = text.toList := List.intercalate_splitOn '\n'
  have hmem : (linesOf text)[i] ∈ (linesOf text).intersperse ['\n'] := by
    refine List.mem_of_getElem? (i := 2 * i) ?_
    rw [List.getElem?_intersperse_two_mul, List.getElem?_eq_getElem hi]
  rw [← hjoin]
  exact List.infix_of_mem_flatten hmem

/-- A text that does not name the tool in any case has no suppressions. -/
theorem isSuppressed_of_unnamed (h : ¬Names text.toList) (rule : String) (start : Int) :
    isSuppressed (ofText text) rule start = false := by
  have hnone : (ofText text).lines = [] := by
    rw [ofText, List.filter_eq_nil_iff]
    intro entry hentry
    obtain ⟨i, hi, rfl⟩ := List.mem_mapIdx.1 hentry
    have hline : linePatterns (linesOf text)[i] = [] := by
      by_contra hpatterns
      exact h ((names_of_linePatterns hpatterns).mono (infix_of_mem_linesOf (List.getElem_mem hi)))
    simp [hline]
  rw [isSuppressed, hnone]
  rfl

/-- What is kept of some findings when every line is read for suppressions. -/
def unsuppressed (text : String) (findings : List Finding) : List Finding :=
  findings.filter fun f => !isSuppressed (ofText text) f.offense.rule f.offense.start

theorem keep_of_named (findings : List Finding) (h : toolName <:+: text.toList) :
    keep text findings = unsuppressed text findings := by
  have hoccurs : Text.occursIn "treecop".toList text.toList = true := Text.occursIn_iff.2 h
  cases findings with
  | nil => rfl
  | cons f rest =>
      rw [keep, hoccurs]
      rfl

theorem keep_of_not_named (findings : List Finding) (h : ¬toolName <:+: text.toList) :
    keep text findings = findings := by
  have hoccurs : Text.occursIn "treecop".toList text.toList = false := by
    rw [Bool.eq_false_iff, ne_eq, Text.occursIn_iff]
    exact h
  rw [keep, hoccurs, Bool.not_false, Bool.or_true, if_pos rfl]

/-- A text that spells the name of the tool in lower case somewhere, if it spells it at all,
silences exactly the findings that its suppressions silence; the others are kept in their order. -/
theorem keep_eq_unsuppressed (text : String) (findings : List Finding)
    (h : Names text.toList → toolName <:+: text.toList) :
    keep text findings = unsuppressed text findings := by
  by_cases hlower : toolName <:+: text.toList
  · exact keep_of_named findings hlower
  · have hunnamed : ¬Names text.toList := fun hnames => hlower (h hnames)
    rw [keep_of_not_named findings hlower, unsuppressed, List.filter_eq_self.2]
    intro f _
    rw [isSuppressed_of_unnamed hunnamed, Bool.not_false]

def leading (rule : String) : Finding where
  serial := 0
  offense :=
    { rule, message := "m", file := "test.rb", start := 0, stop := 3, severity := "warn",
      edits := [], details := .null }

theorem keep_eq_unsuppressed_ignored :
    (Names "a.b # treecop: ignore[layout.*]".toList →
      toolName <:+: "a.b # treecop: ignore[layout.*]".toList) ∧
    keep "a.b # treecop: ignore[layout.*]" [leading "layout.one", leading "rspec.one"] =
      unsuppressed "a.b # treecop: ignore[layout.*]" [leading "layout.one", leading "rspec.one"] ∧
    (unsuppressed "a.b # treecop: ignore[layout.*]"
      [leading "layout.one", leading "rspec.one"]).length = 1 :=
  have h : toolName <:+: "a.b # treecop: ignore[layout.*]".toList :=
    Text.occursIn_iff.1 (by decide +kernel)
  ⟨fun _ => h, keep_eq_unsuppressed _ _ fun _ => h, by decide +kernel⟩

/-- A directive in upper case silences nothing, unless the name is in lower case elsewhere. -/
theorem keep_ne_unsuppressed_upper :
    keep "a.b # TREECOP: ignore[layout.*]" [leading "layout.one"] ≠
      unsuppressed "a.b # TREECOP: ignore[layout.*]" [leading "layout.one"] := by
  intro h
  have hlength := congrArg List.length h
  revert hlength
  decide +kernel

end Suppression

end RubyLint
