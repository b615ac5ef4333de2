import Mathlib.Data.List.TakeWhile
import RubyLint.Text.Class

/-!
# Blanks

No blank is part of a word, and trimming leaves nothing of a text exactly if it is all blanks.
-/

namespace RubyLint.Text

variable {c : Char} {s : List Char}

/-! ## Blanks and words -/

/-- No range of the one table meets a range of the other. -/
def Apart (ranges others : List (Nat × Nat)) : Prop :=
  ∀ range ∈ ranges, ∀ other ∈ others, range.2 < other.1 ∨ other.2 < range.1

instance (ranges others : List (Nat × Nat)) : Decidable (Apart ranges others) :=
  inferInstanceAs (Decidable (∀ range ∈ ranges, ∀ other ∈ others, _ ∨ _))

theorem Apart.inRanges_eq_false {ranges others : List (Nat × Nat)} {code : Nat}
    (h : Apart ranges others) (hcode : inRanges ranges code = true) :
    inRanges others code = false := by
  rw [Bool.eq_false_iff]
  intro hother
  simp only [inRanges, List.any_eq_true, Bool.and_eq_true, decide_eq_true_eq] at hcode hother
  obtain ⟨range, hrange, hlow, hhigh⟩ := hcode
  obtain ⟨other, hmem, hlow', hhigh'⟩ := hother
  have := h range hrange other hmem
  omega

theorem wideBlankRanges_apart : Apart wideBlankRanges letterOrNumberRanges := by
  decide +kernel

theorem isWord_of_isBlank_ascii :
    ∀ code < 128, isBlank (Char.ofNat code) = true → isWord (Char.ofNat code) = false := by
  decide +kernel

theorem isWord_of_isBlank (h : isBlank c = true) : isWord c = false := by
  by_cases hcode : c.toNat < 128
  · have hascii := isWord_of_isBlank_ascii c.toNat hcode
    rw [Char.ofNat_toNat] at hascii
    exact hascii h
  · rw [isBlank, if_neg hcode] at h
    rw [isWord, if_neg hcode]
    exact wideBlankRanges_apart.inRanges_eq_false h

/-! ## Trimming -/

theorem trimLeft_eq_append (s : List Char) :
    ∃ blanks, s = blanks ++ trimLeft s ∧ ∀ c ∈ blanks, isBlank c = true :=
  ⟨s.takeWhile isBlank, List.takeWhile_append_dropWhile.symm,
    fun _ hc => List.mem_takeWhile_imp hc⟩

theorem dropEndWhile_eq_nil_iff {test : Char → Bool} :
    dropEndWhile test s = [] ↔ ∀ c ∈ s, test c = true := by
  rw [dropEndWhile, List.reverse_eq_nil_iff, List.dropWhile_eq_nil_iff]
  simp only [List.mem_reverse]

theorem trim_eq_nil_iff : trim s = [] ↔ ∀ c ∈ s, isBlank c = true := by
  obtain ⟨blanks, hs, hblanks⟩ := trimLeft_eq_append s
  rw [trim, dropEndWhile_eq_nil_iff]
  constructor
  · intro h c hc
    rw [hs, List.mem_append] at hc
    exact hc.elim (hblanks c) (h c)
  · intro h c hc
    exact h c ((List.dropWhile_suffix _).subset hc)

end RubyLint.Text
