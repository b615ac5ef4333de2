import RubyLint.Proofs.Files.Collect
import RubyLint.Proofs.Text.Glob

/-!
# Exclusion below a root

Patterns are matched against the way from the root of the analysis to a path.  For a path that is
spelled below the root and never goes up, that way is the path's own normal form: nothing of the
root is left in it, whatever the root is called and however often its names come again below.
-/

namespace RubyLint

namespace Path

variable {folder path root below : String} {kept front parts : List String}

/-! ## Names that lead down -/

/-- Names without empty ones and dots, which lead nowhere. -/
def plain (parts : List String) : List String :=
  parts.filter fun name => ¬(name = "" ∨ name = ".")

/-- Where no name leads up, every name that leads anywhere is kept. -/
theorem foldl_push_of_notUp (absolute : Bool) (kept : List String) (hup : ".." ∉ parts) :
    parts.foldl (push absolute) kept = (plain parts).reverse ++ kept := by
  induction parts generalizing kept with
  | nil => rfl
  | cons name rest ih =>
      obtain ⟨hname, hrest⟩ := List.ne_and_not_mem_of_not_mem_cons hup
      rw [List.foldl_cons, ih _ hrest, plain, plain, List.filter_cons]
      by_cases hblank : name = "" ∨ name = "."
      · rw [push_blank hblank, if_neg (decide_eq_true_iff.not.2 (not_not_intro hblank))]
      · rw [push_name hblank (Ne.symm hname), if_pos (decide_eq_true hblank), List.reverse_cons,
          List.append_assoc, List.singleton_append]

theorem normalNames_of_notUp (hup : ".." ∉ names path) : normalNames path = plain (names path) := by
  rw [normalNames, foldl_push_of_notUp _ _ hup, List.append_nil, List.reverse_reverse]

theorem normalNames_of_names (habsolute : isAbsolute below = true)
    (hnames : names below = front ++ names path) (hup : ".." ∉ names path) :
    normalNames below = (front.foldl (push true) []).reverse ++ plain (names path) := by
  rw [normalNames, habsolute, hnames, List.foldl_append, foldl_push_of_notUp _ _ hup,
    List.reverse_append, List.reverse_reverse]

/-! ## A path below a root -/

theorem ne_empty_of_isAbsolute (hroot : isAbsolute root = true) : root ≠ "" := by
  rintro rfl
  exact absurd hroot (by decide)

theorem not_beq_empty (hroot : isAbsolute root = true) : ¬(root == "") = true :=
  fun hempty => ne_empty_of_isAbsolute hroot (beq_iff_eq.1 hempty)

/-- The two ways to spell a path below a root. -/
inductive Spells (root path : String) : String → Prop where
  | joined : Spells root path (join root path)
  | slashed : Spells root path (root ++ "/" ++ path)

theorem Spells.isAbsolute (h : Spells root path below) (hroot : isAbsolute root = true) :
    isAbsolute below = true := by
  cases h with
  | joined => exact isAbsolute_join hroot path
  | slashed => exact isAbsolute_append (isAbsolute_append hroot "/") path

/-- Below a root stand its names and then those of the path, in whichever way that is spelled. -/
theorem Spells.normalNames_eq (h : Spells root path below) (hroot : Path.isAbsolute root = true)
    (hrelative : Path.isAbsolute path = false) (hup : ".." ∉ names path) :
    normalNames below = normalNames root ++ plain (names path) := by
  have habsolute := h.isAbsolute hroot
  cases h with
  | slashed =>
      rw [normalNames_of_names habsolute (names_append_slash root path) hup, normalNames, hroot]
  | joined =>
      by_cases hslash : root.toList.getLast? = some '/'
      · -- The slash at the end of the root leaves an empty name there.
        obtain ⟨front, hfront⟩ := List.getLast?_eq_some_iff.1 hslash
        obtain rfl : root = String.ofList front ++ "/" := by
          rw [← String.toList_inj, hfront, String.toList_append, String.toList_ofList]
          rfl
        have hrootNames :
            names (String.ofList front ++ "/") = names (String.ofList front) ++ [""] := by
          rw [← String.append_empty (s := _ ++ "/"), names_append_slash]
          rfl
        have hnames : names (join (String.ofList front ++ "/") path) =
            names (String.ofList front) ++ names path := by
          rw [join_of_slash hslash hrelative, names_append_slash]
        rw [normalNames_of_names habsolute hnames hup, normalNames, hroot, hrootNames,
          List.foldl_append, List.foldl_cons, push_blank (.inl rfl), List.foldl_nil]
      · have hnames : names (join root path) = names root ++ names path := by
          rw [join_of_noSlash (ne_empty_of_isAbsolute hroot) hslash hrelative, names_append_slash]
        rw [normalNames_of_names habsolute hnames hup, normalNames, hroot]

theorem dropCommon_append (as bs : List String) : dropCommon as (as ++ bs) = ([], bs) := by
  induction as with
  | nil => cases bs <;> rfl
  | cons a as ih =>
      rw [List.cons_append, dropCommon, if_pos (beq_self_eq_true a), ih]

theorem root_of_relative (hrelative : isAbsolute path = false) : Path.root path = "" := by
  rw [Path.root]
  split
  case h_4 => rfl
  -- In all other cases a slash stands in front.
  all_goals
    next htext => simp [isAbsolute, htext] at hrelative

/-- Names that lead somewhere make up a text that is not empty. -/
theorem ofNames_plain_ne_empty (h : plain (names path) ≠ []) :
    ofNames (plain (names path)) ≠ "" := by
  intro hempty
  have hnames : names (ofNames (plain (names path))) = plain (names path) :=
    names_ofNames (fun name hname => noSlash_of_mem_names (List.mem_of_mem_filter hname)) h
  rw [hempty] at hnames
  have hmem : "" ∈ plain (names path) := hnames ▸ List.mem_singleton_self ""
  exact of_decide_eq_true (List.mem_filter.1 hmem).2 (.inl rfl)

/-- The normal form of a relative path that never goes up. -/
theorem normal_of_notUp (hrelative : isAbsolute path = false) (hup : ".." ∉ names path) :
    normal path = if plain (names path) = [] then "." else ofNames (plain (names path)) := by
  rw [normal, root_of_relative hrelative, normalNames_of_notUp hup, String.empty_append]
  by_cases hnil : plain (names path) = []
  · rw [hnil]
    rfl
  · rw [if_neg hnil]
    exact if_neg (by simpa using ofNames_plain_ne_empty hnil)

/-- The way from a root to a path below it is the normal form of the path. -/
theorem Spells.relative_eq (h : Spells root path below) (hroot : Path.isAbsolute root = true)
    (hrelative : Path.isAbsolute path = false) (hup : ".." ∉ names path) (folder : String) :
    relative folder below root = normal path := by
  rw [relative, join_of_isAbsolute hroot, join_of_isAbsolute (h.isAbsolute hroot),
    h.normalNames_eq hroot hrelative hup, dropCommon_append, normal_of_notUp hrelative hup]
  simp

end Path

namespace Files

variable {files : Files} {root path below : String}

/-- What a path below a root is matched by is its normal form. -/
theorem isExcluded_spelled (hrelative : Path.isAbsolute path = false)
    (hup : ".." ∉ Path.names path) (hroot : Path.isAbsolute root = true)
    (hbelow : Path.Spells root path below) (exclude : Value) :
    files.isExcluded exclude root below =
      if exclude.truthy then Config.selects exclude (Path.normal path) else .ok false := by
  simp only [isExcluded, if_neg (Path.not_beq_empty hroot), hbelow.relative_eq hroot hrelative hup]
  cases exclude.truthy <;> rfl

/-- Without a root paths are taken from the working folder. -/
theorem isExcluded_noRoot (hfolder : Path.isAbsolute files.folder = true) (exclude : Value)
    (path : String) :
    files.isExcluded exclude "" path =
      files.isExcluded exclude files.folder (Path.join files.folder path) := by
  have hjoin : Path.join files.folder (Path.join files.folder path) = Path.join files.folder path :=
    Path.join_of_isAbsolute (Path.isAbsolute_join hfolder path)
  simp only [isExcluded, if_neg (Path.not_beq_empty hfolder), Path.relative, hjoin]
  rfl

/-- Whether a path below a root is excluded depends on the path and the patterns alone: one of them
must match its normal form.  Any two runs agree on it, wherever their roots are and whichever folder
they work in, whatever stands for the patterns; the working folder is the root if none is given. -/
theorem isExcluded_below (path : String) (hrelative : Path.isAbsolute path = false)
    (hup : ".." ∉ Path.names path) :
    (∀ (files : Files) (root below : String), Path.isAbsolute root = true →
      Path.Spells root path below → ∀ patterns : List String, ∃ excluded,
        files.isExcluded (.list (patterns.map .str)) root below = .ok excluded ∧
        (excluded = true ↔ ∃ pattern ∈ patterns,
          Glob.Matches (Glob.parts pattern) (Path.normal path).toList)) ∧
    (∀ (files files' : Files) (root root' below below' : String),
      Path.isAbsolute root = true → Path.isAbsolute root' = true →
      Path.Spells root path below → Path.Spells root' path below' → ∀ exclude : Value,
        files.isExcluded exclude root below = files'.isExcluded exclude root' below') ∧
    (∀ files : Files, Path.isAbsolute files.folder = true → ∀ exclude : Value,
      files.isExcluded exclude "" path =
        files.isExcluded exclude files.folder (Path.join files.folder path)) ∧
    Path.normal path =
      if Path.plain (Path.names path) = [] then "."
      else Path.ofNames (Path.plain (Path.names path)) := by
  refine ⟨fun files root below hroot hbelow patterns => ?_,
    fun files files' root root' below below' hroot hroot' hbelow hbelow' exclude => ?_,
    fun files hfolder exclude => isExcluded_noRoot hfolder exclude path,
    Path.normal_of_notUp hrelative hup⟩
  · refine ⟨_, isExcluded_strings files patterns root below, ?_⟩
    rw [if_neg (Path.not_beq_empty hroot), hbelow.relative_eq hroot hrelative hup,
      List.any_eq_true]
    simp only [Glob.matchesText_iff]
  · rw [isExcluded_spelled hrelative hup hroot hbelow,
      isExcluded_spelled hrelative hup hroot' hbelow']

/-- A folder named `vendor` above the root is not matched, and neither are the slashes at the ends
of the roots; the star reaches over the folders below them. -/
theorem isExcluded_below_vendor :
    workshop.isExcluded (.list [.str "vendor/*"]) "/vendor/app//" "/vendor/app//./lib//x/y.rb" =
      .ok false ∧
    workshop.isExcluded (.list [.str "tmp", .str "lib/*.rb"]) "/" "//./lib//x/y.rb" =
      .ok true := by
  obtain ⟨hall, -⟩ := isExcluded_below "./lib//x/y.rb" (by decide +kernel) (by decide +kernel)
  have hnormal : Path.normal "./lib//x/y.rb" = "lib/x/y.rb" := by decide +kernel
  rw [hnormal] at hall
  constructor
  · obtain ⟨excluded, hexcluded, hiff⟩ := hall workshop "/vendor/app//" "/vendor/app//./lib//x/y.rb"
      (by decide +kernel) .joined ["vendor/*"]
    have hnone : ¬excluded = true := by
      rw [hiff]
      rintro ⟨pattern, hpattern, hmatch⟩
      obtain rfl := List.mem_singleton.1 hpattern
      exact absurd ((Glob.matchesText_iff _ _).2 hmatch) (by decide +kernel)
    rw [Bool.eq_false_iff.2 hnone] at hexcluded
    exact hexcluded
  · obtain ⟨excluded, hexcluded, hiff⟩ := hall workshop "/" "//./lib//x/y.rb"
      (by decide +kernel) .slashed ["tmp", "lib/*.rb"]
    have hsome : excluded = true :=
      hiff.2 ⟨"lib/*.rb", by simp, (Glob.matchesText_iff _ _).1 (by decide +kernel)⟩
    rw [hsome] at hexcluded
    exact hexcluded

end Files

end RubyLint
