import RubyLint.Proofs.CommandLine.Writing
import RubyLint.Proofs.Files.Walk

/-!
# Collected files

The paths of a command line name files, and one file may be named many times: by itself, through a
folder, through a folder of that folder, in different spellings.  Each of these is an occurrence.  A
run collects the first occurrence of every absolute path that is not excluded, in the order in which
they occur.
-/

namespace RubyLint

/-! ## First elements of a key -/

section FirstOfKey

variable {α κ : Type} {R : α → α → Prop} {key : α → κ} {x a : α} {xs : List α}

/-- An element of a list such that none before it has the same key. -/
def FirstOfKey (R : α → α → Prop) (key : α → κ) (xs : List α) (a : α) : Prop :=
  a ∈ xs ∧ ∀ b ∈ xs, R b a → key b ≠ key a

theorem firstOfKey_cons (hasymm : ∀ a b, R a b → ¬R b a) (hx : ∀ a ∈ xs, R x a) :
    FirstOfKey R key (x :: xs) a ↔ a = x ∨ FirstOfKey R key xs a ∧ key a ≠ key x := by
  constructor
  · rintro ⟨ha, hfirst⟩
    rw [List.forall_mem_cons] at hfirst
    obtain rfl | ha := List.mem_cons.1 ha
    · exact .inl rfl
    · exact .inr ⟨⟨ha, hfirst.2⟩, (hfirst.1 (hx a ha)).symm⟩
  · rintro (rfl | ⟨⟨ha, hfirst⟩, hne⟩)
    · refine ⟨List.mem_cons_self, fun b hb hba => ?_⟩
      obtain rfl | hb := List.mem_cons.1 hb
      · exact absurd hba (hasymm b b hba)
      · exact absurd hba (hasymm a b (hx b hb))
    · refine ⟨List.mem_cons_of_mem x ha, ?_⟩
      rw [List.forall_mem_cons]
      exact ⟨fun _ => hne.symm, hfirst⟩

theorem firstOfKey_cons_of_ne (hasymm : ∀ a b, R a b → ¬R b a) (hx : ∀ a ∈ xs, R x a)
    (hne : key a ≠ key x) : FirstOfKey R key (x :: xs) a ↔ FirstOfKey R key xs a := by
  have hother : a ≠ x := fun heq => hne (congrArg key heq)
  rw [firstOfKey_cons hasymm hx, or_iff_right hother, and_iff_left hne]

theorem exists_firstOfKey (hasymm : ∀ a b, R a b → ¬R b a) (hxs : xs.Pairwise R) (ha : a ∈ xs) :
    ∃ c, FirstOfKey R key xs c ∧ key c = key a := by
  induction hxs with
  | nil => nomatch ha
  | @cons x xs hx hxs ih =>
      by_cases hkey : key x = key a
      · exact ⟨x, (firstOfKey_cons hasymm hx).2 (.inl rfl), hkey⟩
      · have ha : a ∈ xs :=
          (List.mem_cons.1 ha).resolve_left fun heq => hkey (congrArg key heq.symm)
        obtain ⟨c, hfirst, hc⟩ := ih ha
        refine ⟨c, (firstOfKey_cons hasymm hx).2 (.inr ⟨hfirst, fun heq => hkey ?_⟩), hc⟩
        exact heq.symm.trans hc

end FirstOfKey

namespace Files

variable {files : Files} {paths patterns : List String} {root path other : String}
variable {route : List String}

/-! ## Exclusion -/

theorem matchesAny_strings (text : String) (patterns : List String) :
    Config.matchesAny text (patterns.map .str) =
      .ok (patterns.any fun pattern => Glob.matchesText pattern text) := by
  induction patterns with
  | nil => rfl
  | cons pattern rest ih =>
      rw [List.map_cons, Config.matchesAny, ih, List.any_cons]
      split
      next hmatch => rw [hmatch, Bool.true_or]
      next hmatch => rw [Bool.eq_false_iff.2 hmatch, Bool.false_or]

/-- Whether a path is excluded by patterns: its way from the root matches one of them. -/
theorem isExcluded_strings (files : Files) (patterns : List String) (root path : String) :
    files.isExcluded (.list (patterns.map .str)) root path =
      .ok (patterns.any fun pattern => Glob.matchesText pattern
        (Path.relative files.folder path (if root == "" then files.folder else root))) := by
  cases patterns with
  | nil => rfl
  | cons pattern rest => exact matchesAny_strings _ (pattern :: rest)

/-- Paths with one absolute form are excluded together. -/
theorem isExcluded_eq (hfolder : Path.isAbsolute files.folder = true)
    (h : files.absolute path = files.absolute other) (patterns : Value) (root : String) :
    files.isExcluded patterns root path = files.isExcluded patterns root other := by
  simp only [isExcluded, Path.relative_eq_of_absolute_eq hfolder h]

/-! ## Duplicates -/

/-- Whether a path is kept after those whose absolute paths were seen. -/
def Admits (files : Files) (patterns : List String) (root : String) (seen : List String)
    (path : String) : Prop :=
  files.isExcluded (.list (patterns.map .str)) root path = .ok false ∧ files.absolute path ∉ seen

/-- Of elements that spell paths, those are kept that are the first ones of their absolute path and
admitted. -/
theorem dedupe_map {α : Type} {R : α → α → Prop} (hasymm : ∀ a b, R a b → ¬R b a)
    (hfolder : Path.isAbsolute files.folder = true) (patterns : List String) (root : String)
    (spell : α → String) {listed : List α} (hlisted : listed.Pairwise R) (seen : List String) :
    ∃ chosen : List α,
      files.dedupe (.list (patterns.map .str)) root seen (listed.map spell) =
        .ok (chosen.map spell) ∧
      chosen.Sublist listed ∧
      ∀ a, a ∈ chosen ↔ FirstOfKey R (fun b => files.absolute (spell b)) listed a ∧
        files.Admits patterns root seen (spell a) := by
  induction hlisted generalizing seen with
  | nil =>
      refine ⟨[], rfl, .slnil, fun a => ?_⟩
      exact iff_of_false List.not_mem_nil fun h => List.not_mem_nil h.1.1
  | @cons x xs hx hxs ih =>
      -- If nothing of the key of `x` is admitted, it makes no difference that `x` comes first.
      have hskip : (∀ a, files.absolute (spell a) = files.absolute (spell x) →
          ¬files.Admits patterns root seen (spell a)) → ∀ a,
          FirstOfKey R (fun b => files.absolute (spell b)) xs a ∧
              files.Admits patterns root seen (spell a) ↔
            FirstOfKey R (fun b => files.absolute (spell b)) (x :: xs) a ∧
              files.Admits patterns root seen (spell a) := fun hnone a =>
        and_congr_left fun hadmits =>
          (firstOfKey_cons_of_ne hasymm hx fun heq => hnone a heq hadmits).symm
      obtain ⟨excluded, hexcluded⟩ : ∃ excluded,
          files.isExcluded (.list (patterns.map .str)) root (spell x) = .ok excluded :=
        ⟨_, isExcluded_strings files patterns root (spell x)⟩
      rw [List.map_cons, dedupe, hexcluded]
      by_cases hseen : files.absolute (spell x) ∈ seen
      · obtain ⟨chosen, hchosen, hsub, hmem⟩ := ih seen
        rw [if_pos (List.contains_iff_mem.2 hseen)]
        refine ⟨chosen, hchosen, hsub.cons x, fun a => (hmem a).trans (hskip ?_ a)⟩
        intro a heq hadmits
        rw [← heq] at hseen
        exact hadmits.2 hseen
      rw [if_neg fun h => hseen (List.contains_iff_mem.1 h)]
      cases excluded with
      | true =>
          obtain ⟨chosen, hchosen, hsub, hmem⟩ := ih seen
          refine ⟨chosen, hchosen, hsub.cons x, fun a => (hmem a).trans (hskip ?_ a)⟩
          intro a heq hadmits
          rw [Admits, isExcluded_eq hfolder heq, hexcluded] at hadmits
          cases hadmits.1
      | false =>
          obtain ⟨chosen, hchosen, hsub, hmem⟩ := ih (files.absolute (spell x) :: seen)
          refine ⟨x :: chosen, ?_, hsub.cons_cons x, fun a => ?_⟩
          · change (files.dedupe _ root _ _ >>= fun rest => pure (spell x :: rest)) = _
            rw [hchosen]
            rfl
          rw [List.mem_cons, hmem, firstOfKey_cons hasymm hx, Admits, List.mem_cons, not_or]
          constructor
          · rintro (rfl | ⟨hfirst, hallowed, hne, hnew⟩)
            · exact ⟨.inl rfl, hexcluded, hseen⟩
            · exact ⟨.inr ⟨hfirst, hne⟩, hallowed, hnew⟩
          · rintro ⟨rfl | ⟨hfirst, hne⟩, hallowed, hnew⟩
            · exact .inl rfl
            · exact .inr ⟨hfirst, hallowed, hne, hnew⟩

/-! ## Occurrences -/

/-- The files that a path names, by their routes from it: the path itself if it leads to a file and
ends in the name of a Ruby file, and the Ruby files below it. -/
inductive Yields (files : Files) (path : String) : List String → Prop where
  | itself {data : List UInt8} (hfound : files.find? path = some (.file data))
      (hname : FileTree.isRubyName (Path.lastName path) = true) : Yields files path []
  | inside {there : FileTree} {route : List String} (hfound : files.find? path = some there)
      (hroute : there.Reaches route) : Yields files path route

/-- A place in a list of paths, and a route from the path there. -/
structure Occurrence where
  argument : Nat
  route : List String

namespace Occurrence

/-- The path of an occurrence: that of the list with the names of the route behind it. -/
def spelling (paths : List String) (o : Occurrence) : String :=
  o.route.foldl Path.join (paths[o.argument]?.getD "")

/-- Occurrences are in the order of the paths, and those from one path in the order of the walk. -/
def Before (o o' : Occurrence) : Prop :=
  o.argument < o'.argument ∨ o.argument = o'.argument ∧ FileTree.RouteBefore o.route o'.route

theorem Before.asymm {o o' : Occurrence} (h : o.Before o') : ¬o'.Before o := by
  rintro (hless' | ⟨heq', hroute'⟩)
  · rcases h with hless | ⟨heq, -⟩
    · exact Nat.lt_asymm hless hless'
    · exact Nat.ne_of_lt hless' heq.symm
  · rcases h with hless | ⟨-, hroute⟩
    · exact Nat.ne_of_lt hless heq'.symm
    · exact hroute.asymm hroute'

end Occurrence

def Occurs (files : Files) (paths : List String) (o : Occurrence) : Prop :=
  ∃ path, paths[o.argument]? = some path ∧ files.Yields path o.route

/-- What a path leads to in a sound tree is sound. -/
theorem sound_of_find? (hfolder : Path.isAbsolute files.folder = true)
    (hsound : files.tree.Sound) {there : FileTree} (h : files.find? path = some there) :
    there.Sound :=
  hsound.at? (at?_place hfolder h)

theorem not_yields_of_none (hfound : files.find? path = none) : ¬files.Yields path route := by
  rintro (⟨hpath, -⟩ | ⟨hpath, -⟩) <;> nomatch hfound.symm.trans hpath

theorem yields_file_iff {data : List UInt8} (hfound : files.find? path = some (.file data)) :
    files.Yields path route ↔
      route = [] ∧ FileTree.isRubyName (Path.lastName path) = true := by
  constructor
  · rintro (⟨-, hname⟩ | ⟨hpath, hroute⟩)
    · exact ⟨rfl, hname⟩
    · obtain rfl := Option.some.inj (hfound.symm.trans hpath)
      nomatch hroute
  · rintro ⟨rfl, hname⟩
    exact .itself hfound hname

theorem yields_folder_iff {entries : List (String × FileTree)}
    (hfound : files.find? path = some (.folder entries)) :
    files.Yields path route ↔ (FileTree.folder entries).Reaches route := by
  constructor
  · rintro (⟨hpath, -⟩ | ⟨hpath, hroute⟩)
    · nomatch hfound.symm.trans hpath
    · rwa [Option.some.inj (hfound.symm.trans hpath)]
  · exact .inside hfound

/-- The routes from one path, in their order. -/
theorem exists_routes (hfolder : Path.isAbsolute files.folder = true) (hsound : files.tree.Sound)
    (path : String) :
    ∃ routes : List (List String),
      (files.listPath path).1 = routes.map (List.foldl Path.join path) ∧
      routes.Pairwise FileTree.RouteBefore ∧ ∀ route, route ∈ routes ↔ files.Yields path route := by
  rw [listPath]
  cases hfound : files.find? path with
  | none =>
      refine ⟨[], rfl, .nil, fun route => ?_⟩
      exact iff_of_false List.not_mem_nil (not_yields_of_none hfound)
  | some there =>
      cases there with
      | file data =>
          simp only [yields_file_iff hfound]
          by_cases hname : FileTree.isRubyName (Path.lastName path) = true
          · refine ⟨[[]], if_pos hname, List.pairwise_singleton _ _, fun route => ?_⟩
            rw [List.mem_singleton, and_iff_left hname]
          · refine ⟨[], if_neg hname, .nil, fun route => ?_⟩
            exact iff_of_false List.not_mem_nil fun h => hname h.2
      | folder entries =>
          simp only [yields_folder_iff hfound]
          obtain ⟨routes, hpaths, hordered, hroutes⟩ :=
            (sound_of_find? hfolder hsound hfound).exists_routes
          exact ⟨routes, hpaths path, hordered, hroutes⟩

/-- The paths that are listed are the spellings of the occurrences, in their order. -/
theorem exists_occurrences (hfolder : Path.isAbsolute files.folder = true)
    (hsound : files.tree.Sound) (paths : List String) :
    ∃ listed : List Occurrence,
      (files.list paths).1 = listed.map (Occurrence.spelling paths) ∧
      listed.Pairwise Occurrence.Before ∧ ∀ o, o ∈ listed ↔ files.Occurs paths o := by
  choose routes hspelled hordered hroutes using fun path => exists_routes hfolder hsound path
  refine ⟨paths.zipIdx.flatMap fun x => (routes x.1).map (⟨x.2, ·⟩), ?_, ?_, ?_⟩
  · have hat : ∀ x ∈ paths.zipIdx, (files.listPath x.1).1 =
        ((routes x.1).map (⟨x.2, ·⟩)).map (Occurrence.spelling paths) := by
      intro x hx
      rw [hspelled, List.map_map]
      apply List.map_congr_left
      intro route _
      rw [Function.comp_apply, Occurrence.spelling, List.mem_zipIdx_iff_getElem?.1 hx,
        Option.getD_some]
    calc
      (files.list paths).1 = paths.flatMap fun path => (files.listPath path).1 := by
        rw [list, List.flatMap_map]
      _ = paths.zipIdx.flatMap fun x => (files.listPath x.1).1 := by
        conv_lhs => rw [← List.zipIdx_map_fst 0 paths, List.flatMap_map]
      _ = _ := by rw [List.flatMap_congr hat, List.map_flatMap]
  · rw [List.pairwise_flatMap]
    refine ⟨fun x _ => ?_, (pairwise_zipIdx paths).imp fun hless => ?_⟩
    · exact List.pairwise_map.2 ((hordered x.1).imp fun hroute => .inr ⟨rfl, hroute⟩)
    · rw [List.forall_mem_map]
      intro route _
      rw [List.forall_mem_map]
      exact fun route' _ => .inl hless
  · rintro ⟨argument, route⟩
    rw [List.mem_flatMap]
    constructor
    · rintro ⟨⟨path, i⟩, hpath, ho⟩
      obtain ⟨route', hroute, heq⟩ := List.mem_map.1 ho
      obtain ⟨rfl, rfl⟩ := Occurrence.mk.inj heq
      exact ⟨path, List.mem_zipIdx_iff_getElem?.1 hpath, (hroutes path _).1 hroute⟩
    · rintro ⟨path, hpath, hyields⟩
      refine ⟨(path, argument), List.mem_zipIdx_iff_getElem?.2 hpath, ?_⟩
      exact List.mem_map_of_mem ((hroutes path route).2 hyields)

theorem find?_of_occurs (hfolder : Path.isAbsolute files.folder = true)
    (hsound : files.tree.Sound) {o : Occurrence} (h : files.Occurs paths o) :
    ∃ data, files.find? (o.spelling paths) = some (.file data) := by
  obtain ⟨argument, route⟩ := o
  obtain ⟨path, hpath, hyields⟩ := h
  rw [Occurrence.spelling, hpath, Option.getD_some]
  cases hyields with
  | itself hfound _ => exact ⟨_, hfound⟩
  | inside hfound hroute => exact find?_route (sound_of_find? hfolder hsound hfound) hfound hroute

/-- In a tree whose folders have one entry for a name, a run collects the first occurrence of every
absolute path that is not excluded.  So no two of the paths have the same absolute form, and each
leads to a file; their absolute forms are those of all occurrences that are not excluded; and they
are in the order of the occurrences. -/
theorem collect_first_occurrences (files : Files) (hfolder : Path.isAbsolute files.folder = true)
    (hsound : files.tree.Sound) (paths patterns : List String) (root : String) :
    ∃ chosen : List Occurrence,
      files.collect paths (.list (patterns.map .str)) root =
        .ok (chosen.map (Occurrence.spelling paths)) ∧
      (chosen.map fun o => files.absolute (o.spelling paths)).Nodup ∧
      (∀ key, key ∈ chosen.map (fun o => files.absolute (o.spelling paths)) ↔
        ∃ o, files.Occurs paths o ∧ files.absolute (o.spelling paths) = key ∧
          files.isExcluded (.list (patterns.map .str)) root (o.spelling paths) = .ok false) ∧
      (∀ o, o ∈ chosen ↔ files.Occurs paths o ∧
        files.isExcluded (.list (patterns.map .str)) root (o.spelling paths) = .ok false ∧
        ∀ o', files.Occurs paths o' → o'.Before o →
          files.absolute (o'.spelling paths) ≠ files.absolute (o.spelling paths)) ∧
      chosen.Pairwise Occurrence.Before ∧
      ∀ o ∈ chosen, ∃ data, files.find? (o.spelling paths) = some (.file data) := by
  obtain ⟨listed, hlisted, hordered, hoccurs⟩ := exists_occurrences hfolder hsound paths
  obtain ⟨chosen, hchosen, hsub, hmem⟩ := dedupe_map (fun _ _ => Occurrence.Before.asymm) hfolder
    patterns root (Occurrence.spelling paths) hordered []
  have hcollect : files.collect paths (.list (patterns.map .str)) root =
      .ok (chosen.map (Occurrence.spelling paths)) := by
    rw [collect, hlisted, hchosen]
  have hfirst : ∀ o, o ∈ chosen ↔ files.Occurs paths o ∧
      files.isExcluded (.list (patterns.map .str)) root (o.spelling paths) = .ok false ∧
      ∀ o', files.Occurs paths o' → o'.Before o →
        files.absolute (o'.spelling paths) ≠ files.absolute (o.spelling paths) := by
    intro o
    rw [hmem, FirstOfKey, Admits, and_iff_left List.not_mem_nil, hoccurs, and_assoc]
    simp only [hoccurs, and_comm]
  refine ⟨chosen, hcollect, ?_, fun key => ?_, hfirst, hordered.sublist hsub, fun o ho => ?_⟩
  · have hdistinct := List.pairwise_map.1 (dedupe_pairwise hchosen).1
    exact List.pairwise_map.2 hdistinct
  · rw [List.mem_map]
    constructor
    · rintro ⟨o, ho, rfl⟩
      exact ⟨o, ((hfirst o).1 ho).1, rfl, ((hfirst o).1 ho).2.1⟩
    · rintro ⟨o, ho, rfl, hallowed⟩
      obtain ⟨c, hc, hkey⟩ : ∃ c,
          FirstOfKey Occurrence.Before (fun o => files.absolute (o.spelling paths)) listed c ∧
            files.absolute (c.spelling paths) = files.absolute (o.spelling paths) :=
        exists_firstOfKey (fun _ _ => Occurrence.Before.asymm) hordered ((hoccurs o).2 ho)
      rw [isExcluded_eq hfolder hkey.symm] at hallowed
      exact ⟨c, (hmem c).2 ⟨hc, hallowed, List.not_mem_nil⟩, hkey⟩
  · exact find?_of_occurs hfolder hsound ((hfirst o).1 ho).1

/-- A folder with Ruby files at three depths, a file of another kind, and folders that are passed
over. -/
def workshop : Files where
  tree := .folder [("app", .folder [
    ("lib", .folder [
      ("sub", .folder [("b.rb", .file []), ("old", .folder [("b_spec.rb", .file [])])]),
      ("a.rb", .file [])]),
    ("vendor", .folder [("c.rb", .file [])]), (".git", .folder [("d.rb", .file [])]),
    ("notes.txt", .file []), ("Gemfile", .file [])])]
  folder := "/app"

theorem sound_workshop : workshop.tree.Sound := by
  have hleaf : ∀ name, Path.ProperName name → (FileTree.folder [(name, .file [])]).Sound :=
    fun name hname => .folder (List.nodup_singleton _) (List.forall_mem_singleton.2 hname)
      (List.forall_mem_singleton.2 (.file _))
  refine .folder (by decide) (by decide) (List.forall_mem_singleton.2 ?_)
  refine .folder (by decide) (by decide) ?_
  simp only [List.forall_mem_cons]
  refine ⟨.folder (by decide) (by decide) ?_, hleaf _ (by decide), hleaf _ (by decide), .file _,
    .file _, nofun⟩
  simp only [List.forall_mem_cons]
  refine ⟨.folder (by decide) (by decide) ?_, .file _, nofun⟩
  simp only [List.forall_mem_cons]
  exact ⟨.file _, hleaf _ (by decide), nofun⟩

/-- Arguments that name files again, or not at all. -/
def errands : List String :=
  ["lib/sub", "lib//a.rb", ".", "lib/../Gemfile", "notes.txt", "lib"]

/-- Three files are collected, each as it was named first. -/
theorem collect_first_occurrences_workshop :
    workshop.collect errands (.list [.str "*_spec.rb"]) "" =
      .ok ["lib/sub/b.rb", "lib//a.rb", "./Gemfile"] ∧
    ∃ chosen : List Occurrence,
      chosen.map (Occurrence.spelling errands) = ["lib/sub/b.rb", "lib//a.rb", "./Gemfile"] ∧
      (∀ o, o ∈ chosen ↔ workshop.Occurs errands o ∧
        workshop.isExcluded (.list [.str "*_spec.rb"]) "" (o.spelling errands) = .ok false ∧
        ∀ o', workshop.Occurs errands o' → o'.Before o →
          workshop.absolute (o'.spelling errands) ≠ workshop.absolute (o.spelling errands)) ∧
      chosen.Pairwise Occurrence.Before := by
  have hcollect : workshop.collect errands (.list [.str "*_spec.rb"]) "" =
      .ok ["lib/sub/b.rb", "lib//a.rb", "./Gemfile"] := toOption_eq_some (by decide +kernel)
  obtain ⟨chosen, hchosen, -, -, hmem, hordered, -⟩ := collect_first_occurrences workshop
    (by decide) sound_workshop errands ["*_spec.rb"] ""
  refine ⟨hcollect, chosen, ?_, hmem, hordered⟩
  exact Except.ok.inj (hchosen.symm.trans hcollect)

end Files

end RubyLint
