import Mathlib.Data.String.Basic
import RubyLint.Files.Collect
import RubyLint.Proofs.Files.Path
import RubyLint.Proofs.Sorting

/-!
# The walk below a folder

A file below a folder is described by its route, the names on the way down.  The walk lists the
routes to the Ruby files that pass through no hidden or skipped folder, each of them once.  Files of
a folder come before its subfolders, and both are in the order of their names.
-/

namespace RubyLint

namespace FileTree

/-- A tree in which the entries of a folder have names of their own that can stand in a path. -/
inductive Sound : FileTree → Prop where
  | file (data : List UInt8) : Sound (.file data)
  | folder {entries : List (String × FileTree)} (hdistinct : (entries.map (·.1)).Nodup)
      (hproper : ∀ entry ∈ entries, Path.ProperName entry.1)
      (hbelow : ∀ entry ∈ entries, Sound entry.2) : Sound (.folder entries)

/-- The routes to the Ruby files below a folder; those that pass through a folder that is passed
over are left out. -/
inductive Reaches : FileTree → List String → Prop where
  | file {entries : List (String × FileTree)} {name : String} {data : List UInt8}
      (hentry : (name, .file data) ∈ entries) (hname : isRubyName name = true) :
      Reaches (.folder entries) [name]
  | folder {entries : List (String × FileTree)} {name : String} {below : FileTree}
      {rest : List String} (hentry : (name, below) ∈ entries) (hkept : isSkipped name = false)
      (hrest : Reaches below rest) : Reaches (.folder entries) (name :: rest)

/-- The order of the walk: where two routes part, a file comes before a folder, and of two files or
two folders the one whose name is less. -/
inductive RouteBefore : List String → List String → Prop where
  | files {a b : String} (hless : a < b) : RouteBefore [a] [b]
  | file_folder {a b : String} {rest : List String} (hrest : rest ≠ []) :
      RouteBefore [a] (b :: rest)
  | folders {a b : String} {rest rest' : List String} (hless : a < b) (hrest : rest ≠ [])
      (hrest' : rest' ≠ []) : RouteBefore (a :: rest) (b :: rest')
  | inside {a : String} {rest rest' : List String} (hrest : RouteBefore rest rest') :
      RouteBefore (a :: rest) (a :: rest')

variable {tree here below : FileTree} {entries : List (String × FileTree)} {name : String}
variable {route route' : List String}

theorem RouteBefore.ne_nil (h : RouteBefore route route') : route ≠ [] ∧ route' ≠ [] := by
  cases h <;> exact ⟨nofun, nofun⟩

theorem RouteBefore.asymm (h : RouteBefore route route') : ¬RouteBefore route' route := by
  induction h with
  | files hless =>
      intro h
      cases h with
      | files hless' => exact String.lt_asymm hless hless'
      | file_folder hrest => exact hrest rfl
      | folders _ hrest _ => exact hrest rfl
      | inside hrest => exact hrest.ne_nil.1 rfl
  | file_folder hrest =>
      intro h
      cases h with
      | files _ => exact hrest rfl
      | file_folder hrest' => exact hrest' rfl
      | folders _ _ hrest' => exact hrest' rfl
      | inside hrest' => exact hrest'.ne_nil.2 rfl
  | folders hless hrest hrest' =>
      intro h
      cases h with
      | files _ => exact hrest rfl
      | file_folder _ => exact hrest' rfl
      | folders hless' _ _ => exact String.lt_asymm hless hless'
      | inside _ => exact String.lt_irrefl _ hless
  | inside hrest ih =>
      intro h
      cases h with
      | files hless => exact String.lt_irrefl _ hless
      | file_folder _ => exact hrest.ne_nil.2 rfl
      | folders hless _ _ => exact String.lt_irrefl _ hless
      | inside hrest' => exact ih hrest'

theorem Reaches.ne_nil (h : tree.Reaches route) : route ≠ [] := by
  cases h <;> nofun

theorem Reaches.isFolder_eq (h : tree.Reaches route) : tree.isFolder = true := by
  cases h <;> rfl

/-! ## The parts of the walk -/

/-- The subfolders that are not passed over, sorted by their names. -/
def subfolders (entries : List (String × FileTree)) : List (String × FileTree) :=
  (entries.filter fun entry => entry.2.isFolder && !isSkipped entry.1).mergeSort
    fun a b => a.1 ≤ b.1

theorem subfolderPaths_eq (path : String) (entries : List (String × FileTree)) :
    subfolderPaths path entries =
      (entries.filter fun entry => entry.2.isFolder && !isSkipped entry.1).map fun entry =>
        (entry.1, rubyPaths (Path.join path entry.1) entry.2) := by
  induction entries with
  | nil => rfl
  | cons entry rest ih =>
      obtain ⟨name, below⟩ := entry
      rw [subfolderPaths, ih, List.filter_cons]
      split <;> rfl

theorem rubyPaths_folder (path : String) (entries : List (String × FileTree)) :
    rubyPaths path (.folder entries) = (rubyFiles entries).map (Path.join path) ++
      (subfolders entries).flatMap fun entry => rubyPaths (Path.join path entry.1) entry.2 := by
  let found (entry : String × FileTree) := (entry.1, rubyPaths (Path.join path entry.1) entry.2)
  have hsorted : ((entries.filter fun entry => entry.2.isFolder && !isSkipped entry.1).map
      found).mergeSort (fun a b => a.1 ≤ b.1) = (subfolders entries).map found := by
    symm
    apply List.map_mergeSort
    exact fun _ _ _ _ => rfl
  rw [rubyPaths, subfolderPaths_eq, hsorted, List.flatMap_map]

theorem pairwise_rubyFiles (hdistinct : (entries.map (·.1)).Nodup) :
    (rubyFiles entries).Pairwise (· < ·) := by
  have hfiles : ((entries.filter fun entry => !entry.2.isFolder && isRubyName entry.1).map
      (·.1)).Nodup := hdistinct.sublist (List.filter_sublist.map _)
  rw [← List.map_id (List.map _ _)] at hfiles
  exact pairwise_mergeSort_key hfiles

theorem pairwise_subfolders (hdistinct : (entries.map (·.1)).Nodup) :
    (subfolders entries).Pairwise fun a b => a.1 < b.1 :=
  pairwise_mergeSort_key (hdistinct.sublist (List.filter_sublist.map _))

theorem mem_rubyFiles :
    name ∈ rubyFiles entries ↔
      (∃ data, (name, .file data) ∈ entries) ∧ isRubyName name = true := by
  rw [rubyFiles, List.mem_mergeSort, List.mem_map]
  constructor
  · rintro ⟨⟨_, below⟩, hentry, rfl⟩
    rw [List.mem_filter, Bool.and_eq_true] at hentry
    obtain ⟨hentry, hfile, hname⟩ := hentry
    cases below with
    | file data => exact ⟨⟨data, hentry⟩, hname⟩
    | folder entries => nomatch hfile
  · rintro ⟨⟨data, hentry⟩, hname⟩
    exact ⟨(name, .file data), List.mem_filter.2 ⟨hentry, hname⟩, rfl⟩

theorem mem_subfolders :
    (name, below) ∈ subfolders entries ↔
      (name, below) ∈ entries ∧ below.isFolder = true ∧ isSkipped name = false := by
  rw [subfolders, List.mem_mergeSort, List.mem_filter, Bool.and_eq_true, Bool.not_eq_true']

/-! ## The routes of the walk -/

/-- The routes through a folder, where those below its entries are given: to its files, then into
its subfolders. -/
def routesFrom (entries : List (String × FileTree))
    (routes : String × FileTree → List (List String)) : List (List String) :=
  (rubyFiles entries).map ([·]) ++
    (subfolders entries).flatMap fun entry => (routes entry).map (entry.1 :: ·)

section Routes

variable {routes : String × FileTree → List (List String)}

theorem mem_of_mem_subfolders {entry : String × FileTree} (h : entry ∈ subfolders entries) :
    entry ∈ entries :=
  (mem_subfolders.1 h).1

theorem rubyPaths_eq_map (hroutes : ∀ entry ∈ entries, ∀ path,
      rubyPaths path entry.2 = (routes entry).map (List.foldl Path.join path)) (path : String) :
    rubyPaths path (.folder entries) =
      (routesFrom entries routes).map (List.foldl Path.join path) := by
  rw [rubyPaths_folder, routesFrom, List.map_append, List.map_map, List.map_flatMap]
  congr 1
  apply List.flatMap_congr
  intro entry hentry
  rw [hroutes entry (mem_of_mem_subfolders hentry), List.map_map]
  rfl

theorem pairwise_routesFrom (hdistinct : (entries.map (·.1)).Nodup)
    (hordered : ∀ entry ∈ entries, (routes entry).Pairwise RouteBefore)
    (hne : ∀ entry ∈ entries, ∀ rest ∈ routes entry, rest ≠ []) :
    (routesFrom entries routes).Pairwise RouteBefore := by
  rw [routesFrom, List.pairwise_append, List.pairwise_map, List.pairwise_flatMap]
  refine ⟨(pairwise_rubyFiles hdistinct).imp .files, ⟨?_, ?_⟩, ?_⟩
  · intro entry hentry
    apply List.pairwise_map.2
    exact (hordered entry (mem_of_mem_subfolders hentry)).imp .inside
  · apply (pairwise_subfolders hdistinct).imp_of_mem
    intro a b ha hb hless
    rw [List.forall_mem_map]
    intro rest hrest
    rw [List.forall_mem_map]
    intro rest' hrest'
    exact .folders hless (hne a (mem_of_mem_subfolders ha) rest hrest)
      (hne b (mem_of_mem_subfolders hb) rest' hrest')
  · rw [List.forall_mem_map]
    intro name _ route hroute
    obtain ⟨entry, hentry, hroute⟩ := List.mem_flatMap.1 hroute
    obtain ⟨rest, hrest, rfl⟩ := List.mem_map.1 hroute
    exact .file_folder (hne entry (mem_of_mem_subfolders hentry) rest hrest)

theorem mem_routesFrom
    (hroutes : ∀ entry ∈ entries, ∀ rest, rest ∈ routes entry ↔ entry.2.Reaches rest) :
    route ∈ routesFrom entries routes ↔ (FileTree.folder entries).Reaches route := by
  rw [routesFrom, List.mem_append, List.mem_map, List.mem_flatMap]
  constructor
  · rintro (⟨name, hname, rfl⟩ | ⟨⟨name, below⟩, hentry, hroute⟩)
    · obtain ⟨⟨data, hentry⟩, hname⟩ := mem_rubyFiles.1 hname
      exact .file hentry hname
    · obtain ⟨rest, hrest, rfl⟩ := List.mem_map.1 hroute
      obtain ⟨hentry, -, hkept⟩ := mem_subfolders.1 hentry
      exact .folder hentry hkept ((hroutes _ hentry rest).1 hrest)
  · intro hreaches
    cases hreaches with
    | file hentry hname => exact .inl ⟨_, mem_rubyFiles.2 ⟨⟨_, hentry⟩, hname⟩, rfl⟩
    | folder hentry hkept hrest =>
        refine .inr ⟨_, mem_subfolders.2 ⟨hentry, hrest.isFolder_eq, hkept⟩, ?_⟩
        exact List.mem_map_of_mem ((hroutes _ hentry _).2 hrest)

end Routes

/-- The walk lists the routes in order, each from the path of the folder on. -/
theorem Sound.exists_routes (hsound : tree.Sound) :
    ∃ routes : List (List String),
      (∀ path, tree.rubyPaths path = routes.map (List.foldl Path.join path)) ∧
      routes.Pairwise RouteBefore ∧ ∀ route, route ∈ routes ↔ tree.Reaches route := by
  induction hsound with
  | file data =>
      refine ⟨[], fun path => by rw [rubyPaths, List.map_nil], .nil, fun route => ?_⟩
      exact iff_of_false List.not_mem_nil nofun
  | @folder entries hdistinct hproper hbelow ih =>
      choose! routes hpaths hordered hroutes using ih
      refine ⟨routesFrom entries routes, rubyPaths_eq_map hpaths, ?_, fun _ =>
        mem_routesFrom hroutes⟩
      apply pairwise_routesFrom hdistinct hordered
      exact fun entry hentry rest hrest => ((hroutes entry hentry rest).1 hrest).ne_nil

/-! ## Where a route leads -/

theorem Sound.at? (hsound : tree.Sound) {place : List String} (h : tree.at? place = some here) :
    here.Sound := by
  induction place generalizing tree with
  | nil =>
      obtain rfl := Option.some.inj h
      exact hsound
  | cons name rest ih =>
      obtain ⟨below, hlookup, hrest⟩ := Option.bind_eq_some_iff.1 h
      cases hsound with
      | file data => nomatch hlookup
      | folder _ _ hbelow => exact ih (hbelow _ (mem_of_lookup hlookup)) hrest

/-- A name whose effect depends only on the place that it is taken from has this effect behind other
names. -/
theorem follow_concat {last : String} {effect : FileTree → Option FileTree}
    (hlast : ∀ above here, follow above here [last] = effect here) (above : List FileTree)
    (here : FileTree) (names : List String) :
    follow above here (names ++ [last]) = (follow above here names).bind effect := by
  induction names generalizing above here with
  | nil => exact hlast above here
  | cons first rest ih =>
      cases here with
      | file data => rfl
      | folder entries =>
          rw [List.cons_append]
          by_cases hblank : first = "" ∨ first = "."
          · rw [follow_blank hblank, follow_blank hblank, ih]
          by_cases hup : first = ".."
          · subst hup
            cases above <;> exact ih _ _
          · rw [follow_name hblank hup, follow_name hblank hup, Option.bind_assoc]
            exact congrArg _ (funext fun below => ih _ below)

theorem follow_proper (hname : Path.ProperName name) (above : List FileTree) (here : FileTree) :
    follow above here [name] = here.entries.lookup name := by
  cases here with
  | file data => rfl
  | folder entries =>
      rw [follow_name hname.notBlank hname.notUp]
      exact Option.bind_fun_some _

theorem follow_slash (above : List FileTree) (here : FileTree) :
    follow above here [""] = if here.isFolder then some here else none := by
  cases here <;> rfl

end FileTree

namespace Files

variable {files : Files} {path name : String} {there : FileTree} {route : List String}

theorem ne_empty_of_find? (h : files.find? path = some there) : path ≠ "" := by
  rintro rfl
  nomatch h

theorem find?_eq_follow (hpath : path ≠ "") (files : Files) :
    files.find? path =
      FileTree.follow [] files.tree (Path.names (Path.join files.folder path)) :=
  if_neg (by simpa using hpath)

/-- A name joined to a path leads to the entry of that name. -/
theorem find?_join (h : files.find? path = some there) (hname : Path.ProperName name) :
    files.find? (Path.join path name) = there.entries.lookup name := by
  have hpath := ne_empty_of_find? h
  obtain ⟨front, hfront, hjoin⟩ :=
    Path.names_join (Path.join_ne_empty hpath files.folder) hname
  have hfound : FileTree.follow [] files.tree front = some there := by
    rw [find?_eq_follow hpath] at h
    obtain hfront | hfront := hfront
    · rwa [hfront] at h
    · -- The path ends in a slash and therefore leads to a folder, the same as without the slash.
      rw [hfront, FileTree.follow_concat FileTree.follow_slash, Option.bind_eq_some_iff] at h
      obtain ⟨here, hhere, hthere⟩ := h
      split at hthere
      · rwa [← Option.some.inj hthere]
      · nomatch hthere
  rw [find?_eq_follow (Path.join_ne_empty hname.ne_empty path),
    Path.join_join hpath hname.isAbsolute_eq, hjoin,
    FileTree.follow_concat (FileTree.follow_proper hname), hfound, Option.bind_some]

/-- A route below what a path leads to comes to a file. -/
theorem find?_route (hsound : there.Sound) (h : files.find? path = some there)
    (hroute : there.Reaches route) :
    ∃ data, files.find? (route.foldl Path.join path) = some (.file data) := by
  induction hroute generalizing path with
  | @file entries name data hentry hname =>
      cases hsound with
      | folder hdistinct hproper hbelow =>
          refine ⟨data, (find?_join h (hproper _ hentry)).trans ?_⟩
          exact lookup_of_mem hdistinct hentry
  | folder hentry hkept hrest ih =>
      cases hsound with
      | folder hdistinct hproper hbelow =>
          apply ih (hbelow _ hentry)
          exact (find?_join h (hproper _ hentry)).trans (lookup_of_mem hdistinct hentry)

end Files

end RubyLint
