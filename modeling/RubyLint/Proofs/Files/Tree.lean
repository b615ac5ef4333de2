import RubyLint.Files.Tree
import RubyLint.Proofs.Lookup

/-!
# What a path leads to

Following a path name by name comes to the place that its normal names describe, because every name
that `..` takes back was a folder.  A file that is put in the place of another one is found there
under every path that led to the old one.  The same paths can be followed as before, and those that
lead elsewhere lead to what they led to.
-/

namespace RubyLint

namespace Path

variable {absolute : Bool} {kept : List String} {name : String}

theorem push_blank (h : name = "" ∨ name = ".") : push absolute kept name = kept := by
  rcases h with rfl | rfl <;> rfl

theorem push_up (h : name ≠ "..") : push absolute (name :: kept) ".." = kept := by
  simp [push, h]

theorem push_name (hblank : ¬(name = "" ∨ name = ".")) (hup : name ≠ "..") :
    push absolute kept name = name :: kept := by
  simp only [not_or] at hblank
  simp [push, hblank, hup]

theorem isAbsolute_append_of_ne {path : String} (h : path ≠ "") (other : String) :
    isAbsolute (path ++ other) = isAbsolute path := by
  rw [isAbsolute, isAbsolute, String.toList_append, List.head?_append_of_ne_nil]
  rwa [ne_eq, String.toList_eq_nil_iff]

theorem isAbsolute_append {folder : String} (h : isAbsolute folder = true) (path : String) :
    isAbsolute (folder ++ path) = true := by
  rwa [isAbsolute_append_of_ne]
  rintro rfl
  nomatch h

theorem isAbsolute_join {folder : String} (h : isAbsolute folder = true) (path : String) :
    isAbsolute (join folder path) = true := by
  rw [join]
  split
  · assumption
  split
  · exact isAbsolute_append h path
  · exact isAbsolute_append (isAbsolute_append h "/") path

end Path

namespace FileTree

/-- The bytes of a file; a folder has none. -/
def bytes? : FileTree → Option (List UInt8)
  | .file data => some data
  | .folder _ => none

/-- What stands at a place, given by the names that lead down to it. -/
def at? (tree : FileTree) : List String → Option FileTree
  | [] => some tree
  | name :: rest => (tree.entries.lookup name).bind fun below => below.at? rest

/-- The bytes of the file at a place; `some none` if there is a folder. -/
def content? (tree : FileTree) (place : List String) : Option (Option (List UInt8)) :=
  (tree.at? place).map bytes?

variable {tree tree' here here' : FileTree} {above above' : List FileTree}
variable {place kept : List String} {name : String}

theorem content?_cons (tree : FileTree) (name : String) (rest : List String) :
    tree.content? (name :: rest) =
      (tree.entries.lookup name).bind fun below => below.content? rest := by
  rw [content?, at?, Option.map_bind]
  rfl

theorem at?_concat (tree : FileTree) (place : List String) (name : String) :
    tree.at? (place ++ [name]) = (tree.at? place).bind fun here => here.entries.lookup name := by
  induction place generalizing tree with
  | nil =>
      rw [List.nil_append, at?, at?, Option.bind_some]
      cases tree.entries.lookup name <;> rfl
  | cons first rest ih =>
      rw [List.cons_append, at?, at?]
      cases tree.entries.lookup first with
      | none => rfl
      | some below => exact ih below

/-! ## Putting a file -/

/-- A file that is put in the place of another one is found there; whatever else is found stays. -/
theorem content?_put {old : List UInt8} (h : here.at? place = some (.file old))
    (data : List UInt8) (other : List String) :
    (put (.file data) place here).content? other =
      if other = place then some (some data) else here.content? other := by
  induction place generalizing here other with
  | nil =>
      obtain rfl := Option.some.inj h
      cases other with
      | nil => rfl
      | cons first rest => rfl
  | cons name rest ih =>
      obtain ⟨below, hbelow, hold⟩ := Option.bind_eq_some_iff.1 h
      have hput : put (.file data) (name :: rest) here =
          .folder ((here.entries.filter (·.1 != name)) ++
            [(name, put (.file data) rest below)]) := by
        rw [put, hbelow, Option.getD_some]
      rw [hput]
      cases other with
      | nil =>
          cases here with
          | file data => nomatch hbelow
          | folder entries => rfl
      | cons first others =>
          rw [content?_cons, content?_cons, entries, lookup_replaced _ (name, _)]
          by_cases hfirst : first = name
          · rw [if_pos hfirst, Option.bind_some, ih hold, hfirst, hbelow, Option.bind_some]
            simp
          · rw [if_neg hfirst, if_neg fun hsame => hfirst (List.cons.inj hsame).1]

/-! ## Following a path -/

/-- How a walk came to where it is: the names on the way down, the latest first, with the folders
they were found in. -/
inductive Trail (tree : FileTree) : List String → List FileTree → FileTree → Prop where
  | top : Trail tree [] [] tree
  | down {kept : List String} {above : List FileTree} {here below : FileTree} {name : String}
      (way : Trail tree kept above here) (hname : name ≠ "..")
      (hbelow : here.entries.lookup name = some below) :
      Trail tree (name :: kept) (here :: above) below

theorem Trail.at?_eq (way : Trail tree kept above here) : tree.at? kept.reverse = some here := by
  induction way with
  | top => rfl
  | down way hname hbelow ih => rw [List.reverse_cons, at?_concat, ih, Option.bind_some, hbelow]

/-- Trees in which the same places are files and folders. -/
def Alike (tree tree' : FileTree) : Prop :=
  ∀ place, (tree.content? place).map Option.isSome = (tree'.content? place).map Option.isSome

theorem Alike.isFolder_eq (h : tree.Alike tree') (hhere : tree.at? place = some here)
    (hhere' : tree'.at? place = some here') : here.isFolder = here'.isFolder := by
  have hkind := h place
  rw [content?, content?, hhere, hhere'] at hkind
  cases here <;> cases here' <;> simp_all [bytes?, isFolder]

theorem Alike.lookup_isSome (h : tree.Alike tree') (hhere : tree.at? place = some here)
    (hhere' : tree'.at? place = some here') (name : String) :
    (here.entries.lookup name).isSome = (here'.entries.lookup name).isSome := by
  have hkind := congrArg Option.isSome (h (place ++ [name]))
  simpa [content?, at?_concat, hhere, hhere'] using hkind

theorem follow_blank {entries : List (String × FileTree)} {rest : List String}
    (h : name = "" ∨ name = ".") :
    follow above (.folder entries) (name :: rest) = follow above (.folder entries) rest := by
  rcases h with rfl | rfl <;> rfl

theorem follow_name {entries : List (String × FileTree)} {rest : List String}
    (hblank : ¬(name = "" ∨ name = ".")) (hup : name ≠ "..") :
    follow above (.folder entries) (name :: rest) =
      (entries.lookup name).bind fun below => follow (.folder entries :: above) below rest := by
  simp only [not_or] at hblank
  rw [follow.eq_def]
  cases hbelow : entries.lookup name <;> simp [hblank, hup, hbelow]

/-- The same names lead to the same place in trees that are alike, or to nothing in both.  The place
is the one that the normal names describe. -/
theorem follow_alike (halike : tree.Alike tree') (names : List String)
    (way : Trail tree kept above here) (way' : Trail tree' kept above' here') :
    Option.Rel (fun there there' =>
        tree.at? (names.foldl (Path.push true) kept).reverse = some there ∧
        tree'.at? (names.foldl (Path.push true) kept).reverse = some there')
      (follow above here names) (follow above' here' names) := by
  induction names generalizing kept above above' here here' with
  | nil => exact .some ⟨way.at?_eq, way'.at?_eq⟩
  | cons name rest ih =>
      rw [List.foldl_cons]
      have hkind := halike.isFolder_eq way.at?_eq way'.at?_eq
      have hfound := halike.lookup_isSome way.at?_eq way'.at?_eq name
      match here, here', hkind with
      | .file data, .file data', _ => exact .none
      | .folder entries, .folder entries', _ =>
          by_cases hblank : name = "" ∨ name = "."
          · rw [follow_blank hblank, follow_blank hblank, Path.push_blank hblank]
            exact ih way way'
          by_cases hup : name = ".."
          · subst hup
            cases way with
            | top =>
                cases way' with
                | top => exact ih .top .top
            | down way hname hbelow =>
                cases way' with
                | down way' hname' hbelow' =>
                    rw [Path.push_up hname]
                    exact ih way way'
          · rw [follow_name hblank hup, follow_name hblank hup, Path.push_name hblank hup]
            simp only [FileTree.entries] at hfound
            cases hbelow : entries.lookup name with
            | none =>
                rw [hbelow] at hfound
                have hbelow' : entries'.lookup name = none :=
                  Option.isSome_eq_false_iff.1 hfound.symm |> Option.isNone_iff_eq_none.1
                rw [hbelow']
                exact .none
            | some below =>
                rw [hbelow] at hfound
                obtain ⟨below', hbelow'⟩ := Option.isSome_iff_exists.1 hfound.symm
                rw [hbelow']
                exact ih (.down way hup hbelow) (.down way' hup hbelow')

theorem Alike.refl (tree : FileTree) : tree.Alike tree :=
  fun _ => rfl

/-- A file in the place of another one leaves the tree alike. -/
theorem alike_put {old : List UInt8} (h : tree.at? place = some (.file old)) (data : List UInt8) :
    tree.Alike (put (.file data) place tree) := by
  intro other
  rw [content?_put h]
  by_cases hsame : other = place
  · rw [if_pos hsame, hsame, content?, h]
    rfl
  · rw [if_neg hsame]

end FileTree

namespace Files

variable {files : Files} {path : String} {there : FileTree} {old : List UInt8}

/-- The place that a path describes, by the names that lead down to it. -/
def place (files : Files) (path : String) : List String :=
  Path.normalNames (Path.join files.folder path)

/-- The bytes of the file that a path leads to, if it leads to one. -/
def bytes? (files : Files) (path : String) : Option (List UInt8) :=
  (files.find? path).bind FileTree.bytes?

theorem tree_put (tree : FileTree) :
    (files.put path tree).tree = tree.put (files.place path) files.tree := by
  rw [put, place]

theorem folder_put (tree : FileTree) : (files.put path tree).folder = files.folder := by
  rw [put]

/-- Where paths lead does not depend on what is put there. -/
theorem place_put (tree : FileTree) (other : String) :
    (files.put path tree).place other = files.place other := by
  rw [place, folder_put, place]

theorem bytes?_eq_some_iff :
    files.bytes? path = some old ↔ files.find? path = some (.file old) := by
  rw [bytes?, Option.bind_eq_some_iff]
  constructor
  · rintro ⟨there, hthere, hbytes⟩
    cases there with
    | file data => rw [hthere, Option.some.inj hbytes]
    | folder entries => nomatch hbytes
  · intro h
    exact ⟨_, h, rfl⟩

theorem place_eq (hfolder : Path.isAbsolute files.folder = true) (path : String) :
    files.place path =
      ((Path.names (Path.join files.folder path)).foldl (Path.push true) []).reverse := by
  rw [place, Path.normalNames, Path.isAbsolute_join hfolder]

/-- A path that leads to something leads to its place. -/
theorem at?_place (hfolder : Path.isAbsolute files.folder = true)
    (h : files.find? path = some there) : files.tree.at? (files.place path) = some there := by
  have hfollow : FileTree.follow [] files.tree (Path.names (Path.join files.folder path)) =
      some there := by
    rw [find?] at h
    split at h
    · nomatch h
    · exact h
  have halike := FileTree.follow_alike (.refl files.tree)
    (Path.names (Path.join files.folder path)) .top .top
  rw [hfollow, Option.rel_some_some] at halike
  rw [place_eq hfolder]
  exact halike.1

/-- Files that paths lead to at one place are the same. -/
theorem bytes?_unique {other : String} {data : List UInt8}
    (hfolder : Path.isAbsolute files.folder = true) (hplace : files.place path = files.place other)
    (h : files.bytes? path = some old) (h' : files.bytes? other = some data) : old = data := by
  have hfile := at?_place hfolder (bytes?_eq_some_iff.1 h)
  rw [hplace, at?_place hfolder (bytes?_eq_some_iff.1 h')] at hfile
  exact (FileTree.file.inj (Option.some.inj hfile)).symm

/-- After a file is put in the place of another one, every path to that place leads to its bytes.
All other paths lead to what they led to. -/
theorem bytes?_put (hfolder : Path.isAbsolute files.folder = true)
    (h : files.bytes? path = some old) (data : List UInt8) (other : String) :
    (files.put path (.file data)).bytes? other = (files.bytes? other).map fun bytes =>
      if files.place other = files.place path then data else bytes := by
  have hplace := at?_place hfolder (bytes?_eq_some_iff.1 h)
  have halike := FileTree.follow_alike (FileTree.alike_put hplace data)
    (Path.names (Path.join files.folder other)) .top .top
  rw [← place_eq hfolder] at halike
  rw [bytes?, bytes?, find?, find?]
  by_cases hempty : other == ""
  · rw [if_pos hempty, if_pos hempty]
    rfl
  rw [if_neg hempty, if_neg hempty]
  rw [tree_put, folder_put]
  revert halike
  generalize FileTree.follow [] files.tree _ = found
  generalize FileTree.follow [] ((FileTree.file data).put (files.place path) files.tree) _ = found'
  rintro (⟨hthere, hthere'⟩ | _)
  · rename_i there there'
    have hcontent := FileTree.content?_put hplace data (files.place other)
    rw [FileTree.content?, FileTree.content?, hthere, hthere'] at hcontent
    by_cases hsame : files.place other = files.place path
    · rw [if_pos hsame] at hcontent
      rw [hsame, hplace] at hthere
      obtain rfl := Option.some.inj hthere
      simpa [hsame, FileTree.bytes?] using hcontent
    · rw [if_neg hsame] at hcontent
      simpa [hsame] using hcontent
  · rfl

end Files

end RubyLint
