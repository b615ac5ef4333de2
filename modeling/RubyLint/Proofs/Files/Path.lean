import RubyLint.Proofs.Files.Tree
import RubyLint.Proofs.Text.Lines

/-!
# Names in a path

The names of a normal path are those that entries of a folder can have, and they can be read off its
text again.  Two paths with one absolute form are therefore the same way from any start.  A proper
name that is joined to a path stands after the names of the path.
-/

namespace RubyLint

namespace Path

/-- A name that an entry of a folder can have. -/
structure ProperName (name : String) : Prop where
  notBlank : ¬(name = "" ∨ name = ".")
  notUp : name ≠ ".."
  noSlash : '/' ∉ name.toList

instance (name : String) : Decidable (ProperName name) :=
  decidable_of_iff (¬(name = "" ∨ name = ".") ∧ name ≠ ".." ∧ '/' ∉ name.toList)
    ⟨fun h => ⟨h.1, h.2.1, h.2.2⟩, fun h => ⟨h.notBlank, h.notUp, h.noSlash⟩⟩

variable {folder path other name : String} {parts : List String}

theorem ProperName.ne_empty (h : ProperName name) : name ≠ "" :=
  fun hempty => h.notBlank (.inl hempty)

theorem ProperName.isAbsolute_eq (h : ProperName name) : isAbsolute name = false := by
  rw [isAbsolute, beq_eq_false_iff_ne]
  exact fun hhead => h.noSlash (List.mem_of_mem_head? hhead)

/-! ## The names of a text -/

theorem names_append_slash (path other : String) :
    names (path ++ "/" ++ other) = names path ++ names other := by
  have hslash : "/".toList = ['/'] := rfl
  rw [names, String.toList_append, String.toList_append, hslash, List.append_assoc,
    List.singleton_append, List.splitOn_append_cons_self, List.map_append]
  rfl

theorem names_of_noSlash (h : '/' ∉ name.toList) : names name = [name] := by
  rw [names, List.splitOn_eq_singleton h, List.map_singleton, String.ofList_toList]

theorem noSlash_of_mem_names (h : name ∈ names path) : '/' ∉ name.toList := by
  obtain ⟨part, hpart, rfl⟩ := List.mem_map.1 h
  have hparts : ∀ part ∈ path.toList.splitOn '/', ∀ c ∈ part, c ≠ '/' :=
    (forall_mem_splitOn path.toList).2 fun c _ => (em (c = '/')).symm
  rw [String.toList_ofList]
  exact fun hslash => hparts part hpart '/' hslash rfl

/-- Names without slashes can be read off the text that is made of them. -/
theorem names_ofNames (h : ∀ name ∈ parts, '/' ∉ name.toList) (hparts : parts ≠ []) :
    names (ofNames parts) = parts := by
  have hsplit : (ofNames parts).toList.splitOn '/' = parts.map String.toList := by
    rw [ofNames, String.toList_intercalate]
    apply List.splitOn_intercalate
    · exact List.forall_mem_map.2 h
    · rwa [ne_eq, List.map_eq_nil_iff]
  rw [names, hsplit, List.map_map]
  exact List.map_id'' (fun _ => String.ofList_toList) parts

/-! ## Normal names -/

theorem push_proper {kept : List String} (hkept : ∀ k ∈ kept, ProperName k)
    (hname : '/' ∉ name.toList) : ∀ k ∈ push true kept name, ProperName k := by
  by_cases hblank : name = "" ∨ name = "."
  · rwa [push_blank hblank]
  by_cases hup : name = ".."
  · subst hup
    cases kept with
    | nil => exact nofun
    | cons last rest =>
        rw [List.forall_mem_cons] at hkept
        rw [push_up hkept.1.notUp]
        exact hkept.2
  · rw [push_name hblank hup, List.forall_mem_cons]
    exact ⟨⟨hblank, hup, hname⟩, hkept⟩

theorem properName_of_mem_normalNames (habsolute : isAbsolute path = true) :
    ∀ name ∈ normalNames path, ProperName name := by
  have hfold : ∀ (rest kept : List String), (∀ k ∈ rest, '/' ∉ k.toList) →
      (∀ k ∈ kept, ProperName k) → ∀ k ∈ rest.foldl (push true) kept, ProperName k := by
    intro rest
    induction rest with
    | nil => exact fun kept _ hkept => hkept
    | cons name rest ih =>
        intro kept hrest hkept
        rw [List.forall_mem_cons] at hrest
        exact ih _ hrest.2 (push_proper hkept hrest.1)
  intro name hname
  rw [normalNames, habsolute, List.mem_reverse] at hname
  exact hfold _ [] (fun _ => noSlash_of_mem_names) (List.forall_mem_nil _) name hname

theorem root_cases (habsolute : isAbsolute path = true) : root path = "/" ∨ root path = "//" := by
  rw [root]
  split
  · exact .inl rfl
  · exact .inr rfl
  · exact .inl rfl
  next hother =>
    rw [isAbsolute, beq_iff_eq, List.head?_eq_some_iff] at habsolute
    obtain ⟨rest, hrest⟩ := habsolute
    exact absurd hrest (hother rest)

theorem names_slash (path : String) : names ("/" ++ path) = "" :: names path :=
  names_append_slash "" path

/-- The normal names of an absolute path are what stands between the slashes of its normal form. -/
theorem names_normal (habsolute : isAbsolute path = true) :
    (names (normal path)).filter (· ≠ "") = normalNames path := by
  have hproper := properName_of_mem_normalNames habsolute
  have hnames : (names (ofNames (normalNames path))).filter (· ≠ "") = normalNames path := by
    by_cases hnil : normalNames path = []
    · rw [hnil]
      rfl
    · rw [names_ofNames (fun name hname => (hproper name hname).noSlash) hnil, List.filter_eq_self]
      exact fun name hname => decide_eq_true (hproper name hname).ne_empty
  -- The slashes of the root stand between empty names, which are no normal ones.
  obtain hroot | hroot := root_cases habsolute
  · have hnormal : normal path = "/" ++ ofNames (normalNames path) := by
      rw [normal, hroot]
      exact if_neg (by simp)
    rw [hnormal, names_slash, List.filter_cons_of_neg (by simp), hnames]
  · have hnormal : normal path = "/" ++ ("/" ++ ofNames (normalNames path)) := by
      rw [normal, hroot]
      refine (if_neg (by simp)).trans ?_
      rw [← String.append_assoc]
      rfl
    rw [hnormal, names_slash, names_slash, List.filter_cons_of_neg (by simp),
      List.filter_cons_of_neg (by simp), hnames]

/-- Paths with one absolute form have the same normal names. -/
theorem normalNames_eq_of_absolute_eq (hfolder : isAbsolute folder = true)
    (h : absolute folder path = absolute folder other) :
    normalNames (join folder path) = normalNames (join folder other) := by
  rw [← names_normal (isAbsolute_join hfolder path), ← names_normal (isAbsolute_join hfolder other)]
  exact congrArg (fun text => (names text).filter (· ≠ "")) h

/-- Paths with one absolute form are the same way from a start. -/
theorem relative_eq_of_absolute_eq (hfolder : isAbsolute folder = true)
    (h : absolute folder path = absolute folder other) (start : String) :
    relative folder path start = relative folder other start := by
  rw [relative, relative, normalNames_eq_of_absolute_eq hfolder h]

/-! ## A name joined to a path -/

theorem join_ne_empty (hname : name ≠ "") (path : String) : join path name ≠ "" := by
  rw [join]
  split
  · exact hname
  split <;> simp [hname]

theorem join_of_isAbsolute (h : isAbsolute path = true) : join folder path = path :=
  if_pos h

theorem join_of_slash (h : path.toList.getLast? = some '/') (hname : isAbsolute name = false) :
    join path name = path ++ name := by
  rw [join, if_neg (by simp [hname]), if_pos (by simp [h])]

theorem join_of_noSlash (hpath : path ≠ "") (h : path.toList.getLast? ≠ some '/')
    (hname : isAbsolute name = false) : join path name = path ++ "/" ++ name := by
  rw [join, if_neg (by simp [hname]), if_neg (by simp [hpath, h])]

theorem isAbsolute_join_name (hpath : path ≠ "") (hname : isAbsolute name = false) :
    isAbsolute (join path name) = isAbsolute path := by
  by_cases hslash : path.toList.getLast? = some '/'
  · rw [join_of_slash hslash hname, isAbsolute_append_of_ne hpath]
  · rw [join_of_noSlash hpath hslash hname, String.append_assoc, isAbsolute_append_of_ne hpath]

theorem getLast?_join (hpath : path ≠ "") (folder : String) :
    (join folder path).toList.getLast? = path.toList.getLast? := by
  have hnil : path.toList ≠ [] := by rwa [ne_eq, String.toList_eq_nil_iff]
  rw [join]
  split
  · rfl
  split
  · rw [String.toList_append, List.getLast?_append_of_ne_nil _ hnil]
  · rw [String.toList_append, List.getLast?_append_of_ne_nil _ hnil]

/-- A name joined to a path that is taken from a folder. -/
theorem join_join (hpath : path ≠ "") (hname : isAbsolute name = false) (folder : String) :
    join folder (join path name) = join (join folder path) name := by
  by_cases habsolute : isAbsolute path = true
  · rw [join_of_isAbsolute habsolute, join_of_isAbsolute]
    rwa [isAbsolute_join_name hpath hname]
  have hrelative : isAbsolute (join path name) ≠ true := by
    rwa [isAbsolute_join_name hpath hname]
  have hfolder : ∀ text, isAbsolute text ≠ true → join folder text =
      (if folder == "" || folder.toList.getLast? == some '/' then folder else folder ++ "/") ++
        text := by
    intro text htext
    rw [join, if_neg htext]
    split <;> rfl
  by_cases hslash : path.toList.getLast? = some '/'
  · rw [join_of_slash ((getLast?_join hpath folder).trans hslash) hname, hfolder _ hrelative,
      hfolder _ habsolute, join_of_slash hslash hname, String.append_assoc]
  · rw [join_of_noSlash (join_ne_empty hpath folder)
      (fun hlast => hslash ((getLast?_join hpath folder).symm.trans hlast)) hname,
      hfolder _ hrelative, hfolder _ habsolute, join_of_noSlash hpath hslash hname]
    simp only [String.append_assoc]

/-- The name stands after the names of the path, in the place of an empty one after a slash. -/
theorem names_join (hpath : path ≠ "") (hname : ProperName name) :
    ∃ front, (names path = front ∨ names path = front ++ [""]) ∧
      names (join path name) = front ++ [name] := by
  by_cases hslash : path.toList.getLast? = some '/'
  · obtain ⟨front, hfront⟩ := List.getLast?_eq_some_iff.1 hslash
    have hpath : path = String.ofList front ++ "/" := by
      rw [← String.toList_inj, hfront, String.toList_append, String.toList_ofList]
      rfl
    refine ⟨names (String.ofList front), .inr ?_, ?_⟩
    · rw [hpath, ← String.append_empty (s := _ ++ "/"), names_append_slash]
      rfl
    · rw [join_of_slash hslash hname.isAbsolute_eq, hpath, names_append_slash,
        names_of_noSlash hname.noSlash]
  · refine ⟨names path, .inl rfl, ?_⟩
    rw [join_of_noSlash hpath hslash hname.isAbsolute_eq, names_append_slash,
      names_of_noSlash hname.noSlash]

end Path

end RubyLint
