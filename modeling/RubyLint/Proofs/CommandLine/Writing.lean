import Mathlib.Data.List.Induction
import RubyLint.Proofs.CommandLine.Status
import RubyLint.Proofs.Files.Tree

/-!
# What a run writes

A run changes files only when it is asked to correct and not only to show.  It then changes the
files whose reports have a corrected text, and gives them the bytes that their own become when the
edits are made at their offsets.  All reports are made before anything is written, so a run that
breaks off over one file leaves the others alone, too.
-/

namespace RubyLint

/-! ## Bytes that no edit replaces -/

namespace Edit

def untouched (data : List UInt8) (edits : List Edit) : List UInt8 :=
  (List.range data.length).flatMap (keptAt data edits)

/-- The bytes that no edit replaces stay, in their order. -/
theorem untouched_sublist (data : List UInt8) (edits : List Edit) :
    (untouched data edits).Sublist (positional data edits) := by
  have hoffsets : ∀ offsets : List Nat,
      (offsets.flatMap (keptAt data edits)).Sublist (offsets.flatMap (emittedAt data edits)) := by
    intro offsets
    induction offsets with
    | nil => exact .slnil
    | cons i offsets ih =>
        rw [List.flatMap_cons, List.flatMap_cons]
        exact (List.sublist_append_right _ _).append ih
  rw [untouched, positional, List.range_succ, List.flatMap_append]
  exact (hoffsets _).trans (List.sublist_append_left _ _)

end Edit

/-! ## Files that are reached twice -/

namespace Files

variable {files : Files} {patterns : Value} {root : String} {seen listed found : List String}

/-- Of paths with one absolute form only the first is kept. -/
theorem dedupe_pairwise (h : files.dedupe patterns root seen listed = .ok found) :
    (found.Pairwise fun p q => files.absolute p ≠ files.absolute q) ∧
      ∀ p ∈ found, files.absolute p ∉ seen := by
  induction listed generalizing seen found with
  | nil =>
      obtain rfl := Except.ok.inj h
      exact ⟨.nil, nofun⟩
  | cons path rest ih =>
      rw [dedupe] at h
      split at h
      next => exact ih h
      next hnew =>
        obtain ⟨excluded, -, h⟩ := bind_eq_ok h
        split at h
        next => exact ih h
        next =>
          obtain ⟨others, hothers, h⟩ := bind_eq_ok h
          obtain rfl := Except.ok.inj h
          obtain ⟨hdistinct, hunseen⟩ := ih hothers
          have hother : ∀ p ∈ others, files.absolute path ≠ files.absolute p ∧
              files.absolute p ∉ seen := by
            intro p hp
            have hnot := hunseen p hp
            rw [List.mem_cons, not_or] at hnot
            exact ⟨Ne.symm hnot.1, hnot.2⟩
          constructor
          · exact List.pairwise_cons.2 ⟨fun p hp => (hother p hp).1, hdistinct⟩
          · rw [List.forall_mem_cons]
            exact ⟨fun hseen => hnew (List.contains_iff_mem.2 hseen), fun p hp => (hother p hp).2⟩

/-- Two paths that are collected for one place differ in the slashes at their front. -/
theorem collect_pairwise {paths : List String}
    (h : files.collect paths patterns root = .ok found) :
    found.Pairwise fun p q => files.place p = files.place q →
      Path.root (Path.join files.folder p) ≠ Path.root (Path.join files.folder q) := by
  rw [collect] at h
  refine (dedupe_pairwise h).1.imp fun hdistinct hplace hroot => hdistinct ?_
  rw [absolute, absolute, Path.absolute, Path.absolute, Path.normal, Path.normal, hroot]
  rw [place, place] at hplace
  rw [hplace]

end Files

/-! ## The corrected text of a report -/

namespace FileReport

variable {i : Investigation} {limit : Value} {path text corrected : String} {report : FileReport}

/-- A pass that corrects and comes to a report either made all edits or rejected them. -/
theorem ofInvestigation_cases (h : (ofInvestigation i limit true path text).1 = .ok report) :
    ∃ shown,
      (Edit.Fit text (i.edits text) ∧ ∃ edited, Utf8.decode (editedBytes i text) = .ok edited ∧
        report = { investigated i path text shown with
          applied := i.fixable text
          corrected := if edited = text then none else some edited }) ∨
      (¬Edit.Fit text (i.edits text) ∧ ∃ fault : EditFault,
        report = { investigated i path text shown with rejection := some fault.message }) := by
  have hcut : ∃ shown, Config.cut limit (Finding.byPlace i.ranks (i.kept text)) = .ok shown := by
    rw [ofInvestigation] at h
    obtain ⟨unshown, -, h⟩ := bind_eq_ok h
    rw [withOffenses] at h
    obtain ⟨shown, hshown, -⟩ := bind_eq_ok h
    exact ⟨shown, mapError_eq_ok hshown⟩
  obtain ⟨shown, hshown⟩ := hcut
  refine ⟨shown, ?_⟩
  by_cases hfit : Edit.Fit text (i.edits text)
  · rw [ofInvestigation_fit hshown hfit] at h
    cases hdecode : Utf8.decode (editedBytes i text) with
    | error error =>
        rw [hdecode] at h
        cases h
    | ok edited =>
        rw [hdecode] at h
        exact .inl ⟨hfit, edited, rfl, (Except.ok.inj h).symm⟩
  · obtain ⟨fault, -, hrun⟩ := ofInvestigation_unfit hshown hfit path
    exact .inr ⟨hfit, fault, Except.ok.inj (h.symm.trans hrun)⟩

theorem ofInvestigation_path (h : (ofInvestigation i limit true path text).1 = .ok report) :
    report.path = path := by
  obtain ⟨shown, ⟨-, edited, -, rfl⟩ | ⟨-, fault, rfl⟩⟩ := ofInvestigation_cases h
  · rfl
  · rfl

/-- A report has a corrected text if the edits fit together and leave another text. -/
theorem corrected_iff (h : (ofInvestigation i limit true path text).1 = .ok report) :
    report.corrected = some corrected ↔ Edit.Fit text (i.edits text) ∧
      Utf8.decode (editedBytes i text) = .ok corrected ∧ corrected ≠ text := by
  obtain ⟨shown, ⟨hfit, edited, hdecode, rfl⟩ | ⟨hunfit, fault, rfl⟩⟩ := ofInvestigation_cases h
  · rw [hdecode]
    constructor
    · intro hcorrected
      obtain ⟨hchanged, rfl⟩ : edited ≠ text ∧ edited = corrected := by simpa using hcorrected
      exact ⟨hfit, rfl, hchanged⟩
    · rintro ⟨-, hedited, hchanged⟩
      obtain rfl := Except.ok.inj hedited
      exact if_neg hchanged
  · exact iff_of_false nofun fun hcorrected => hunfit hcorrected.1

/-- A report with a corrected text has neither an error nor a rejection. -/
theorem accepted_of_corrected (h : (ofInvestigation i limit true path text).1 = .ok report)
    (hcorrected : report.corrected = some corrected) :
    report.error = none ∧ report.rejection = none := by
  obtain ⟨shown, ⟨-, edited, -, rfl⟩ | ⟨-, fault, rfl⟩⟩ := ofInvestigation_cases h
  · exact ⟨rfl, rfl⟩
  · nomatch hcorrected

end FileReport

namespace CommandLine

variable {setting : Setting} {arguments : List String} {o : Options} {config : Config}
variable {d : Dispatcher} {limit : Value} {paths : List String} {path : String}
variable {report : FileReport} {reports : List FileReport} {data new : List UInt8}

/-! ## What the file at a path gets -/

/-- The report of the file at a path has a corrected text, which is written in some bytes. -/
def Rewrites (setting : Setting) (d : Dispatcher) (limit : Value) (path : String)
    (new : List UInt8) : Prop :=
  ∃ report corrected, (analyze setting d limit true path).1 = .ok report ∧
    report.corrected = some corrected ∧ new = Utf8.encode corrected

/-- The edits that were found for the file at a path can be made, and they leave other bytes, which
are a text. -/
def Spliced (setting : Setting) (d : Dispatcher) (path : String) (data new : List UInt8) : Prop :=
  ∃ text i, setting.files.bytes? path = some data ∧ Investigated setting d path text i ∧
    Edit.Fit text (i.edits text) ∧ new = Edit.positional data (i.edits text) ∧ new ≠ data ∧
    ∃ corrected, Utf8.decode new = .ok corrected

/-- A text that is investigated is the one that the bytes of its file hold. -/
theorem Investigated.bytes?_eq {text : String} {i : Investigation}
    (h : Investigated setting d path text i) :
    setting.files.bytes? path = some (Utf8.encode text) := by
  obtain ⟨data, document, hdata, htext, -⟩ := h
  rw [Files.bytes?_eq_some_iff, hdata, Utf8.encode_of_decode htext]

theorem analyze_path (h : (analyze setting d limit true path).1 = .ok report) :
    report.path = path := by
  rcases analyze_cases h with ⟨text, i, -, hreport⟩ | ⟨⟨-, hpath, -⟩, -⟩
  · exact FileReport.ofInvestigation_path hreport
  · exact hpath

/-- The file at a path gets the bytes that its own become when the edits are made. -/
theorem rewrites_iff (h : (analyze setting d limit true path).1 = .ok report) :
    Rewrites setting d limit path new ↔ ∃ data, Spliced setting d path data new := by
  constructor
  · rintro ⟨_, corrected, hreport, hcorrected, rfl⟩
    rcases analyze_cases hreport with ⟨text, i, hi, hmade⟩ | ⟨⟨-, -, hnone⟩, -⟩
    · obtain ⟨hfit, hdecode, hchanged⟩ := (FileReport.corrected_iff hmade).1 hcorrected
      refine ⟨_, text, i, hi.bytes?_eq, hi, hfit, ?_, ?_, corrected, Utf8.decode_encode _⟩
      · exact Utf8.encode_of_decode hdecode
      · exact fun hsame => hchanged (Utf8.eq_of_encode_eq hsame)
    · nomatch hcorrected.symm.trans hnone
  · rintro ⟨data, text, i, hdata, hi, hfit, rfl, hchanged, corrected, hdecode⟩
    obtain rfl := Option.some.inj (hdata.symm.trans hi.bytes?_eq)
    rcases analyze_cases h with ⟨text', i', hi', hmade⟩ | ⟨-, hnone⟩
    · obtain ⟨rfl, rfl⟩ := hi.unique hi'
      refine ⟨report, corrected, h, (FileReport.corrected_iff hmade).2 ⟨hfit, hdecode, ?_⟩,
        (Utf8.encode_of_decode hdecode).symm⟩
      rintro rfl
      exact hchanged (Utf8.encode_of_decode hdecode).symm
    · exact absurd hi (hnone text i)

/-- A file whose report has an error or a rejection gets nothing. -/
theorem not_rewrites (h : (analyze setting d limit true path).1 = .ok report)
    (hfault : report.error ≠ none ∨ report.rejection ≠ none) :
    ¬Rewrites setting d limit path new := by
  rintro ⟨report', corrected, hreport, hcorrected, -⟩
  obtain rfl := Except.ok.inj (h.symm.trans hreport)
  rcases analyze_cases hreport with ⟨text, i, -, hmade⟩ | ⟨⟨-, -, hnone⟩, -⟩
  · obtain ⟨herror, hrejection⟩ := FileReport.accepted_of_corrected hmade hcorrected
    exact hfault.elim (absurd herror) (absurd hrejection)
  · nomatch hcorrected.symm.trans hnone

/-! ## Writing the corrected texts -/

variable {files : Files}

/-- What the bytes of the file at a path become when a report is written. -/
def overwritten (files : Files) (path : String) (data : List UInt8) (report : FileReport) :
    List UInt8 :=
  match report.corrected with
  | some text => if files.place path = files.place report.path then Utf8.encode text else data
  | none => data

theorem overwritten_put (place : String) (tree : FileTree) (path : String) :
    overwritten (files.put place tree) path = overwritten files path := by
  funext data report
  simp only [overwritten, Files.place_put]

/-- Writing reports whose paths lead to files changes the bytes of files and nothing else. -/
theorem bytes?_written (hfolder : Path.isAbsolute files.folder = true)
    (hfound : ∀ r ∈ reports, r.corrected ≠ none → ∃ old, files.bytes? r.path = some old)
    (path : String) :
    (written files reports).bytes? path =
      (files.bytes? path).map fun data => reports.foldl (overwritten files path) data := by
  induction reports generalizing files with
  | nil => simp [written]
  | cons report reports ih =>
      rw [List.forall_mem_cons] at hfound
      obtain ⟨hfirst, hrest⟩ := hfound
      cases hcorrected : report.corrected with
      | none =>
          have hstep : written files (report :: reports) = written files reports := by
            simp [written, hcorrected]
          rw [hstep, ih hfolder hrest]
          simp [overwritten, hcorrected]
      | some text =>
          obtain ⟨old, hold⟩ := hfirst (by simp [hcorrected])
          have hstep : written files (report :: reports) =
              written (files.put report.path (.file (Utf8.encode text))) reports := by
            simp [written, hcorrected]
          have hrest' : ∀ r ∈ reports, r.corrected ≠ none →
              ∃ old, (files.put report.path (.file (Utf8.encode text))).bytes? r.path =
                some old := by
            intro r hr hchanged
            obtain ⟨old', hold'⟩ := hrest r hr hchanged
            rw [Files.bytes?_put hfolder hold, hold']
            exact ⟨_, rfl⟩
          have hfolder' : Path.isAbsolute
              (files.put report.path (.file (Utf8.encode text))).folder = true := by
            rwa [Files.folder_put]
          rw [hstep, ih hfolder' hrest', Files.bytes?_put hfolder hold, Option.map_map,
            overwritten_put]
          refine congrArg (Option.map · (files.bytes? path)) (funext fun data => ?_)
          rw [List.foldl_cons, overwritten, hcorrected]
          rfl

/-- The bytes that are left are the old ones if no report for the place has a corrected text, and
otherwise those of one that has. -/
theorem foldl_overwritten (files : Files) (path : String) (data : List UInt8)
    (reports : List FileReport) :
    (reports.foldl (overwritten files path) data = data ∧
      ∀ r ∈ reports, files.place path = files.place r.path → r.corrected = none) ∨
    ∃ r ∈ reports, files.place path = files.place r.path ∧ ∃ text, r.corrected = some text ∧
      reports.foldl (overwritten files path) data = Utf8.encode text := by
  induction reports using List.reverseRecOn with
  | nil => exact .inl ⟨rfl, nofun⟩
  | append_singleton reports report ih =>
      rw [List.foldl_append, List.foldl_cons, List.foldl_nil]
      by_cases hlast : files.place path = files.place report.path ∧ report.corrected ≠ none
      · obtain ⟨hplace, hchanged⟩ := hlast
        obtain ⟨text, hcorrected⟩ := Option.ne_none_iff_exists'.1 hchanged
        refine .inr ⟨report, by simp, hplace, text, hcorrected, ?_⟩
        rw [overwritten, hcorrected]
        exact if_pos hplace
      · have hstays : ∀ data, overwritten files path data report = data := by
          intro data
          rw [overwritten]
          split
          next text hcorrected =>
            exact if_neg fun hplace => hlast ⟨hplace, by simp [hcorrected]⟩
          next => rfl
        rw [hstays]
        rcases ih with ⟨hsame, hnone⟩ | ⟨r, hr, hplace, htext⟩
        · refine .inl ⟨hsame, fun r hr hplace => ?_⟩
          rcases List.mem_append.1 hr with hr | hr
          · exact hnone r hr hplace
          · obtain rfl := List.mem_singleton.1 hr
            exact not_not.1 fun hchanged => hlast ⟨hplace, hchanged⟩
        · exact .inr ⟨r, List.mem_append_left _ hr, hplace, htext⟩

/-! ## Runs that come to their files -/

/-- A run that gets as far as the files that it is to analyze. -/
structure Collected [Machine] (setting : Setting) (arguments : List String) (o : Options)
    (config : Config) (d : Dispatcher) (paths : List String) : Prop where
  understood : Options.ofArguments arguments = .ok o
  configured : ∃ logs, loadConfig setting.files (configPath? setting.files o) = .ok (config, logs)
  dispatched : dispatcher setting config o = .ok d
  unlisted : o.listRules = false
  parser : setting.parser.isNone = false
  collected : setting.files.collect o.paths config.exclude
    (root setting.files (configPath? setting.files o)) = .ok paths
  nonempty : paths ≠ []

theorem conclude_files [Machine] (setting : Setting) (o : Options) (rules : Nat)
    (reports : List FileReport) : (conclude setting o rules reports).files =
      if o.fix && !o.diff then written setting.files reports else setting.files := by
  rw [conclude]
  split
  · rfl
  split
  · rfl
  · rfl

theorem analyzeAll_files [Machine] (setting : Setting) (o : Options) (config : Config)
    (d : Dispatcher) (paths : List String) : (analyzeAll setting o config d paths).files =
      match paths.mapM fun path => (analyze setting d config.limit (corrects o) path).1 with
      | .ok reports => if o.fix && !o.diff then written setting.files reports else setting.files
      | .error _ => setting.files := by
  have hmap : (paths.map (analyze setting d config.limit (corrects o))).mapM (·.1) =
      paths.mapM fun path => (analyze setting d config.limit (corrects o) path).1 :=
    List.mapM_map
  simp only [analyzeAll, hmap]
  cases paths.mapM fun path => (analyze setting d config.limit (corrects o) path).1 with
  | error fault => rfl
  | ok reports => exact conclude_files setting o d.rules.length reports

/-- Such a run writes its corrections, if it is to, once all reports are made. -/
theorem Collected.files_eq [Machine] (h : Collected setting arguments o config d paths) :
    (run setting arguments).files =
      match paths.mapM fun path => (analyze setting d config.limit (corrects o) path).1 with
      | .ok reports => if o.fix && !o.diff then written setting.files reports else setting.files
      | .error _ => setting.files := by
  obtain ⟨logs, hconfig⟩ := h.configured
  obtain ⟨path, rest, rfl⟩ := List.exists_cons_of_ne_nil h.nonempty
  simp only [run, h.understood, runOptions, hconfig, runWith, h.dispatched, h.unlisted,
    Bool.false_eq_true, if_false, h.parser, analyzeFiles, h.collected]
  exact analyzeAll_files setting o config d (path :: rest)

/-- A run that does not come to its files leaves all files as they are. -/
theorem files_of_not_collected [Machine]
    (h : ∀ o config d paths, ¬Collected setting arguments o config d paths) :
    (run setting arguments).files = setting.files := by
  rw [run]
  split
  next o hunderstood =>
    rw [runOptions]
    split
    next => rfl
    next config logs hconfig =>
      rw [runWith]
      split
      next => rfl
      next => rfl
      next d hdispatched =>
        split
        next => rfl
        next hunlisted =>
          split
          next => rfl
          next hparser =>
            rw [analyzeFiles]
            split
            next => rfl
            next => rfl
            next paths hnonempty hcollected =>
              exact absurd ⟨hunderstood, ⟨logs, hconfig⟩, hdispatched,
                Bool.eq_false_iff.2 hunlisted, Bool.eq_false_iff.2 hparser, hcollected,
                hnonempty⟩ (h o config d paths)
  next => rfl
  next => rfl

/-! ## What a run leaves behind -/

/-- The files after the corrected texts for some paths are written. -/
structure Rewritten (setting : Setting) (d : Dispatcher) (limit : Value) (paths : List String)
    (after : Files) : Prop where
  /-- A path has a corrected text exactly if the edits found for its file can be made and leave
  another text. -/
  spliced : ∀ path ∈ paths, ∀ new,
    Rewrites setting d limit path new ↔ ∃ data, Spliced setting d path data new
  /-- A path whose report has an error or a rejection has none. -/
  refused : ∀ path ∈ paths, ∀ report, (analyze setting d limit true path).1 = .ok report →
    report.error ≠ none ∨ report.rejection ≠ none → ∀ new, ¬Rewrites setting d limit path new
  /-- The files that have other bytes are those for which there is a corrected text. -/
  changed : ∀ path data, setting.files.bytes? path = some data →
    (after.bytes? path ≠ some data ↔ ∃ p ∈ paths,
      setting.files.place p = setting.files.place path ∧ ∃ new, Rewrites setting d limit p new)
  /-- Such a file has its own bytes with the edits made, and keeps all bytes that no edit
  replaces. -/
  edited : ∀ path data, setting.files.bytes? path = some data → after.bytes? path ≠ some data →
    ∃ p ∈ paths, setting.files.place p = setting.files.place path ∧
      ∃ text i, Investigated setting d p text i ∧ Edit.Fit text (i.edits text) ∧
        after.bytes? path = some (Edit.positional data (i.edits text)) ∧
        (Edit.untouched data (i.edits text)).Sublist (Edit.positional data (i.edits text))
  /-- There are no other files than before. -/
  created : ∀ path, setting.files.bytes? path = none → after.bytes? path = none

/-- A corrected text in a report is what the path of the report gets. -/
theorem spliced_of_corrected
    (hreports : paths.mapM (fun path => (analyze setting d limit true path).1) = .ok reports)
    (hreport : report ∈ reports) {text : String} (htext : report.corrected = some text) :
    report.path ∈ paths ∧ ∃ data, Spliced setting d report.path data (Utf8.encode text) := by
  obtain ⟨path, hpath, hanalyzed⟩ := (mem_of_mapM_eq_ok hreports).2 report hreport
  obtain rfl := analyze_path hanalyzed
  exact ⟨hpath, (rewrites_iff hanalyzed).1 ⟨report, text, hanalyzed, htext, rfl⟩⟩

theorem bytes?_written_reports (hfolder : Path.isAbsolute setting.files.folder = true)
    (hreports : paths.mapM (fun path => (analyze setting d limit true path).1) = .ok reports)
    (path : String) :
    (written setting.files reports).bytes? path = (setting.files.bytes? path).map fun data =>
      reports.foldl (overwritten setting.files path) data := by
  refine bytes?_written hfolder (fun r hr hchanged => ?_) path
  obtain ⟨text, htext⟩ := Option.ne_none_iff_exists'.1 hchanged
  obtain ⟨-, data, _, _, hdata, -⟩ := spliced_of_corrected hreports hr htext
  exact ⟨data, hdata⟩

/-- The bytes of a file afterwards are the old ones, or those that one of the paths to it gets. -/
theorem written_cases (hfolder : Path.isAbsolute setting.files.folder = true)
    (hreports : paths.mapM (fun path => (analyze setting d limit true path).1) = .ok reports)
    (hdata : setting.files.bytes? path = some data) :
    ((written setting.files reports).bytes? path = some data ∧
      ∀ r ∈ reports, setting.files.place path = setting.files.place r.path →
        r.corrected = none) ∨
    ∃ p ∈ paths, setting.files.place p = setting.files.place path ∧
      ∃ new, Spliced setting d p data new ∧
        (written setting.files reports).bytes? path = some new := by
  rw [bytes?_written_reports hfolder hreports, hdata, Option.map_some]
  rcases foldl_overwritten setting.files path data reports with
    ⟨hsame, hnone⟩ | ⟨r, hr, hplace, text, htext, hnew⟩
  · exact .inl ⟨congrArg some hsame, hnone⟩
  · obtain ⟨hpath, data', hspliced⟩ := spliced_of_corrected hreports hr htext
    obtain ⟨_, _, hdata', -⟩ := id hspliced
    obtain rfl := Files.bytes?_unique hfolder hplace hdata hdata'
    exact .inr ⟨r.path, hpath, hplace.symm, _, hspliced, congrArg some hnew⟩

/-- A file has other bytes afterwards exactly if one of the paths to it gets some. -/
theorem written_ne_iff (hfolder : Path.isAbsolute setting.files.folder = true)
    (hreports : paths.mapM (fun path => (analyze setting d limit true path).1) = .ok reports)
    (hdata : setting.files.bytes? path = some data) :
    (written setting.files reports).bytes? path ≠ some data ↔ ∃ p ∈ paths,
      setting.files.place p = setting.files.place path ∧ ∃ new, Rewrites setting d limit p new := by
  have hreported := (mem_of_mapM_eq_ok hreports).1
  constructor
  · intro hchanged
    rcases written_cases hfolder hreports hdata with ⟨hsame, -⟩ | ⟨p, hp, hplace, new, hnew, -⟩
    · exact absurd hsame hchanged
    · obtain ⟨r, -, hr⟩ := hreported p hp
      exact ⟨p, hp, hplace, new, (rewrites_iff hr).2 ⟨data, hnew⟩⟩
  · rintro ⟨p, hp, hplace, new, r, text, hreport, htext, rfl⟩ hsame
    rcases written_cases hfolder hreports hdata with ⟨-, hnone⟩ | ⟨p', -, -, new', hnew', hafter⟩
    · obtain ⟨r', hr', hreport'⟩ := hreported p hp
      obtain rfl := Except.ok.inj (hreport.symm.trans hreport')
      rw [← analyze_path hreport] at hplace
      nomatch htext.symm.trans (hnone r hr' hplace.symm)
    · obtain ⟨_, _, _, _, _, _, hother, _⟩ := hnew'
      exact hother (Option.some.inj (hafter.symm.trans hsame))

/-- The files are rewritten once every path has a report. -/
theorem rewritten (hfolder : Path.isAbsolute setting.files.folder = true)
    (hreports : paths.mapM (fun path => (analyze setting d limit true path).1) = .ok reports) :
    Rewritten setting d limit paths (written setting.files reports) where
  spliced path hpath new := by
    obtain ⟨report, -, hreport⟩ := (mem_of_mapM_eq_ok hreports).1 path hpath
    exact rewrites_iff hreport
  refused path _ report hreport hfault new := not_rewrites hreport hfault
  changed path data hdata := written_ne_iff hfolder hreports hdata
  edited path data hdata hchanged := by
    rcases written_cases hfolder hreports hdata with
      ⟨hsame, -⟩ | ⟨p, hp, hplace, new, hnew, hafter⟩
    · exact absurd hsame hchanged
    · obtain ⟨text, i, -, hi, hfit, rfl, -⟩ := hnew
      exact ⟨p, hp, hplace, text, i, hi, hfit, hafter, Edit.untouched_sublist data _⟩
  created path hnone := by
    rw [bytes?_written_reports hfolder hreports, hnone]
    rfl

/-- A run changes no file unless it is asked to correct and not only to show, and comes to its
files.  If the analysis of one of them breaks off, it changes none.  Otherwise it changes the files
for which there are corrected texts, once under each absolute path: they get their own bytes with
the edits made at their offsets.  All other files keep their bytes. -/
theorem run_files [Machine] (setting : Setting) (arguments : List String)
    (hfolder : Path.isAbsolute setting.files.folder = true) :
    ((∀ o, Options.ofArguments arguments = .ok o → o.fix = true → o.diff = true) →
      (run setting arguments).files = setting.files) ∧
    ((∀ o config d paths, ¬Collected setting arguments o config d paths) →
      (run setting arguments).files = setting.files) ∧
    ∀ o config d paths, Collected setting arguments o config d paths → o.fix = true →
      o.diff = false →
      (paths.Pairwise fun p q => setting.files.place p = setting.files.place q →
        Path.root (Path.join setting.files.folder p) ≠
          Path.root (Path.join setting.files.folder q)) ∧
      ((∃ path ∈ paths, ∃ fault, (analyze setting d config.limit true path).1 = .error fault) →
        (run setting arguments).files = setting.files) ∧
      ((∀ path ∈ paths, ∃ report, (analyze setting d config.limit true path).1 = .ok report) →
        Rewritten setting d config.limit paths (run setting arguments).files) := by
  refine ⟨?_, files_of_not_collected, ?_⟩
  · intro hshow
    by_cases hcollected : ∃ o config d paths, Collected setting arguments o config d paths
    · obtain ⟨o, config, d, paths, h⟩ := hcollected
      have hkeep : (o.fix && !o.diff) = false := by
        have hdiff := hshow o h.understood
        cases hfix : o.fix with
        | false => rfl
        | true => simp [hdiff hfix]
      rw [h.files_eq, hkeep]
      split
      · rfl
      · rfl
    · exact files_of_not_collected fun o config d paths h => hcollected ⟨o, config, d, paths, h⟩
  · intro o config d paths h hfix hdiff
    have hcorrects : corrects o = true := by simp [corrects, hfix]
    have hfiles := h.files_eq
    rw [hcorrects, hfix, hdiff] at hfiles
    refine ⟨Files.collect_pairwise h.collected, ?_, ?_⟩
    · rintro ⟨path, hpath, fault, hfault⟩
      cases hreports : paths.mapM fun path => (analyze setting d config.limit true path).1 with
      | error fault' =>
          rw [hreports] at hfiles
          exact hfiles
      | ok reports =>
          obtain ⟨report, -, hreport⟩ := (mem_of_mapM_eq_ok hreports).1 path hpath
          nomatch hfault.symm.trans hreport
    · intro hall
      cases hreports : paths.mapM fun path => (analyze setting d config.limit true path).1 with
      | error fault =>
          obtain ⟨path, hpath, hfault⟩ := mapM_eq_error hreports
          obtain ⟨report, hreport⟩ := hall path hpath
          nomatch hfault.symm.trans hreport
      | ok reports =>
          rw [hreports] at hfiles
          rw [hfiles]
          exact rewritten hfolder hreports

/-! ## Runs over files of words -/

/-- The run that corrects a phrase writes it back, and leaves the configuration as it is. -/
theorem run_files_desk :
    (run (desk "max_offenses_per_file: 0\n") ["a.rb", "--fix", "--format", "json"]).files.bytes?
        "a.rb" = some (Utf8.encode "z Y") ∧
      (run (desk "max_offenses_per_file: 0\n") ["a.rb", "--fix", "--format", "json"]).files.bytes?
        ".treecop.yml" = some (Utf8.encode "max_offenses_per_file: 0\n") := by
  have hsummary : summary "max_offenses_per_file: 0\n" =
      some (0, ["a.rb"], [(0, [⟨0, 1, "z"⟩]), (2, [])]) := by decide +kernel
  obtain ⟨config, d, reports, i, h, -, hi, hphrased⟩ := of_summary hsummary
  have hcollected : Collected (desk "max_offenses_per_file: 0\n")
      ["a.rb", "--fix", "--format", "json"] fixing config d ["a.rb"] :=
    ⟨h.understood, h.configured, h.dispatched, h.unlisted, h.parser, h.collected, h.nonempty⟩
  obtain ⟨-, -, hwrites⟩ := run_files (desk "max_offenses_per_file: 0\n")
    ["a.rb", "--fix", "--format", "json"] (by decide +kernel)
  obtain ⟨-, -, hrewrites⟩ := hwrites fixing config d ["a.rb"] hcollected rfl rfl
  have hrewritten := hrewrites fun path hpath => by
    obtain ⟨report, -, hreport⟩ := (mem_of_mapM_eq_ok h.analyzed).1 path hpath
    exact ⟨report, hreport⟩
  have hdata := hi.bytes?_eq
  have hedited : Edit.positional (Utf8.encode "x Y") (i.edits "x Y") = Utf8.encode "z Y" := by
    rw [hphrased.edits]
    decide +kernel
  constructor
  · have hspliced : Spliced (desk "max_offenses_per_file: 0\n") d "a.rb" (Utf8.encode "x Y")
        (Utf8.encode "z Y") := by
      refine ⟨"x Y", i, hdata, hi, ?_, hedited.symm, by decide +kernel, "z Y",
        Utf8.decode_encode "z Y"⟩
      rw [hphrased.edits]
      decide +kernel
    have hrewritesTo := (hrewritten.spliced "a.rb" (by simp) _).2 ⟨_, hspliced⟩
    obtain ⟨p, hp, -, text, i', hi', -, hafter, -⟩ := hrewritten.edited "a.rb" _ hdata
      ((hrewritten.changed "a.rb" _ hdata).2 ⟨"a.rb", by simp, rfl, _, hrewritesTo⟩)
    obtain rfl := List.mem_singleton.1 hp
    obtain ⟨rfl, rfl⟩ := hi.unique hi'
    rw [hafter, hedited]
  · have hconfiguration : (desk "max_offenses_per_file: 0\n").files.bytes? ".treecop.yml" =
        some (Utf8.encode "max_offenses_per_file: 0\n") := by
      decide +kernel
    refine not_not.1 fun hchanged => ?_
    obtain ⟨p, hp, hplace, -⟩ := (hrewritten.changed _ _ hconfiguration).1 hchanged
    obtain rfl := List.mem_singleton.1 hp
    revert hplace
    decide +kernel

def wordRules : List (Rule Memory) :=
  [.scripted { id := "a.one", category := "test", kinds := ["identifier"], autocorrect := true }
    [.report ⟨.node, false, [⟨0, 1, "z"⟩], some "one", none, .null, []⟩] none]

/-- A folder with two files of one word each.  The first byte of the second word is half of a
character. -/
def shelf : Setting where
  files := ⟨.folder [("a.rb", .file (Utf8.encode "x")), ("b.rb", .file (Utf8.encode "é"))], "/"⟩
  parser := some FileReport.word
  rules := some wordRules

def shelving : Options :=
  { paths := ["a.rb", "b.rb"], fix := true }

/-- The files of such a run, and the corrected text of the first one. -/
def shelved : Option (List String × Option String) := do
  let path? := configPath? shelf.files shelving
  let (config, _) ← (loadConfig shelf.files path?).toOption
  let paths ← (shelf.files.collect shelving.paths config.exclude (root shelf.files path?)).toOption
  let d ← (dispatcher shelf config shelving).toOption
  let report ← (analyze shelf d config.limit true "a.rb").1.toOption
  return (paths, report.corrected)

/-- The edit of the second word cuts a character, and the run breaks off: the first file keeps its
bytes, although there is a corrected text for it. -/
theorem run_files_shelf :
    (∃ config d paths, Collected shelf ["a.rb", "b.rb", "--fix"] shelving config d paths ∧
      "a.rb" ∈ paths ∧ Rewrites shelf d config.limit "a.rb" (Utf8.encode "z")) ∧
    (run shelf ["a.rb", "b.rb", "--fix"]).files.bytes? "a.rb" = some (Utf8.encode "x") := by
  refine ⟨?_, by decide +kernel⟩
  have hshelved : shelved = some (["a.rb", "b.rb"], some "z") := by decide +kernel
  simp only [shelved, Option.bind_eq_bind, Option.bind_eq_some_iff] at hshelved
  obtain ⟨⟨config, logs⟩, hconfig, paths, hpaths, d, hd, report, hreport, hresult⟩ := hshelved
  obtain ⟨rfl, hcorrected⟩ := Prod.mk.inj (Option.some.inj hresult)
  refine ⟨config, d, ["a.rb", "b.rb"], ?_, by simp, report, "z", toOption_eq_some hreport,
    hcorrected, rfl⟩
  exact {
    understood := rfl
    configured := ⟨logs, toOption_eq_some hconfig⟩
    dispatched := toOption_eq_some hd
    unlisted := rfl
    parser := rfl
    collected := toOption_eq_some hpaths
    nonempty := by simp }

end CommandLine

end RubyLint
