import RubyLint.CommandLine.Run
import RubyLint.Proofs.Lint

/-!
# Exit status

A run that analyzes files ends with 0 or 1, and with 0 exactly if no file has an error and nothing
is left to do about the offenses that its report shows.  A limit on the number of offenses cuts the
reports before they are judged, so an offense behind the cut does not count.  Where nothing is cut
off, the status judges all offenses that are not suppressed.
-/

namespace RubyLint

/-! ## Findings shown and resolved -/

theorem Finding.length_byPlace (ranks : Finding.Ranks) (findings : List Finding) :
    (Finding.byPlace ranks findings).length = findings.length :=
  (List.mergeSort_perm _ _).length_eq

namespace Investigation

variable {i : Investigation} {text : String} {n : Int}

/-- The findings that the report of a text shows under a limit: by place, and cut. -/
def shown (i : Investigation) (n : Int) (text : String) : List Finding :=
  Config.cutTo n (Finding.byPlace i.ranks (i.kept text))

theorem mem_kept_of_mem_shown {f : Finding} (h : f ∈ i.shown n text) : f ∈ i.kept text :=
  List.mem_mergeSort.1 (Config.mem_of_mem_cutTo h)

/-- Without a cut all findings that are not suppressed are shown. -/
theorem mem_shown_iff (h : n = 0 ∨ ((i.kept text).length : Int) ≤ n) {f : Finding} :
    f ∈ i.shown n text ↔ f ∈ i.kept text := by
  rw [← Finding.length_byPlace i.ranks] at h
  rw [shown, Config.cutTo, if_pos h]
  exact List.mem_mergeSort

/-- A positive limit leaves something to show. -/
theorem shown_eq_nil_iff (h : 0 < n) : i.shown n text = [] ↔ i.kept text = [] := by
  have hsorted : Finding.byPlace i.ranks (i.kept text) = [] ↔ i.kept text = [] := by
    rw [List.eq_nil_iff_length_eq_zero, List.eq_nil_iff_length_eq_zero, Finding.length_byPlace]
  rw [← hsorted, shown, Config.cutTo]
  split
  · exact Iff.rfl
  · have hpos : n.toNat ≠ 0 := by omega
    rw [List.take_eq_nil_iff]
    simp [hpos]

theorem mem_findings_of_mem_kept {f : Finding} (h : f ∈ i.kept text) : f ∈ i.findings := by
  have hordered : f ∈ i.ordered := by
    rw [kept, Suppression.keep] at h
    split at h
    · exact h
    · exact (List.mem_filter.1 h).1
  exact List.mem_mergeSort.1 hordered

/-- Findings are told apart by their numbers. -/
theorem eq_of_serial_eq {f g : Finding} (hf : f ∈ i.findings) (hg : g ∈ i.findings)
    (h : f.serial = g.serial) : f = g := by
  obtain ⟨k, hk, rfl⟩ := List.mem_mapIdx.1 hf
  obtain ⟨l, hl, rfl⟩ := List.mem_mapIdx.1 hg
  obtain rfl : k = l := h
  rfl

/-- What is left to do about some findings: nothing if there are none or, when correcting, if each
has edits and the edits of all findings fit together and leave a text. -/
def Resolved (i : Investigation) (text : String) (fix : Bool) (judged : List Finding) : Prop :=
  if fix then
    (∀ f ∈ judged, f.offense.edits ≠ []) ∧ Edit.Fit text (i.edits text) ∧
      ∃ corrected, Utf8.decode (FileReport.editedBytes i text) = .ok corrected
  else judged = []

theorem resolved_congr {fix : Bool} {judged judged' : List Finding}
    (h : ∀ f, f ∈ judged ↔ f ∈ judged') :
    i.Resolved text fix judged ↔ i.Resolved text fix judged' := by
  cases fix with
  | false => simp [Resolved, List.eq_nil_iff_forall_not_mem, h]
  | true => simp [Resolved, h]

end Investigation

namespace FileReport

/-- A report in which nothing is left to complain about. -/
def Clean (r : FileReport) (fix : Bool) : Prop :=
  r.errorText? = none ∧ r.rejectionText? = none ∧ (if fix then r.remaining else r.offenses) = []

variable {i : Investigation} {path text : String} {n : Int} {fix : Bool} {report : FileReport}

theorem errorText?_eq_none_iff :
    report.errorText? = none ↔ ∀ e, report.error = some e → e = "" := by
  simp [errorText?, Option.filter_eq_none_iff]

theorem rejectionText?_eq_none_iff :
    report.rejectionText? = none ↔ ∀ e, report.rejection = some e → e = "" := by
  simp [rejectionText?, Option.filter_eq_none_iff]

theorem statusOf_cases (fix : Bool) (reports : List FileReport) :
    CommandLine.statusOf fix reports = .clean ∨ CommandLine.statusOf fix reports = .offenses := by
  rw [CommandLine.statusOf]
  generalize reports.any (fun r => r.errorText?.isSome || r.rejectionText?.isSome) = faulty
  generalize reports.any (fun r => !(if fix then r.remaining else r.offenses).isEmpty) = left
  cases faulty <;> cases left <;> simp

theorem statusOf_eq_clean_iff (fix : Bool) (reports : List FileReport) :
    CommandLine.statusOf fix reports = .clean ↔ ∀ r ∈ reports, r.Clean fix := by
  have hsplit : CommandLine.statusOf fix reports = .clean ↔
      reports.any (fun r => r.errorText?.isSome || r.rejectionText?.isSome) = false ∧
        reports.any (fun r => !(if fix then r.remaining else r.offenses).isEmpty) = false := by
    rw [CommandLine.statusOf]
    generalize reports.any (fun r => r.errorText?.isSome || r.rejectionText?.isSome) = faulty
    generalize reports.any (fun r => !(if fix then r.remaining else r.offenses).isEmpty) = left
    cases faulty <;> cases left <;> simp
  rw [hsplit, List.any_eq_false, List.any_eq_false]
  simp only [Bool.or_eq_true, not_or, Option.isSome_iff_ne_none, ne_eq, not_not, Bool.not_eq_true',
    Bool.not_eq_false, List.isEmpty_iff]
  constructor
  · rintro ⟨hfaults, hleft⟩ r hr
    exact ⟨(hfaults r hr).1, (hfaults r hr).2, hleft r hr⟩
  · intro h
    exact ⟨fun r hr => ⟨(h r hr).1, (h r hr).2.1⟩, fun r hr => (h r hr).2.2⟩

theorem append_ne_empty {a : String} (h : a ≠ "") (b : String) : a ++ b ≠ "" := by
  intro happend
  exact h (String.append_eq_empty_iff.1 happend).1

/-- The reason for a rejected correction is never empty. -/
theorem message_ne_empty (fault : EditFault) : fault.message ≠ "" := by
  cases fault with
  | outside edit size =>
      simp only [EditFault.message, String.append_assoc]
      exact append_ne_empty (by decide) _
  | conflict first second =>
      simp only [EditFault.message, String.append_assoc]
      exact append_ne_empty (by decide) _

/-- A report with an error that starts with some text has an error. -/
theorem errorText?_ne_none {a b : String} (ha : a ≠ "") (h : report.error = some (a ++ b)) :
    report.errorText? ≠ none := by
  intro hnone
  exact append_ne_empty ha b (errorText?_eq_none_iff.1 hnone _ h)

/-- Nothing remains of the findings of a report if they all have edits and these were applied. -/
theorem remaining_eq_nil_iff (report : FileReport) (hshown : ∀ f ∈ report.offenses, f ∈ i.kept text)
    (happlied : report.applied = i.fixable text) :
    report.remaining = [] ↔ ∀ f ∈ report.offenses, f.offense.edits ≠ [] := by
  have hfixed : ∀ f ∈ report.offenses, report.isApplied f = true ↔ f.offense.edits ≠ [] := by
    intro f hf
    rw [isApplied, happlied, List.any_eq_true]
    constructor
    · rintro ⟨g, hg, hserial⟩
      obtain ⟨hg, hcorrectable⟩ := List.mem_filter.1 hg
      have heq : g = f := Investigation.eq_of_serial_eq
        (Investigation.mem_findings_of_mem_kept hg)
        (Investigation.mem_findings_of_mem_kept (hshown f hf)) (beq_iff_eq.1 hserial)
      rw [heq] at hcorrectable
      simpa [Offense.correctable] using hcorrectable
    · intro hedits
      refine ⟨f, List.mem_filter.2 ⟨hshown f hf, ?_⟩, beq_self_eq_true _⟩
      simpa [Offense.correctable] using hedits
  rw [remaining, List.filter_eq_nil_iff]
  constructor
  · intro h f hf
    exact (hfixed f hf).1 (by simpa using h f hf)
  · intro h f hf
    simpa using (hfixed f hf).2 (h f hf)

theorem ofInvestigation_clean_iff
    (h : (ofInvestigation i (.int n) fix path text).1 = .ok report) :
    report.Clean fix ↔ i.Resolved text fix (i.shown n text) := by
  have hcut : Config.cut (.int n) (Finding.byPlace i.ranks (i.kept text)) = .ok (i.shown n text) :=
    Config.cut_int n _
  cases fix with
  | false =>
      rw [ofInvestigation_false, hcut] at h
      obtain rfl := Except.ok.inj h
      simp [Clean, Investigation.Resolved, investigated, errorText?, rejectionText?]
  | true =>
      by_cases hfit : Edit.Fit text (i.edits text)
      · rw [ofInvestigation_fit hcut hfit] at h
        cases hdecode : Utf8.decode (editedBytes i text) with
        | error error =>
            rw [hdecode] at h
            cases h
        | ok corrected =>
            rw [hdecode] at h
            obtain rfl := Except.ok.inj h
            have hremaining := remaining_eq_nil_iff
              { investigated i path text (i.shown n text) with
                applied := i.fixable text
                corrected := if corrected = text then none else some corrected }
              (fun f => Investigation.mem_kept_of_mem_shown) rfl
            constructor
            · rintro ⟨-, -, hnone⟩
              exact ⟨hremaining.1 hnone, hfit, corrected, hdecode⟩
            · rintro ⟨hedits, -, -⟩
              exact ⟨rfl, rfl, hremaining.2 hedits⟩
      · obtain ⟨fault, -, hrun⟩ := ofInvestigation_unfit hcut hfit path
        obtain rfl := Except.ok.inj (hrun.symm.trans h)
        have hrejected : ¬({ investigated i path text (i.shown n text) with
            rejection := some fault.message } : FileReport).Clean true := by
          rintro ⟨-, hrejection, -⟩
          exact message_ne_empty fault (rejectionText?_eq_none_iff.1 hrejection _ rfl)
        refine iff_of_false hrejected ?_
        rintro ⟨-, hfit', -⟩
        exact hfit hfit'

end FileReport

namespace CommandLine

variable {setting : Setting} {arguments : List String} {o : Options} {config : Config}
variable {d : Dispatcher} {paths : List String} {path text : String} {reports : List FileReport}
variable {i : Investigation} {n : Int} {fix : Bool} {report : FileReport}

/-- A file that was read and parsed without an error, and what the rules found in it. -/
def Investigated (setting : Setting) (d : Dispatcher) (path text : String) (i : Investigation) :
    Prop :=
  ∃ data document, setting.files.find? path = some (.file data) ∧ Utf8.decode data = .ok text ∧
    setting.parser.document? path text = .ok (some document) ∧ document.faults = [] ∧
    d.investigate document = .ok i

/-- What is found in a file is settled by the file. -/
theorem Investigated.unique {text' : String} {i' : Investigation}
    (h : Investigated setting d path text i) (h' : Investigated setting d path text' i') :
    text = text' ∧ i = i' := by
  obtain ⟨data, document, hdata, htext, hdocument, -, hi⟩ := h
  obtain ⟨data', document', hdata', htext', hdocument', -, hi'⟩ := h'
  obtain rfl : data = data' := by simpa using hdata.symm.trans hdata'
  obtain rfl : text = text' := Except.ok.inj (htext.symm.trans htext')
  obtain rfl : document = document' := by simpa using hdocument.symm.trans hdocument'
  exact ⟨rfl, Except.ok.inj (hi.symm.trans hi')⟩

/-- A file without an error, of whose findings the judged ones are resolved. -/
def Done (setting : Setting) (d : Dispatcher) (fix : Bool)
    (judged : Investigation → String → List Finding) (path : String) : Prop :=
  ∃ text i, Investigated setting d path text i ∧ i.Resolved text fix (judged i text)

/-- A file whose report is not cut, or of which at least one finding is shown if there are any and
nothing is corrected. -/
def Uncut (setting : Setting) (d : Dispatcher) (fix : Bool) (n : Int) (path : String) : Prop :=
  ∀ text i, Investigated setting d path text i →
    n = 0 ∨ ((i.kept text).length : Int) ≤ n ∨ fix = false ∧ 0 < n

/-- A run that gets as far as analyzing files, and whose report passes its check. -/
structure Analyzed [Machine] (setting : Setting) (arguments : List String) (o : Options)
    (config : Config) (d : Dispatcher) (paths : List String) (reports : List FileReport) :
    Prop where
  understood : Options.ofArguments arguments = .ok o
  configured : ∃ logs, loadConfig setting.files (configPath? setting.files o) = .ok (config, logs)
  dispatched : dispatcher setting config o = .ok d
  unlisted : o.listRules = false
  parser : setting.parser.isNone = false
  collected : setting.files.collect o.paths config.exclude
    (root setting.files (configPath? setting.files o)) = .ok paths
  nonempty : paths ≠ []
  analyzed : paths.mapM (fun path => (analyze setting d config.limit (corrects o) path).1) =
    .ok reports
  rendered : ∃ text, Report.render ⟨setting.files.folder, reports, d.rules.length,
    Report.measured 0 0 0⟩ o.format = .ok text
  valid : reportFaults o ⟨setting.files.folder, reports, d.rules.length,
    Report.measured 0 0 0⟩ = []

/-- Such a run ends as its reports are judged. -/
theorem Analyzed.status [Machine] (h : Analyzed setting arguments o config d paths reports) :
    (run setting arguments).status = statusOf (corrects o) reports := by
  obtain ⟨logs, hconfig⟩ := h.configured
  obtain ⟨text, htext⟩ := h.rendered
  have hreports : (paths.map (analyze setting d config.limit (corrects o))).mapM (·.1) =
      .ok reports := by
    rw [List.mapM_map]
    exact h.analyzed
  obtain ⟨path, rest, rfl⟩ := List.exists_cons_of_ne_nil h.nonempty
  simp only [run, h.understood, runOptions, hconfig, runWith, h.dispatched, h.unlisted,
    Bool.false_eq_true, if_false, h.parser, analyzeFiles, h.collected, analyzeAll, hreports,
    conclude, htext, h.valid]

/-- A file is investigated, or its report has an error and nothing is corrected, because it cannot
be investigated. -/
theorem analyze_cases {limit : Value} (h : (analyze setting d limit fix path).1 = .ok report) :
    (∃ text i, Investigated setting d path text i ∧
      (FileReport.ofInvestigation i limit fix path text).1 = .ok report) ∨
    ((report.errorText? ≠ none ∧ report.path = path ∧ report.corrected = none) ∧
      ∀ text i, ¬Investigated setting d path text i) := by
  rw [analyze] at h
  split at h
  next data hdata =>
    -- Whatever is investigated in this file has the text that these bytes are decoded to.
    have hread : ∀ {text i}, Investigated setting d path text i → Utf8.decode data = .ok text := by
      rintro text i ⟨data', -, hdata', htext, -⟩
      obtain rfl : data = data' := by simpa using hdata.symm.trans hdata'
      exact htext
    split at h
    next text htext =>
      have htext' : ∀ {text' i}, Investigated setting d path text' i → text' = text := fun hi =>
        Except.ok.inj ((hread hi).symm.trans htext)
      rw [FileReport.ofText] at h
      split at h
      next => cases h
      next hdocument =>
        obtain rfl := Except.ok.inj h
        refine .inr ⟨⟨FileReport.errorText?_ne_none (by decide) rfl, rfl, rfl⟩, ?_⟩
        intro text' i hi
        obtain rfl := htext' hi
        obtain ⟨-, document, -, -, hdocument', -⟩ := hi
        simp [hdocument] at hdocument'
      next document hdocument =>
        split at h
        next hfaults =>
          split at h
          next => cases h
          next i hi =>
            exact .inl ⟨text, i, ⟨data, document, hdata, htext, hdocument, hfaults, hi⟩, h⟩
        next line column rest hfaults =>
          obtain rfl := Except.ok.inj h
          rw [String.append_assoc, String.append_assoc]
          refine .inr ⟨⟨FileReport.errorText?_ne_none (by decide) rfl, rfl, rfl⟩, ?_⟩
          intro text' i hi
          obtain rfl := htext' hi
          obtain ⟨-, document', -, -, hdocument', hfaults', -⟩ := hi
          obtain rfl : document = document' := by simpa using hdocument.symm.trans hdocument'
          simp [hfaults] at hfaults'
    next error herror =>
      obtain rfl : (FileReport.unreadable path error.message).1 = report := Except.ok.inj h
      refine .inr ⟨⟨FileReport.errorText?_ne_none (by decide) rfl, rfl, rfl⟩, fun text i hi => ?_⟩
      cases herror.symm.trans (hread hi)
  next hfile =>
    obtain rfl : (FileReport.unreadable path s!"no such file: {path}").1 = report :=
      Except.ok.inj h
    refine .inr ⟨⟨FileReport.errorText?_ne_none (by decide) rfl, rfl, rfl⟩, ?_⟩
    rintro text i ⟨data, -, hdata, -⟩
    exact hfile data hdata

theorem analyze_clean_iff (h : (analyze setting d (.int n) fix path).1 = .ok report) :
    report.Clean fix ↔ Done setting d fix (·.shown n) path := by
  rcases analyze_cases h with ⟨text, i, hi, hreport⟩ | ⟨⟨herror, -⟩, hnone⟩
  · rw [FileReport.ofInvestigation_clean_iff hreport]
    constructor
    · intro hresolved
      exact ⟨text, i, hi, hresolved⟩
    · rintro ⟨text', i', hi', hresolved⟩
      obtain ⟨rfl, rfl⟩ := hi.unique hi'
      exact hresolved
  · refine iff_of_false (fun hclean => herror hclean.1) ?_
    rintro ⟨text, i, hi, -⟩
    exact hnone text i hi

/-- Which reports a run makes is settled file by file. -/
theorem Analyzed.clean_iff [Machine] (h : Analyzed setting arguments o config d paths reports)
    (hlimit : config.limit = .int n) :
    (∀ r ∈ reports, r.Clean (corrects o)) ↔
      ∀ path ∈ paths, Done setting d (corrects o) (·.shown n) path := by
  have hfiles := mapM_eq_ok h.analyzed
  rw [hlimit] at hfiles
  clear h
  induction hfiles with
  | nil => simp
  | cons hfile hrest ih =>
      rw [List.forall_mem_cons, List.forall_mem_cons]
      exact and_congr (analyze_clean_iff hfile) ih

/-- Where nothing is cut off, the findings shown are resolved if all of them are. -/
theorem done_iff_of_uncut (huncut : Uncut setting d fix n path) :
    Done setting d fix (·.shown n) path ↔ Done setting d fix (·.kept) path := by
  refine exists_congr fun text => exists_congr fun i => and_congr_right fun hi => ?_
  rcases huncut text i hi with hwhole | hwhole | ⟨rfl, hpos⟩
  · exact Investigation.resolved_congr fun f => Investigation.mem_shown_iff (.inl hwhole)
  · exact Investigation.resolved_congr fun f => Investigation.mem_shown_iff (.inr hwhole)
  · exact Investigation.shown_eq_nil_iff hpos

/-- If all findings of a file are resolved, those shown are. -/
theorem Done.shown (h : Done setting d fix (·.kept) path) :
    Done setting d fix (·.shown n) path := by
  obtain ⟨text, i, hi, hresolved⟩ := h
  refine ⟨text, i, hi, ?_⟩
  cases fix with
  | false =>
      refine List.eq_nil_iff_forall_not_mem.2 fun f hf => ?_
      have hkept : i.kept text = [] := hresolved
      simpa [hkept] using Investigation.mem_kept_of_mem_shown hf
  | true =>
      obtain ⟨hedits, hfit⟩ := hresolved
      exact ⟨fun f hf => hedits f (Investigation.mem_kept_of_mem_shown hf), hfit⟩

/-- A run that analyzes files ends with 0 or 1.  It ends with 0 exactly if every file could be
investigated and the offenses that its report shows are resolved.  So it ends with 0 if all offenses
that are not suppressed are resolved and, where no report is cut, only then. -/
theorem run_status [Machine] (setting : Setting) (arguments : List String) (o : Options)
    (config : Config) (d : Dispatcher) (paths : List String) (reports : List FileReport) (n : Int)
    (h : Analyzed setting arguments o config d paths reports) (hlimit : config.limit = .int n) :
    ((run setting arguments).status.code = 0 ∨ (run setting arguments).status.code = 1) ∧
    ((run setting arguments).status.code = 0 ↔
      ∀ path ∈ paths, Done setting d (corrects o) (·.shown n) path) ∧
    ((∀ path ∈ paths, Done setting d (corrects o) (·.kept) path) →
      (run setting arguments).status.code = 0) ∧
    ((∀ path ∈ paths, Uncut setting d (corrects o) n path) →
      ((run setting arguments).status.code = 0 ↔
        ∀ path ∈ paths, Done setting d (corrects o) (·.kept) path)) := by
  have hcode := FileReport.statusOf_cases (corrects o) reports
  have hzero : (run setting arguments).status.code = 0 ↔
      ∀ path ∈ paths, Done setting d (corrects o) (·.shown n) path := by
    rw [← h.clean_iff hlimit, ← FileReport.statusOf_eq_clean_iff, h.status]
    rcases hcode with hcode | hcode <;> simp [hcode, Status.code]
  refine ⟨?_, hzero, fun hdone => hzero.2 fun path hpath => (hdone path hpath).shown, ?_⟩
  · rw [h.status]
    rcases hcode with hcode | hcode <;> simp [hcode, Status.code]
  · intro huncut
    rw [hzero]
    exact forall₂_congr fun path hpath => done_iff_of_uncut (huncut path hpath)

/-! ## A run over one file -/

def phrase : ParseTree :=
  ⟨"program", 0, 3, true, none,
    [⟨"identifier", 0, 1, true, none, [], false, false, 0, 0⟩,
      ⟨"constant", 2, 3, true, none, [], false, false, 0, 2⟩], false, false, 0, 0⟩

def phraseDocument : Document :=
  ⟨Source.ofText "a.rb" "x Y", ⟨"program", 0, 3, true, none,
    [⟨"identifier", 0, 1, true, none, []⟩, ⟨"constant", 2, 3, true, none, []⟩]⟩, []⟩

/-- A rule that corrects the first word, and one that only reports the second. -/
def phraseRules : List (Rule Memory) :=
  [.scripted { id := "a.one", category := "test", kinds := ["identifier"], autocorrect := true }
      [.report ⟨.node, false, [⟨0, 1, "z"⟩], some "one", none, .null, []⟩] none,
    .scripted { id := "b.two", category := "test", kinds := ["constant"] }
      [.report ⟨.node, false, [], some "two", none, .null, []⟩] none]

def desk (configuration : String) : Setting where
  files := ⟨.folder [("a.rb", .file (Utf8.encode "x Y")),
    (".treecop.yml", .file (Utf8.encode configuration))], "/"⟩
  parser := some fun _ => phrase
  rules := some phraseRules

def fixing : Options :=
  { paths := ["a.rb"], fix := true, format := .json }

/-- The limit and the files of such a run, and where its offenses start and which edits they
have. -/
def summary (configuration : String) : Option (Int × List String × List (Int × List Edit)) := do
  let setting := desk configuration
  let path? := configPath? setting.files fixing
  let (config, _) ← (loadConfig setting.files path?).toOption
  let paths ←
    (setting.files.collect fixing.paths config.exclude (root setting.files path?)).toOption
  let d ← (dispatcher setting config fixing).toOption
  let i ← (d.investigate phraseDocument).toOption
  match config.limit with
  | .int n => return (n, paths, i.offenses.map fun o => (o.start, o.edits))
  | _ => none

theorem document?_phrase :
    Parser.document? (some fun _ => phrase) "a.rb" "x Y" = .ok (some phraseDocument) := by
  have hsize : (Utf8.encode "x Y").length = 3 := by decide +kernel
  simp [hsize, Parser.document?, Document.ofParse, phrase, phraseDocument, ParseTree.toRoot,
    ParseTree.toNode, ParseTree.toNodes, Document.attach, ParseTree.faultPositions,
    ParseTree.isFault, ParseTree.hasFault, ParseTree.anyFault, Source.ofText, bind, Except.bind,
    pure, Except.pure, Except.map]

/-- What such a run finds. -/
structure Phrased (i : Investigation) : Prop where
  edits : i.edits "x Y" = [⟨0, 1, "z"⟩]
  corrected : ∃ f, i.shown 1 "x Y" = [f] ∧ f.offense.edits ≠ []
  left : ∃ f ∈ i.kept "x Y", f.offense.edits = []

theorem phrased {i : Investigation} (h : (i.offenses.map fun o => (o.start, o.edits)) =
    [(0, [⟨0, 1, "z"⟩]), (2, [])]) : Phrased i := by
  obtain ⟨first, rest, hoffenses, hfirst, hrest⟩ := List.map_eq_cons_iff.1 h
  obtain ⟨second, rest, rfl, hsecond, hrest⟩ := List.map_eq_cons_iff.1 hrest
  obtain rfl := List.map_eq_nil_iff.1 hrest
  obtain ⟨hstart, hedits⟩ := Prod.mk.inj hfirst
  obtain ⟨hstart', hedits'⟩ := Prod.mk.inj hsecond
  -- Whatever the ranks of the rules, the first word stands before the second.
  have hkept : i.kept "x Y" = [⟨0, first⟩, ⟨1, second⟩] ∨
      i.kept "x Y" = [⟨1, second⟩, ⟨0, first⟩] := by
    have hsilent : (!Text.occursIn "treecop".toList "x Y".toList) = true := by decide +kernel
    rw [Investigation.kept, Suppression.keep, hsilent, Bool.or_true, if_pos rfl,
      Investigation.ordered, Investigation.findings, hoffenses, Finding.byRule]
    simp only [Finding.number, List.mapIdx_cons, List.mapIdx_nil, mergeSort_pair]
    split
    · exact .inl rfl
    · exact .inr rfl
  have hplace : Finding.byPlace i.ranks (i.kept "x Y") = [⟨0, first⟩, ⟨1, second⟩] := by
    rcases hkept with hkept | hkept <;>
      simp [hkept, Finding.byPlace, mergeSort_pair, Finding.placedBefore, hstart, hstart']
  refine ⟨?_, ⟨⟨0, first⟩, ?_, ?_⟩, ⟨1, second⟩, ?_, hedits'⟩
  · rcases hkept with hkept | hkept <;>
      simp [Investigation.edits, Investigation.fixable, hkept, Offense.correctable, hedits, hedits']
  · rw [Investigation.shown, hplace]
    rfl
  · simp [hedits]
  · rcases hkept with hkept | hkept <;> simp [hkept]

theorem of_summary {configuration : String} {n : Int} (h : summary configuration =
    some (n, ["a.rb"], [(0, [⟨0, 1, "z"⟩]), (2, [])])) :
    ∃ config d reports i, Analyzed (desk configuration) ["a.rb", "--fix", "--format", "json"] fixing
      config d ["a.rb"] reports ∧ config.limit = .int n ∧
      Investigated (desk configuration) d "a.rb" "x Y" i ∧ Phrased i := by
  simp only [summary, Option.bind_eq_bind, Option.bind_eq_some_iff] at h
  obtain ⟨⟨config, logs⟩, hconfig, paths, hpaths, d, hd, i, hi, h⟩ := h
  split at h
  next limit hlimit =>
    obtain ⟨rfl, rfl, hoffenses⟩ : limit = n ∧ paths = ["a.rb"] ∧
        (i.offenses.map fun o => (o.start, o.edits)) = [(0, [⟨0, 1, "z"⟩]), (2, [])] := by
      simpa using h
    have hphrased := phrased hoffenses
    have hfile : (desk configuration).files.find? "a.rb" = some (.file (Utf8.encode "x Y")) := by
      have hnames : Path.names (Path.join "/" "a.rb") = ["", "a.rb"] := by decide +kernel
      simp [desk, Files.find?, hnames, FileTree.follow]
    have hinvestigated : Investigated (desk configuration) d "a.rb" "x Y" i :=
      ⟨_, phraseDocument, hfile, Utf8.decode_encode _, document?_phrase, rfl, toOption_eq_some hi⟩
    have hreport : ∃ report,
        (analyze (desk configuration) d config.limit (corrects fixing) "a.rb").1 = .ok report := by
      have hdecode : Utf8.decode (FileReport.editedBytes i "x Y") = .ok "z Y" := by
        rw [FileReport.editedBytes, hphrased.edits]
        decide +kernel
      have hfit : Edit.Fit "x Y" (i.edits "x Y") := by
        rw [hphrased.edits]
        decide +kernel
      rw [analyze, hfile]
      simp only [Utf8.decode_encode]
      have hrun : FileReport.ofText (desk configuration).parser d config.limit (corrects fixing)
          "a.rb" "x Y" = FileReport.ofInvestigation i config.limit true "a.rb" "x Y" :=
        FileReport.ofText_parsed document?_phrase rfl (toOption_eq_some hi) config.limit true
      rw [hrun, hlimit, FileReport.ofInvestigation_fit (Config.cut_int limit _) hfit, hdecode]
      exact ⟨_, rfl⟩
    obtain ⟨report, hreport⟩ := hreport
    refine ⟨config, d, [report], i, ?_, hlimit, hinvestigated, hphrased⟩
    exact {
      understood := rfl
      configured := ⟨logs, toOption_eq_some hconfig⟩
      dispatched := toOption_eq_some hd
      unlisted := rfl
      parser := rfl
      collected := toOption_eq_some hpaths
      nonempty := by simp
      analyzed := by simp [hreport, bind, Except.bind, pure, Except.pure]
      rendered := ⟨_, rfl⟩
      valid := rfl }
  next => cases h

/-- Without a limit the offense that has no edits keeps the status at 1. -/
theorem run_status_unlimited :
    (run (desk "max_offenses_per_file: 0\n") ["a.rb", "--fix", "--format", "json"]).status.code =
      1 := by
  have hsummary : summary "max_offenses_per_file: 0\n" =
      some (0, ["a.rb"], [(0, [⟨0, 1, "z"⟩]), (2, [])]) := by decide +kernel
  obtain ⟨config, d, reports, i, h, hlimit, hi, hphrased⟩ := of_summary hsummary
  obtain ⟨hcode, -, -, hstatus⟩ := run_status _ _ _ config d ["a.rb"] reports 0 h hlimit
  refine hcode.resolve_left fun hzero => ?_
  -- No report is cut, so the status would say that the second word is resolved.
  have hdone := (hstatus fun path _ text i _ => .inl rfl).1 hzero "a.rb" (by simp)
  obtain ⟨text, i', hi', hedits, -⟩ := hdone
  obtain ⟨rfl, rfl⟩ := hi.unique hi'
  obtain ⟨f, hf, hnone⟩ := hphrased.left
  exact hedits f hf hnone

/-- With a limit of one offense the report is cut before it is judged: the offense that has no edits
is not shown, and the status is 0. -/
theorem run_status_cut :
    ∃ config d reports, Analyzed (desk "max_offenses_per_file: 1\n")
        ["a.rb", "--fix", "--format", "json"] fixing config d ["a.rb"] reports ∧
      config.limit = .int 1 ∧
      (run (desk "max_offenses_per_file: 1\n")
        ["a.rb", "--fix", "--format", "json"]).status.code = 0 ∧
      ¬∀ path ∈ ["a.rb"],
        Done (desk "max_offenses_per_file: 1\n") d (corrects fixing) (·.kept) path := by
  have hsummary : summary "max_offenses_per_file: 1\n" =
      some (1, ["a.rb"], [(0, [⟨0, 1, "z"⟩]), (2, [])]) := by decide +kernel
  obtain ⟨config, d, reports, i, h, hlimit, hi, hphrased⟩ := of_summary hsummary
  refine ⟨config, d, reports, h, hlimit, ?_, ?_⟩
  · have hdone : Done (desk "max_offenses_per_file: 1\n") d (corrects fixing) (·.shown 1)
        "a.rb" := by
      obtain ⟨f, hshown, hedits⟩ := hphrased.corrected
      refine ⟨"x Y", i, hi, ?_, ?_, "z Y", ?_⟩
      · simpa [hshown] using hedits
      · rw [hphrased.edits]
        decide +kernel
      · rw [FileReport.editedBytes, hphrased.edits]
        decide +kernel
    have hclean := (h.clean_iff hlimit).2 (by simpa using hdone)
    rw [h.status, (FileReport.statusOf_eq_clean_iff _ _).2 hclean, Status.code]
  · intro hall
    obtain ⟨text, i', hi', hedits, -⟩ := hall "a.rb" (by simp)
    obtain ⟨rfl, rfl⟩ := hi.unique hi'
    obtain ⟨f, hf, hnone⟩ := hphrased.left
    exact hedits f hf hnone

end CommandLine

end RubyLint
