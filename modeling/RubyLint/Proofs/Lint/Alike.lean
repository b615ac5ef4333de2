import RubyLint.Proofs.Lint

/-!
# The plain pass and the report of a file

A text is linted and corrected in two places: by the plain pass, which returns a correction or a
fault, and for the report of a file, which keeps faults as entries of its own.  On a text that
parses the two agree on every outcome.  They part at syntax errors: the report gives the place of
the first one and no rule runs, while the plain pass goes on with the tree that it has.
-/

namespace RubyLint

variable {i : Investigation} {text path : String} {parser : Parser} {d : Dispatcher}
variable {document : Document} {limit : Value}

/-- A limit that can be applied to every list of findings. -/
def Config.Cuts (limit : Value) : Prop :=
  ∀ found : List Finding, ∃ shown, Config.cut limit found = .ok shown

theorem Config.cuts_int (n : Int) : Config.Cuts (.int n) :=
  fun found => ⟨Config.cutTo n found, Config.cut_int n found⟩

/-- A text is corrected in the plain pass by the edits of the findings that are not suppressed. -/
theorem Lint.ofText_parsed (hparse : parser.document? path text = .ok (some document))
    (hi : d.investigate document = .ok i) :
    Lint.ofText parser d path text =
      match Correction.ofFindings i.ranks text (i.kept text) with
      | .ok correction => .ok ⟨i, i.kept text, correction⟩
      | .error (.edit fault) => .error (.edits i.findings fault)
      | .error (.undecodable error) => .error (.run (.undecodable error)) := by
  simp only [Lint.ofText, hparse, hi, Except.mapError, bind, Except.bind]
  rfl

/-- A text that cannot be investigated cannot be corrected. -/
theorem Lint.ofText_uninvestigated {fault : ValueFault}
    (hparse : parser.document? path text = .ok (some document))
    (hi : d.investigate document = .error fault) :
    Lint.ofText parser d path text = .error (.run (.value fault)) := by
  simp only [Lint.ofText, hparse, hi, Except.mapError, bind, Except.bind]

/-- The place of the first syntax error is all that the report of a text says about it. -/
theorem FileReport.ofText_faulty {line column : Int} {rest : List (Int × Int)}
    (hparse : parser.document? path text = .ok (some document))
    (hfaults : document.faults = (line, column) :: rest) (limit : Value) (fix : Bool) :
    (FileReport.ofText parser d limit fix path text).1 =
      .ok { path, text, error := some s!"Syntax error at {line}:{column}" } := by
  simp only [FileReport.ofText, hparse, hfaults]

/-- Outcomes of the plain pass and of the report of a text that say the same. -/
inductive Alike (path text : String) :
    Except LintFault Lint → Except RunFault FileReport → Prop where
  | corrected {lint : Lint} {report : FileReport} (herror : report.error = none)
      (hrejection : report.rejection = none)
      (hcorrected : report.corrected =
        if lint.correction.text = text then none else some lint.correction.text)
      (happlied : report.applied = lint.correction.applied)
      (hfailures : report.failures = lint.investigation.failures) :
      Alike path text (.ok lint) (.ok report)
  | rejected {emitted : List Finding} {fault : EditFault} {report : FileReport}
      (herror : report.error = none) (hrejection : report.rejection = some fault.message) :
      Alike path text (.error (.edits emitted fault)) (.ok report)
  | unparsed {report : FileReport}
      (herror : report.error = some "No ruby parser available")
      (hrejection : report.rejection = none) :
      Alike path text (.error (.noParser path)) (.ok report)
  | broken (fault : RunFault) : Alike path text (.error (.run fault)) (.error fault)

namespace Alike

/-- What an investigation found is corrected alike. -/
theorem of_investigation (hparse : parser.document? path text = .ok (some document))
    (hfaults : document.faults = []) (hi : d.investigate document = .ok i)
    (hlimit : Config.Cuts limit) :
    Alike path text (Lint.ofText parser d path text)
      (FileReport.ofText parser d limit true path text).1 := by
  obtain ⟨shown, hshown⟩ := hlimit (Finding.byPlace i.ranks (i.kept text))
  rw [Lint.ofText_parsed hparse hi, FileReport.ofText_parsed hparse hfaults hi,
    FileReport.ofInvestigation_true hshown]
  cases hcorrection : Correction.ofFindings i.ranks text (i.kept text) with
  | ok correction =>
      rw [FileReport.correct_of_ok (FileReport.investigated i path text []) hcorrection]
      exact .corrected rfl rfl rfl rfl rfl
  | error fault =>
      cases fault with
      | edit fault =>
          rw [FileReport.correct_of_edit (FileReport.investigated i path text []) hcorrection]
          exact .rejected rfl rfl
      | undecodable error =>
          rw [FileReport.correct_of_undecodable (FileReport.investigated i path text [])
            hcorrection]
          exact .broken _

/-- Without syntax errors the two passes come to outcomes that say the same. -/
theorem of_text (parser : Parser) (d : Dispatcher) (path text : String)
    (hlimit : Config.Cuts limit)
    (hfaults : ∀ document, parser.document? path text = .ok (some document) →
      document.faults = []) :
    Alike path text (Lint.ofText parser d path text)
      (FileReport.ofText parser d limit true path text).1 := by
  cases hparse : parser.document? path text with
  | error fault =>
      simp only [Lint.ofText, FileReport.ofText, hparse]
      exact .broken (.tree fault)
  | ok parsed =>
      cases parsed with
      | none =>
          simp only [Lint.ofText, FileReport.ofText, hparse]
          exact .unparsed rfl rfl
      | some document =>
          cases hi : d.investigate document with
          | ok i => exact of_investigation hparse (hfaults document hparse) hi hlimit
          | error fault =>
              rw [Lint.ofText_uninvestigated hparse hi]
              simp only [FileReport.ofText, hparse, hfaults document hparse, hi]
              exact .broken (.value fault)

/-- What a report says about a corrected text settles that text. -/
theorem eq_of_changed_eq {corrected corrected' : String}
    (h : (if corrected = text then none else some corrected) =
      if corrected' = text then none else some corrected') : corrected = corrected' := by
  by_cases hsame : corrected = text
  · by_cases hsame' : corrected' = text
    · exact hsame.trans hsame'.symm
    · simp [hsame, hsame'] at h
  · by_cases hsame' : corrected' = text
    · simp [hsame, hsame'] at h
    · simpa [hsame, hsame'] using h

variable {plain : Except LintFault Lint} {reported : Except RunFault FileReport}

/-- A text is corrected in the plain pass exactly if its report has no error and no rejection. -/
theorem corrected_iff (h : Alike path text plain reported) (corrected : String)
    (applied : List Finding) (failures : List Failure) :
    (∃ lint, plain = .ok lint ∧ lint.correction = ⟨corrected, applied⟩ ∧
        lint.investigation.failures = failures) ↔
      ∃ report, reported = .ok report ∧ report.error = none ∧ report.rejection = none ∧
        report.corrected = (if corrected = text then none else some corrected) ∧
        report.applied = applied ∧ report.failures = failures := by
  cases h with
  | @corrected lint report herror hrejection hcorrected happlied hfailures =>
      constructor
      · rintro ⟨_, ⟨⟩, hcorrection, rfl⟩
        rw [hcorrection] at hcorrected happlied
        exact ⟨report, rfl, herror, hrejection, hcorrected, happlied, hfailures⟩
      · rintro ⟨_, ⟨⟩, -, -, hcorrected', rfl, rfl⟩
        refine ⟨lint, rfl, ?_, hfailures.symm⟩
        have htext : lint.correction.text = corrected :=
          eq_of_changed_eq (hcorrected.symm.trans hcorrected')
        rw [← htext, happlied]
  | rejected herror hrejection => simp [hrejection]
  | unparsed herror hrejection => simp [herror]
  | broken fault => simp

/-- The plain pass ends with a fault of the edits exactly if the report has its message. -/
theorem rejected_iff (h : Alike path text plain reported) (message : String) :
    (∃ emitted fault, plain = .error (.edits emitted fault) ∧ fault.message = message) ↔
      ∃ report, reported = .ok report ∧ report.rejection = some message := by
  cases h with
  | corrected herror hrejection hcorrected happlied hfailures => simp [hrejection]
  | rejected herror hrejection => simp [hrejection]
  | unparsed herror hrejection => simp [hrejection]
  | broken fault => simp

/-- The plain pass finds no parser exactly if the report has an error. -/
theorem unparsed_iff (h : Alike path text plain reported) :
    plain = .error (.noParser path) ↔
      ∃ report, reported = .ok report ∧ report.error = some "No ruby parser available" := by
  cases h with
  | corrected herror hrejection hcorrected happlied hfailures => simp [herror]
  | rejected herror hrejection => simp [herror]
  | unparsed herror hrejection => simp [herror]
  | broken fault => simp

/-- The two passes break off at the same fault. -/
theorem broken_iff (h : Alike path text plain reported) (fault : RunFault) :
    plain = .error (.run fault) ↔ reported = .error fault := by
  cases h <;> simp

end Alike

/-- A text without syntax errors is corrected by the plain pass exactly if the report of it has
neither an error nor a rejection, and then to the same text, by the same findings and with the same
failures; the plain pass ends with a fault of the edits exactly if the report has its message.  A
missing parser and every other fault are also met on both sides.  The report of a text with a syntax
error only says where the error is, while the plain pass corrects what it finds in the tree. -/
theorem Lint.ofText_alike (parser : Parser) (d : Dispatcher) (limit : Value) (path text : String)
    (hlimit : Config.Cuts limit) :
    ((∀ document, parser.document? path text = .ok (some document) → document.faults = []) →
      (∀ corrected applied failures,
        (∃ lint, Lint.ofText parser d path text = .ok lint ∧
            lint.correction = ⟨corrected, applied⟩ ∧ lint.investigation.failures = failures) ↔
          ∃ report, (FileReport.ofText parser d limit true path text).1 = .ok report ∧
            report.error = none ∧ report.rejection = none ∧
            report.corrected = (if corrected = text then none else some corrected) ∧
            report.applied = applied ∧ report.failures = failures) ∧
      (∀ message,
        (∃ emitted fault, Lint.ofText parser d path text = .error (.edits emitted fault) ∧
            fault.message = message) ↔
          ∃ report, (FileReport.ofText parser d limit true path text).1 = .ok report ∧
            report.rejection = some message) ∧
      (Lint.ofText parser d path text = .error (.noParser path) ↔
        ∃ report, (FileReport.ofText parser d limit true path text).1 = .ok report ∧
          report.error = some "No ruby parser available") ∧
      ∀ fault, Lint.ofText parser d path text = .error (.run fault) ↔
        (FileReport.ofText parser d limit true path text).1 = .error fault) ∧
    ∀ document line column rest, parser.document? path text = .ok (some document) →
      document.faults = (line, column) :: rest →
      (FileReport.ofText parser d limit true path text).1 =
        .ok { path, text, error := some s!"Syntax error at {line}:{column}" } ∧
      ∀ i, d.investigate document = .ok i →
        Lint.ofText parser d path text =
          match Correction.ofFindings i.ranks text (i.kept text) with
          | .ok correction => .ok ⟨i, i.kept text, correction⟩
          | .error (.edit fault) => .error (.edits i.findings fault)
          | .error (.undecodable error) => .error (.run (.undecodable error)) := by
  constructor
  · intro hfaults
    have halike := Alike.of_text parser d path text hlimit hfaults
    exact ⟨halike.corrected_iff, halike.rejected_iff, halike.unparsed_iff, halike.broken_iff⟩
  · intro document line column rest hparse hfaults
    refine ⟨FileReport.ofText_faulty hparse hfaults limit true, fun i hi => ?_⟩
    exact Lint.ofText_parsed hparse hi

/-! ## A word and what a parser stumbles over -/

/-- The tree of a text whose first character is an identifier and whose second one is an error. -/
def stumble (_ : String) : ParseTree :=
  ⟨"program", 0, 2, true, none,
    [⟨"identifier", 0, 1, true, none, [], false, false, 0, 0⟩,
      ⟨"ERROR", 1, 2, true, none, [], true, false, 0, 1⟩], false, false, 0, 0⟩

/-- What the plain pass makes of a text. -/
def plainText (parser : Parser) (d : Dispatcher) (text : String) : Option String :=
  (Lint.ofText parser d "a.rb" text).toOption.map fun lint => lint.correction.text

theorem of_plainText {text corrected : String} (h : plainText parser d text = some corrected) :
    ∃ lint, Lint.ofText parser d "a.rb" text = .ok lint ∧ lint.correction.text = corrected := by
  obtain ⟨lint, hlint, hcorrected⟩ := Option.map_eq_some_iff.1 h
  exact ⟨lint, toOption_eq_some hlint, hcorrected⟩

/-- The report of a word has the corrected text of the plain pass; the report of a text that a
parser stumbles over has the place where it does. -/
theorem Lint.ofText_alike_word :
    (∃ report, (FileReport.ofText (some FileReport.word) (FileReport.editing [⟨0, 1, "y"⟩])
        (.int 500) true "a.rb" "a").1 = .ok report ∧ report.error = none ∧
      report.corrected = some "y") ∧
    (FileReport.ofText (some stumble) (FileReport.editing [⟨0, 1, "y"⟩]) (.int 500) true "a.rb"
      "a)").1 = .ok { path := "a.rb", text := "a)", error := some "Syntax error at 1:1" } := by
  constructor
  · have hcorrected : plainText (some FileReport.word) (FileReport.editing [⟨0, 1, "y"⟩]) "a" =
        some "y" := by
      decide +kernel
    obtain ⟨lint, hlint, htext⟩ := of_plainText hcorrected
    have hfaults : ∀ document, Parser.document? (some FileReport.word) "a.rb" "a" =
        .ok (some document) → document.faults = [] := by
      intro document hdocument
      rw [FileReport.document?_word] at hdocument
      obtain rfl := Option.some.inj (Except.ok.inj hdocument)
      rfl
    obtain ⟨hiff, -⟩ := (Lint.ofText_alike (some FileReport.word)
      (FileReport.editing [⟨0, 1, "y"⟩]) (.int 500) "a.rb" "a" (Config.cuts_int 500)).1 hfaults
    obtain ⟨report, hreport, herror, -, hchanged, -⟩ :=
      (hiff lint.correction.text lint.correction.applied lint.investigation.failures).1
        ⟨lint, hlint, rfl, rfl⟩
    refine ⟨report, hreport, herror, ?_⟩
    rw [hchanged, htext]
    decide
  · have hparse : (Parser.document? (some stumble) "a.rb" "a)").toOption.map
        (·.map (·.faults)) = some (some [(1, 1)]) := by
      decide +kernel
    obtain ⟨parsed, hparsed, hfaulty⟩ := Option.map_eq_some_iff.1 hparse
    obtain ⟨document, rfl, hfaults⟩ := Option.map_eq_some_iff.1 hfaulty
    have hdocument := toOption_eq_some hparsed
    exact ((Lint.ofText_alike (some stumble) (FileReport.editing [⟨0, 1, "y"⟩]) (.int 500) "a.rb"
      "a)" (Config.cuts_int 500)).2 document 1 1 [] hdocument hfaults).1

/-- The plain pass corrects a text that a parser stumbles over, and no report without an error has
the corrected text. -/
theorem Lint.ofText_alike_stumble :
    ∃ applied failures,
      (∃ lint, Lint.ofText (some stumble) (FileReport.editing [⟨0, 1, "y"⟩]) "a.rb" "a)" =
          .ok lint ∧
        lint.correction = ⟨"y)", applied⟩ ∧ lint.investigation.failures = failures) ∧
      ¬∃ report, (FileReport.ofText (some stumble) (FileReport.editing [⟨0, 1, "y"⟩]) (.int 500)
          true "a.rb" "a)").1 = .ok report ∧
        report.error = none ∧ report.rejection = none ∧ report.corrected = some "y)" ∧
        report.applied = applied ∧ report.failures = failures := by
  have hcorrected : plainText (some stumble) (FileReport.editing [⟨0, 1, "y"⟩]) "a)" =
      some "y)" := by
    decide +kernel
  have herror : (FileReport.ofText (some stumble) (FileReport.editing [⟨0, 1, "y"⟩]) (.int 500)
      true "a.rb" "a)").1.toOption.map (·.error) = some (some "Syntax error at 1:1") := by
    decide +kernel
  obtain ⟨lint, hlint, htext⟩ := of_plainText hcorrected
  refine ⟨lint.correction.applied, lint.investigation.failures,
    ⟨lint, hlint, by rw [← htext], rfl⟩, ?_⟩
  rintro ⟨report, hreport, hnone, -⟩
  rw [hreport] at herror
  have hsome : report.error = some "Syntax error at 1:1" := Option.some.inj herror
  cases hnone.symm.trans hsome

end RubyLint
