import RubyLint.Lint
import RubyLint.Proofs.Config
import RubyLint.Proofs.Edit.Correction
import RubyLint.Rule.Scripted

/-!
# Linting with and without correcting

A pass that corrects a text finds what the plain pass finds.  Edits that do not fit together cost
the correction and nothing else; edits that do fit are applied, all of them.  The exception is an
edit that cuts a character: the bytes that are left are no text, and the fault of decoding them
takes the whole report with it.
-/

namespace RubyLint

namespace Investigation

/-- The findings that are not suppressed and carry edits, rule by rule. -/
def fixable (i : Investigation) (text : String) : List Finding :=
  (i.kept text).filter fun f => f.offense.correctable

/-- The edits of the findings that are not suppressed, in the order in which they are composed. -/
def edits (i : Investigation) (text : String) : List Edit :=
  (i.fixable text).flatMap fun f => f.offense.edits

end Investigation

variable {i : Investigation} {text path : String} {parser : Parser} {d : Dispatcher}
variable {document : Document} {limit : Value} {report plain : FileReport}

/-! ## The findings that are corrected -/

/-- The findings of a text that are not suppressed stand rule by rule. -/
theorem Investigation.kept_sorted (i : Investigation) (text : String) :
    (i.kept text).Pairwise fun a b =>
      decide (Finding.rankOf i.ranks a.offense.rule ≤ Finding.rankOf i.ranks b.offense.rule) =
        true := by
  have hordered := List.pairwise_mergeSort
    (trans_of_key fun f : Finding => Finding.rankOf i.ranks f.offense.rule)
    (total_of_key fun f : Finding => Finding.rankOf i.ranks f.offense.rule) i.findings
  apply List.Pairwise.sublist _ hordered
  rw [Investigation.kept, Suppression.keep]
  split
  · exact List.Sublist.refl _
  · exact List.filter_sublist

/-- A correction takes up the findings in the order in which they already stand. -/
theorem Investigation.toApply_kept (i : Investigation) (text : String) :
    Correction.toApply i.ranks (i.kept text) = i.fixable text := by
  rw [Correction.toApply, Finding.byRule, List.mergeSort_of_pairwise (i.kept_sorted text),
    Investigation.fixable]

/-! ## Cutting to a limit -/

/-- A list cut to a limit: 0 is no limit, and a negative limit says how many elements are left out
at the end. -/
def Config.cutTo {α : Type} (n : Int) (xs : List α) : List α :=
  if n = 0 ∨ (xs.length : Int) ≤ n then xs
  else if 0 < n then xs.take n.toNat
  else xs.take (xs.length - (-n).toNat)

theorem Config.cut_int {α : Type} (n : Int) (xs : List α) :
    Config.cut (.int n) xs = .ok (Config.cutTo n xs) := by
  rw [Config.cut, Config.cutTo]
  by_cases hzero : n = 0
  · simp [hzero, Value.truthy]
  have htruthy : (!(Value.int n).truthy) = false := by simp [Value.truthy, hzero]
  rw [htruthy, if_neg Bool.false_ne_true]
  by_cases hfew : (xs.length : Int) ≤ n
  · have hwhole : n = 0 ∨ (xs.length : Int) ≤ n := .inr hfew
    simp only [if_pos hwhole, if_neg (Int.not_lt.2 hfew)]
  have hcut : ¬(n = 0 ∨ (xs.length : Int) ≤ n) := not_or.2 ⟨hzero, hfew⟩
  simp only [if_neg hcut, if_pos (Int.not_le.1 hfew), Indexing.sliceTo, Indexing.cut]
  by_cases hpos : 0 < n
  · have hlength : min n.toNat xs.length = n.toNat := Nat.min_eq_left (by omega)
    rw [if_pos hpos, if_neg (by omega), hlength]
  · have hlength : (n + xs.length).toNat = xs.length - (-n).toNat := by omega
    rw [if_neg hpos, if_pos (by omega), hlength]

theorem Config.mem_of_mem_cutTo {α : Type} {n : Int} {xs : List α} {x : α}
    (h : x ∈ Config.cutTo n xs) : x ∈ xs := by
  rw [Config.cutTo] at h
  split at h
  · exact h
  split at h
  · exact List.mem_of_mem_take h
  · exact List.mem_of_mem_take h

/-! ## One file -/

/-- Under a tabular configuration every document can be investigated. -/
theorem Dispatcher.exists_investigation (hconfig : ∀ c ∈ d.config, c.Tabular)
    (document : Document) : ∃ i, d.investigate document = .ok i := by
  choose settings logs hcontext hinfo using
    fun rule : Rule Memory => exists_context_of_tabular hconfig document rule
  have hentries : (fun rule : Rule Memory => do
      return (rule.info.id, ← context d.config document rule) : Rule Memory → Except ValueFault _) =
      fun rule => pure (rule.info.id, settings rule, logs rule) := by
    funext rule
    rw [hcontext]
    rfl
  rw [investigate, start, hentries, List.mapM_pure]
  exact ⟨_, rfl⟩

namespace FileReport

/-- A text that parses without faults is reported as investigated. -/
theorem ofText_parsed (hparse : parser.document? path text = .ok (some document))
    (hfaults : document.faults = []) (hi : d.investigate document = .ok i) (limit : Value)
    (fix : Bool) : ofText parser d limit fix path text = ofInvestigation i limit fix path text := by
  simp only [ofText, hparse, hfaults, hi]

/-- The report of an investigation that shows some findings and corrects nothing. -/
def investigated (i : Investigation) (path text : String) (shown : List Finding) : FileReport :=
  { path, text, offenses := shown, failures := i.failures }

/-- The plain report of an investigation shows the findings by place, cut to the limit. -/
theorem ofInvestigation_false (i : Investigation) (limit : Value) (path text : String) :
    (ofInvestigation i limit false path text).1 =
      ((Config.cut limit (Finding.byPlace i.ranks (i.kept text))).mapError .value).map
        (investigated i path text) := by
  rw [ofInvestigation]
  simp only [Bool.false_eq_true, if_false, withOffenses, Except.bind, bind, pure, Except.pure]
  cases Config.cut limit (Finding.byPlace i.ranks (i.kept text)) <;> rfl

/-- The report of a pass that corrects shows the same findings. -/
theorem ofInvestigation_true {shown : List Finding}
    (hshown : Config.cut limit (Finding.byPlace i.ranks (i.kept text)) = .ok shown)
    (path : String) :
    (ofInvestigation i limit true path text).1 =
      ((investigated i path text []).correct i.ranks (i.kept text)).1.map
        fun r => { r with offenses := shown } := by
  rw [ofInvestigation]
  simp only [if_true, withOffenses, hshown]
  rw [show ({ path, text, failures := i.failures } : FileReport) = investigated i path text []
    from rfl]
  generalize (investigated i path text []).correct i.ranks (i.kept text) = corrected
  obtain ⟨result, logs⟩ := corrected
  cases result <;> rfl

theorem correct_of_ok (report : FileReport) {ranks : Finding.Ranks} {findings : List Finding}
    {correction : Correction}
    (h : Correction.ofFindings ranks report.text findings = .ok correction) :
    (report.correct ranks findings).1 = .ok { report with
      applied := correction.applied
      corrected := if correction.text = report.text then none else some correction.text } := by
  simp only [correct, h, beq_iff_eq]

theorem correct_of_edit (report : FileReport) {ranks : Finding.Ranks} {findings : List Finding}
    {fault : EditFault}
    (h : Correction.ofFindings ranks report.text findings = .error (.edit fault)) :
    (report.correct ranks findings).1 = .ok { report with rejection := some fault.message } := by
  simp only [correct, h]

theorem correct_of_undecodable (report : FileReport) {ranks : Finding.Ranks}
    {findings : List Finding} {error : Utf8.DecodeError}
    (h : Correction.ofFindings ranks report.text findings = .error (.undecodable error)) :
    (report.correct ranks findings).1 = .error (.undecodable error) := by
  simp only [correct, h]

def editedBytes (i : Investigation) (text : String) : List UInt8 :=
  Edit.positional (Utf8.encode text) (i.edits text)

/-- Edits that do not fit together reject the correction and change nothing else. -/
theorem ofInvestigation_unfit {shown : List Finding}
    (hshown : Config.cut limit (Finding.byPlace i.ranks (i.kept text)) = .ok shown)
    (hunfit : ¬Edit.Fit text (i.edits text)) (path : String) :
    ∃ fault, (Correction.script text (i.fixable text)).check = .error fault ∧
      (ofInvestigation i limit true path text).1 =
        .ok { investigated i path text shown with rejection := some fault.message } := by
  rw [Investigation.edits, ← i.toApply_kept] at hunfit
  obtain ⟨fault, hcheck, hfault⟩ := Correction.ofFindings_unfit hunfit
  rw [i.toApply_kept] at hcheck
  refine ⟨fault, hcheck, ?_⟩
  rw [ofInvestigation_true hshown, correct_of_edit (investigated i path text []) hfault]
  rfl

/-- Edits that fit together are applied; only the decoding of what they leave can fail. -/
theorem ofInvestigation_fit {shown : List Finding}
    (hshown : Config.cut limit (Finding.byPlace i.ranks (i.kept text)) = .ok shown)
    (hfit : Edit.Fit text (i.edits text)) (path : String) :
    (ofInvestigation i limit true path text).1 =
      match Utf8.decode (editedBytes i text) with
      | .ok corrected => .ok { investigated i path text shown with
          applied := i.fixable text
          corrected := if corrected = text then none else some corrected }
      | .error error => .error (.undecodable error) := by
  rw [Investigation.edits, ← i.toApply_kept] at hfit
  have houtcome := Correction.ofFindings_fit hfit
  rw [i.toApply_kept, ← Investigation.edits, ← editedBytes] at houtcome
  rw [ofInvestigation_true hshown]
  cases hdecode : Utf8.decode (editedBytes i text) with
  | ok corrected =>
      rw [hdecode] at houtcome
      rw [correct_of_ok (investigated i path text []) houtcome]
      rfl
  | error error =>
      rw [hdecode] at houtcome
      rw [correct_of_undecodable (investigated i path text []) houtcome]
      rfl

/-- A text that parses is reported under every tabular configuration with a whole number as its
limit, and a pass that corrects reports the same offenses, failures and error.  If the edits do not
fit together, the report says why and nothing is corrected; if they do and leave a text, all
findings with edits are applied.  They leave one whenever no edit cuts a character.  If they do not,
the pass breaks off and there is no report. -/
theorem ofText_fix (parser : Parser) (d : Dispatcher) (limit : Value) (path text : String)
    (document : Document) (hparse : parser.document? path text = .ok (some document))
    (hfaults : document.faults = []) (hconfig : ∀ c ∈ d.config, c.Tabular) :
    ∃ i, d.investigate document = .ok i ∧
      (∀ n, limit = .int n → ∃ plain, (ofText parser d limit false path text).1 = .ok plain) ∧
      ∀ plain, (ofText parser d limit false path text).1 = .ok plain →
        (plain.corrected = none ∧ plain.applied = [] ∧ plain.error = none ∧
          plain.rejection = none) ∧
        (¬Edit.Fit text (i.edits text) → ∃ fault,
          (Correction.script text (i.fixable text)).check = .error fault ∧
          (ofText parser d limit true path text).1 =
            .ok { plain with rejection := some fault.message }) ∧
        (Edit.Fit text (i.edits text) →
          (∀ corrected, Utf8.decode (editedBytes i text) = .ok corrected →
            (ofText parser d limit true path text).1 = .ok { plain with
              applied := i.fixable text
              corrected := if corrected = text then none else some corrected }) ∧
          ((∀ e ∈ i.edits text,
              Utf8.Between text e.start.toNat ∧ Utf8.Between text e.stop.toNat) →
            ∃ corrected, Utf8.decode (editedBytes i text) = .ok corrected) ∧
          (∀ error, Utf8.decode (editedBytes i text) = .error error →
            (ofText parser d limit true path text).1 = .error (.undecodable error))) := by
  obtain ⟨i, hi⟩ := d.exists_investigation hconfig document
  have hrun : ∀ fix, ofText parser d limit fix path text = ofInvestigation i limit fix path text :=
    ofText_parsed hparse hfaults hi limit
  refine ⟨i, hi, ?_, ?_⟩
  · intro n hn
    rw [hrun, ofInvestigation_false, hn, Config.cut_int]
    exact ⟨_, rfl⟩
  intro plain hplain
  rw [hrun, ofInvestigation_false] at hplain
  rw [hrun]
  obtain ⟨shown, hshown, rfl⟩ := map_eq_ok hplain
  replace hshown := mapError_eq_ok hshown
  refine ⟨⟨rfl, rfl, rfl, rfl⟩, ?_, ?_⟩
  · intro hunfit
    exact ofInvestigation_unfit hshown hunfit path
  · intro hfit
    rw [ofInvestigation_fit hshown hfit path]
    refine ⟨?_, hfit.exists_decode, ?_⟩
    · intro corrected hcorrected
      rw [hcorrected]
    · intro error herror
      rw [herror]

/-! ## A text of one word -/

def word (text : String) : ParseTree :=
  let size := (Utf8.encode text).length
  ⟨"program", 0, size, true, none,
    [⟨"identifier", 0, size, true, none, [], false, false, 0, 0⟩], false, false, 0, 0⟩

def wordDocument (path text : String) : Document :=
  let size := (Utf8.encode text).length
  ⟨Source.ofText path text, ⟨"program", 0, size, true, none,
    [⟨"identifier", 0, size, true, none, []⟩]⟩, []⟩

theorem document?_word (path text : String) :
    Parser.document? (some word) path text = .ok (some (wordDocument path text)) := by
  have hsize : ¬((Utf8.encode text).length : Int) < 0 := by omega
  simp [hsize, Parser.document?, Document.ofParse, word, wordDocument, ParseTree.toRoot,
    ParseTree.toNode, ParseTree.toNodes, Document.attach, ParseTree.faultPositions,
    ParseTree.isFault, ParseTree.hasFault, ParseTree.anyFault, Source.ofText, bind, Except.bind,
    pure, Except.pure, Except.map]

/-- A dispatcher of one rule, which reports every identifier with the same edits. -/
def editing (edits : List Edit) : Dispatcher :=
  ⟨.ofEntries [⟨.scripted
    { id := "editor", category := "test", kinds := ["identifier"], autocorrect := true }
    [.report ⟨.node, false, edits, some "seen", none, .null, []⟩] none, none⟩], some .standard,
    none⟩

def wordEdits (edits : List Edit) (text : String) : Option (List Edit) :=
  ((editing edits).investigate (wordDocument "a.rb" text)).toOption.map fun i => i.edits text

/-- Two insertions at one offset and a replacement that starts there are applied. -/
theorem ofText_fix_word :
    ∃ plain, (ofText (some word) (editing [⟨0, 1, "y"⟩, ⟨0, 0, "x"⟩, ⟨0, 0, "é"⟩]) (.int 500) false
        "a.rb" "a").1 = .ok plain ∧
      ∃ applied, (ofText (some word) (editing [⟨0, 1, "y"⟩, ⟨0, 0, "x"⟩, ⟨0, 0, "é"⟩]) (.int 500)
        true "a.rb" "a").1 = .ok { plain with applied, corrected := some "xéy" } := by
  obtain ⟨i, hi, hlimit, hplain⟩ := ofText_fix (some word)
    (editing [⟨0, 1, "y"⟩, ⟨0, 0, "x"⟩, ⟨0, 0, "é"⟩]) (.int 500) "a.rb" "a"
    (wordDocument "a.rb" "a") (document?_word "a.rb" "a") rfl
    (by simpa [editing] using Config.standard_tabular)
  have hword : wordEdits [⟨0, 1, "y"⟩, ⟨0, 0, "x"⟩, ⟨0, 0, "é"⟩] "a" =
      some [⟨0, 1, "y"⟩, ⟨0, 0, "x"⟩, ⟨0, 0, "é"⟩] := by
    decide +kernel
  rw [wordEdits, hi] at hword
  have hedits : i.edits "a" = [⟨0, 1, "y"⟩, ⟨0, 0, "x"⟩, ⟨0, 0, "é"⟩] := Option.some.inj hword
  obtain ⟨plain, hrun⟩ := hlimit 500 rfl
  obtain ⟨-, -, hfit⟩ := hplain plain hrun
  have hdecode : Utf8.decode (editedBytes i "a") = .ok "xéy" := by
    rw [editedBytes, hedits]
    decide +kernel
  refine ⟨plain, hrun, i.fixable "a", ?_⟩
  rw [hedits] at hfit
  exact (hfit (by decide +kernel)).1 "xéy" hdecode

/-- The offset of the bytes that are no text, if a pass broke off at them. -/
def brokenAt : Except RunFault FileReport → Option Nat
  | .error (.undecodable error) => some error.offset
  | _ => none

/-- An edit of the second byte of a character leaves bytes that are no text.  The plain pass reports
the offense; the pass that corrects reports nothing. -/
theorem ofText_fix_cut :
    (∃ plain, (ofText (some word) (editing [⟨1, 2, "x"⟩]) (.int 500) false "a.rb" "é").1 =
      .ok plain ∧ plain.offenses.length = 1) ∧
    ∃ error, (ofText (some word) (editing [⟨1, 2, "x"⟩]) (.int 500) true "a.rb" "é").1 =
      .error (.undecodable error) := by
  constructor
  · have hplain : (ofText (some word) (editing [⟨1, 2, "x"⟩]) (.int 500) false "a.rb"
        "é").1.toOption.map (·.offenses.length) = some 1 := by
      decide +kernel
    cases hrun : (ofText (some word) (editing [⟨1, 2, "x"⟩]) (.int 500) false "a.rb" "é").1 with
    | error fault =>
        rw [hrun] at hplain
        nomatch hplain
    | ok plain =>
        rw [hrun] at hplain
        exact ⟨plain, rfl, Option.some.inj hplain⟩
  · have hbroken : brokenAt (ofText (some word) (editing [⟨1, 2, "x"⟩]) (.int 500) true "a.rb"
        "é").1 = some 0 := by
      decide +kernel
    revert hbroken
    rw [brokenAt.eq_def]
    split
    · rename_i error hrun
      exact fun _ => ⟨error, hrun⟩
    · nofun

end FileReport

end RubyLint
