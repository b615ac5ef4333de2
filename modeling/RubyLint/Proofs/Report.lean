import RubyLint.Proofs.Dispatch.Run
import RubyLint.Proofs.Registry
import RubyLint.Proofs.Rules.Composition
import RubyLint.Proofs.Schema
import RubyLint.Proofs.Text.LineIndex
import RubyLint.Report

/-!
# Reports fit their schema

A report fits its schema whatever texts its files have: offsets beyond a text, and offsets in a file
without a text, stand for places of it, and every place is on a line.  All that is asked is that its
offenses can be shown, that its failures are such as runs record, and that its times are not
negative; what the shipped rules report can be shown under every configuration.
-/

namespace RubyLint

/-- A failure that a run recorded, of any rules on any document with the lines of its text. -/
def Failure.Recorded (f : Failure) : Prop :=
  ∃ (μ : Type) (_ : Inhabited μ) (d : Dispatcher μ) (document : Document) (i : Investigation),
    document.lines = LineIndex.ofBytes document.data ∧ d.investigate document = .ok i ∧
      f ∈ i.failures

theorem Failure.Recorded.position {f : Failure} (h : f.Recorded) : 1 ≤ f.line ∧ 0 ≤ f.column := by
  obtain ⟨μ, _, d, document, i, hlines, hi, hf⟩ := h
  obtain ⟨rule, n, fault, rfl⟩ := Dispatcher.exists_failureAt hi f hf
  have hline := LineIndex.one_le_lineOf document.data n.start
  rw [← hlines] at hline
  exact ⟨Int.ofNat_le.2 hline, Int.natCast_nonneg _⟩

def Value.NonNegative : Value → Prop
  | .int n => 0 ≤ n
  | .float x => 0 ≤ x
  | _ => False

namespace Report

open Schema

def timeNames : List String :=
  ["parse_ms", "rules_ms", "total_ms"]

/-- Measurements that have the times and nothing else, none of them negative. -/
structure Timed (metrics : Table) : Prop where
  times : ∀ name ∈ timeNames, ∃ time, (Value.str name, time) ∈ metrics
  entries : ∀ entry ∈ metrics, (∃ name ∈ timeNames, entry.1 = .str name) ∧ entry.2.NonNegative

theorem measured_timed {parse rules total : Float} (hparse : 0 ≤ parse) (hrules : 0 ≤ rules)
    (htotal : 0 ≤ total) : Timed (measured parse rules total) := by
  refine ⟨by simp [timeNames, measured], ?_⟩
  simp [timeNames, measured, Value.NonNegative, hparse, hrules, htotal]

/-! ## Parts of a report -/

theorem accepts_text (text : String) : textSchema.Accepts (.str text) :=
  .plain rfl trivial

theorem accepts_count {least n : Int} (h : least ≤ n) : (countSchema least).Accepts (.int n) :=
  .plain rfl (decide_eq_false (by omega))

theorem accepts_time {time : Value} (h : time.NonNegative) : timeSchema.Accepts time := by
  cases time with
  | int n => exact .plain rfl (decide_eq_false (Int.not_lt.2 h))
  | float x => exact .plain rfl (decide_eq_false (Number.not_lt_zero h))
  | _ => nomatch h

/-- A mapping of named fields fits if each of them does and the required ones are there. -/
theorem accepts_named {fields : List (String × Schema)} {required : List String}
    {named : List (String × Value)} (hnames : (fields.map (·.1)).Nodup)
    (hrequired : ∀ name ∈ required, name ∈ named.map (·.1))
    (hnamed : ∀ entry ∈ named, ∃ schema, fields.lookup entry.1 = some schema ∧
      schema.Accepts entry.2) :
    (Schema.record fields required).Accepts (record named) := by
  refine accepts_record hnames (fun name hname => ?_) ?_
  · obtain ⟨entry, hentry, rfl⟩ := List.mem_map.1 (hrequired name hname)
    exact ⟨entry.2, List.mem_map_of_mem hentry⟩
  · rw [List.forall_mem_map]
    intro entry hentry
    obtain ⟨schema, hschema, haccepts⟩ := hnamed entry hentry
    obtain ⟨front, back, rfl, -⟩ := List.lookup_eq_some_iff.1 hschema
    exact ⟨_, List.mem_append_right front List.mem_cons_self, rfl, haccepts⟩

/-- Every range has a line and a column at both ends, whether or not they are offsets of the
text. -/
theorem accepts_range (data : List UInt8) (start stop : Int) :
    rangeSchema.Accepts (range (LineIndex.ofBytes data) start stop) := by
  have hline : ∀ offset,
      (countSchema 1).Accepts (.int ((LineIndex.ofBytes data).position offset).1) :=
    fun offset => accepts_count (Int.ofNat_le.2 (LineIndex.one_le_lineOf data offset))
  have hcolumn : ∀ offset,
      (countSchema 0).Accepts (.int ((LineIndex.ofBytes data).position offset).2) :=
    fun offset => accepts_count (Int.natCast_nonneg _)
  refine accepts_named (by decide) (by simp) ?_
  simp only [List.forall_mem_cons]
  exact ⟨⟨_, rfl, hline start⟩, ⟨_, rfl, hcolumn start⟩, ⟨_, rfl, hline stop⟩,
    ⟨_, rfl, hcolumn stop⟩, nofun⟩

theorem accepts_edit (data : List UInt8) {e : Edit} (h : e.NonNegative) :
    editSchema.Accepts (edit (LineIndex.ofBytes data) e) := by
  refine accepts_named (by decide) (by simp) ?_
  simp only [List.forall_mem_cons]
  exact ⟨⟨_, rfl, accepts_count h.1⟩, ⟨_, rfl, accepts_count h.2⟩,
    ⟨_, rfl, accepts_text e.replacement⟩, ⟨_, rfl, accepts_range data e.start e.stop⟩, nofun⟩

/-- An offense that can be shown fits; without edits there is no field for them, and without details
none for these. -/
theorem accepts_offense (folder : String) (texts : Texts) {o : Offense} (h : o.Reportable) :
    offenseSchema.Accepts (offense folder texts o) := by
  obtain ⟨hmessage, hstart, hstop⟩ := Offense.of_checked h.checked
  refine accepts_named (by decide) (by simp) ?_
  simp only [List.forall_mem_append, List.forall_mem_cons]
  refine ⟨⟨⟨⟨_, rfl, accepts_text o.rule⟩,
    ⟨_, rfl, .plain rfl fun hempty => hmessage (Value.str.inj hempty)⟩, ⟨_, rfl, accepts_text _⟩,
    ⟨_, rfl, accepts_text _⟩, ⟨_, rfl, accepts_count hstart⟩, ⟨_, rfl, accepts_count (by omega)⟩,
    ⟨_, rfl, accepts_range _ o.start o.stop⟩, ⟨_, rfl, .plain rfl ⟨_, h.severity, rfl⟩⟩, nofun⟩,
    ?_⟩, ?_⟩
  · rw [editFields]
    split
    · simp only [List.forall_mem_singleton]
      refine ⟨_, rfl, .list ?_⟩
      rw [List.forall_mem_map]
      exact fun e he => accepts_edit _ (h.edits e he)
    · nofun
  · rw [detailFields]
    split
    next htruthy =>
      simp only [List.forall_mem_singleton]
      refine ⟨_, rfl, ?_⟩
      rcases h.details with hnull | ⟨entries, hentries⟩
      · simp [hnull, Value.truthy] at htruthy
      · rw [hentries]
        exact .plain rfl trivial
    next => nofun

/-- A problem of a whole file has no line; its error is any text. -/
theorem accepts_problem (folder path error : String) :
    failureSchema.Accepts (problem folder path error) := by
  refine accepts_named (by decide) (by simp) ?_
  simp only [List.forall_mem_cons]
  exact ⟨⟨_, rfl, .plain rfl trivial⟩, ⟨_, rfl, accepts_text _⟩, ⟨_, rfl, .plain rfl rfl⟩,
    ⟨_, rfl, .plain rfl rfl⟩, ⟨_, rfl, accepts_text error⟩, nofun⟩

theorem accepts_failure (folder : String) {f : Failure} (h : f.Recorded) :
    failureSchema.Accepts (failure folder f) := by
  obtain ⟨hline, hcolumn⟩ := h.position
  refine accepts_named (by decide) (by simp) ?_
  simp only [List.forall_mem_cons]
  exact ⟨⟨_, rfl, .plain rfl trivial⟩, ⟨_, rfl, accepts_text _⟩,
    ⟨_, rfl, .plain rfl (decide_eq_false (by omega))⟩,
    ⟨_, rfl, .plain rfl (decide_eq_false (by omega))⟩, ⟨_, rfl, accepts_text f.error⟩, nofun⟩

theorem accepts_metrics {metrics : Table} (h : Timed metrics) :
    (Schema.record (timeNames.map fun name => (name, timeSchema)) timeNames).Accepts
      (.map metrics) := by
  refine accepts_record (by decide) h.times fun entry hentry => ?_
  obtain ⟨⟨name, hname, hkey⟩, htime⟩ := h.entries entry hentry
  exact ⟨_, List.mem_map_of_mem hname, hkey, accepts_time htime⟩

theorem accepts_fileProblems (folder : String) {file : FileReport}
    (h : ∀ f ∈ file.failures, f.Recorded) :
    ∀ entry ∈ fileProblems folder file, failureSchema.Accepts entry := by
  intro entry hentry
  simp only [fileProblems, List.mem_append, Option.mem_toList, Option.map_eq_some_iff,
    List.mem_map] at hentry
  rcases hentry with (⟨error, -, rfl⟩ | ⟨f, hf, rfl⟩) | ⟨reason, -, rfl⟩
  · exact accepts_problem folder file.path error
  · exact accepts_failure folder (h f hf)
  · exact accepts_problem folder file.path reason

/-! ## Whole reports -/

/-- What a report is made from: offenses that can be shown, failures that were recorded, and times
that are not negative. -/
structure Sound (r : Report) : Prop where
  offenses : ∀ file ∈ r.files, ∀ f ∈ file.offenses, f.offense.Reportable
  failures : ∀ file ∈ r.files, ∀ f ∈ file.failures, f.Recorded
  metrics : Timed r.metrics

theorem accepts_value {r : Report} (h : r.Sound) : schema.Accepts r.value := by
  refine accepts_named (by decide) (by simp) ?_
  simp only [List.forall_mem_cons]
  refine ⟨⟨_, rfl, accepts_text protocol⟩, ⟨_, rfl, accepts_text version⟩,
    ⟨_, rfl, accepts_count (Int.natCast_nonneg _)⟩, ⟨_, rfl, accepts_count (Int.natCast_nonneg _)⟩,
    ⟨_, rfl, .list ?_⟩, ⟨_, rfl, .list ?_⟩, ⟨_, rfl, accepts_metrics h.metrics⟩, nofun⟩
  · rw [List.forall_mem_map]
    intro o ho
    obtain ⟨file, hfile, ho⟩ := List.mem_flatMap.1 ho
    obtain ⟨f, hf, rfl⟩ := List.mem_map.1 ho
    exact accepts_offense r.folder r.texts (h.offenses file hfile f hf)
  · intro entry hentry
    obtain ⟨file, hfile, hentry⟩ := List.mem_flatMap.1 hentry
    exact accepts_fileProblems r.folder (h.failures file hfile) entry hentry

theorem check_eq_nil_iff {value : Value} : check value = [] ↔ schema.Accepts value := by
  rw [← violations_eq_nil_iff, check, message?]
  cases schema.violations value <;> simp [Violation.best?]

end Report

/-! ## What the shipped rules report -/

theorem Dispatcher.ofConfig_spec {registry : Registry} {config : Config} {patterns : Value}
    {d : Dispatcher} (h : ofConfig registry config patterns = .ok d) :
    d.listeners = none ∧ ∀ rule ∈ d.rules, rule ∈ registry.rules := by
  obtain ⟨selected, hselected, h⟩ := bind_eq_ok h
  obtain rfl := Except.ok.inj h
  refine ⟨rfl, fun rule hrule => ?_⟩
  rw [rules, Registry.rules_ofEntries, List.map_map] at hrule
  obtain ⟨rule', hrule', rfl⟩ := List.mem_map.1 hrule
  exact Registry.mem_of_select hselected rule' (List.mem_filter.1 hrule').1

theorem Shipped.rules_plain [Machine] : ∀ rule ∈ rules, rule.Plain := by
  simp [rules, ChainBreaks.rule_plain, WrapArguments.rule_plain, NestedContext.rule_plain,
    Redefinition.letRule_plain, Redefinition.subjectRule_plain]

theorem Shipped.rules_severity [Machine] :
    ∀ rule ∈ rules, rule.info.severity ∈ Offense.severities := by
  have hwarn : "warn" ∈ Offense.severities := by decide
  simp only [rules, List.forall_mem_cons]
  exact ⟨hwarn, hwarn, hwarn, hwarn, hwarn, List.forall_mem_nil _⟩

/-- Whatever the shipped rules that a configuration selects report can be shown. -/
theorem Shipped.reportable [Machine] {config : Config} {patterns : Value} {d : Dispatcher}
    {document : Document} {i : Investigation}
    (hd : Dispatcher.ofConfig .shipped config patterns = .ok d)
    (hi : d.investigate document = .ok i) : ∀ o ∈ i.offenses, o.Reportable := by
  obtain ⟨hlisteners, hrules⟩ := Dispatcher.ofConfig_spec hd
  rw [registry_rules] at hrules
  have htable : d.table = .ofRules d.rules := by rw [Dispatcher.table, hlisteners, Option.getD_none]
  exact Dispatcher.reportable_of_plain hi htable
    (fun rule hrule => rules_plain rule (hrules rule hrule))
    fun rule hrule => rules_severity rule (hrules rule hrule)

/-- A report whose offenses can be shown, whose failures were recorded and whose times are not
negative fits its schema, and checking it finds nothing, whatever the texts of its files; and what
the shipped rules report can be shown under every configuration. -/
theorem Report.value_fits [Machine] :
    (∀ r : Report, r.Sound → r.renderNamed "json" = .ok (Json.pretty r.value) ∧
      schema.Accepts r.value ∧ check r.value = []) ∧
    ∀ (config : Config) (patterns : Value) (d : Dispatcher) (document : Document)
      (i : Investigation), Dispatcher.ofConfig .shipped config patterns = .ok d →
        d.investigate document = .ok i → ∀ o ∈ i.offenses, o.Reportable := by
  refine ⟨fun r hr => ⟨rfl, accepts_value hr, check_eq_nil_iff.2 (accepts_value hr)⟩, ?_⟩
  intro config patterns d document i hd hi
  exact Shipped.reportable hd hi

namespace Report

/-- Two files: in the first one an offense lies beyond the text and a rule failed, the second one
could not be read and has an offense of a file without a text. -/
def beyond : Report where
  folder := "/w"
  files := [
    { path := "a.rb", text := "x y", rejection := some "edits overlap"
      offenses := [⟨0, ⟨"far", "too far", "a.rb", 7, 9, "error", [⟨8, 12, "z"⟩],
        .map [(.str "by", .int 5)]⟩⟩]
      failures := [⟨"crasher", "a.rb", 2, 1, 2, "RuntimeError: boom"⟩] },
    { path := "b.rb", error := some "Failed to read file: gone"
      offenses := [⟨0, ⟨"far", "too far", "c.rb", 0, 1, "info", [], .null⟩⟩] }]
  rules := 2
  metrics := measured 1.5 0 2.5

theorem value_fits_beyond :
    beyond.Sound ∧ schema.Accepts beyond.value ∧ check beyond.value = [] ∧
      ∃ d i, Dispatcher.ofConfig .shipped .standard .null = .ok d ∧
        d.investigate ⟨Source.ofText "a.rb" Shipped.spreadText, Shipped.spread, []⟩ = .ok i ∧
        i.offenses.map (·.rule) = [WrapArguments.info.id] ∧ ∀ o ∈ i.offenses, o.Reportable := by
  have hrun : (Dispatcher.investigate (.fresh [Dispatcher.crasher] none)
      Dispatcher.pair).toOption.map (·.failures) =
        some [⟨"crasher", "a.rb", 0, 1, 0, "RuntimeError: boom"⟩,
          ⟨"crasher", "a.rb", 2, 1, 2, "RuntimeError: boom"⟩] := by
    decide +kernel
  obtain ⟨i, hi, hfailures⟩ := Option.map_eq_some_iff.1 hrun
  have hrecorded : Failure.Recorded ⟨"crasher", "a.rb", 2, 1, 2, "RuntimeError: boom"⟩ :=
    ⟨Memory, inferInstance, _, Dispatcher.pair, i, rfl, toOption_eq_some hi, by simp [hfailures]⟩
  have hbeyond : beyond.Sound := by
    refine ⟨?_, by simpa [beyond] using hrecorded,
      measured_timed (by decide +kernel) (by decide +kernel) (by decide +kernel)⟩
    simp only [beyond, List.forall_mem_cons]
    exact ⟨⟨⟨rfl, by decide, by simp [Edit.NonNegative], .inr ⟨_, rfl⟩⟩, nofun⟩,
      ⟨⟨rfl, by decide, by simp, .inl rfl⟩, nofun⟩, nofun⟩
  have hshipped : ((Dispatcher.ofConfig .shipped .standard .null).toOption.bind fun d =>
      (d.investigate ⟨Source.ofText "a.rb" Shipped.spreadText, Shipped.spread, []⟩).toOption.map
        fun i => i.offenses.map (·.rule)) = some [WrapArguments.info.id] := by
    decide +kernel
  obtain ⟨d, hd, hmap⟩ := Option.bind_eq_some_iff.1 hshipped
  obtain ⟨i, hi, hoffenses⟩ := Option.map_eq_some_iff.1 hmap
  obtain ⟨hfits, hreportable⟩ := value_fits
  obtain ⟨-, haccepts, hcheck⟩ := hfits beyond hbeyond
  exact ⟨hbeyond, haccepts, hcheck, d, i, toOption_eq_some hd, toOption_eq_some hi, hoffenses,
    hreportable _ _ d _ i (toOption_eq_some hd) (toOption_eq_some hi)⟩

end Report

end RubyLint
