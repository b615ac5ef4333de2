import RubyLint.Proofs.Value.Table

/-!
# Merging a configuration file

A configuration file counts as a whole.  If everything in its document can be used, the result is
the standard configuration with all of it merged in; otherwise the result is the standard
configuration as it is, and a warning says so.  Which of the two it is can be told from the document
alone.
-/

namespace RubyLint

/-- A fault of a value that does not end the loading of a configuration. -/
def ValueFault.Handled (fault : ValueFault) : Prop :=
  fault.cls = .type ∨ fault.cls = .value ∨ fault.cls = .attribute

namespace Value

variable {v : Value} {fault : ValueFault}

theorem items_error (h : v.items = .error fault) : fault.Handled := by
  rw [items] at h
  split at h <;> cases h
  exact .inl rfl

theorem asEntry_error {position : Nat} (h : v.asEntry position = .error fault) :
    fault.Handled := by
  rw [asEntry] at h
  split at h
  · cases h
    exact .inl rfl
  · split at h <;> cases h
    exact .inl rfl
  · cases h
    exact .inr (.inl rfl)

theorem asEntries_error {items : List Value} {position : Nat}
    (h : asEntries position items = .error fault) : fault.Handled := by
  induction items generalizing position with
  | nil => cases h
  | cons item rest ih =>
      rcases bind_eq_error h with h | ⟨entry, -, h⟩
      · exact asEntry_error h
      · rcases bind_eq_error h with h | ⟨entries, -, h⟩
        · exact ih h
        · cases h

theorem toTable_error (h : v.toTable = .error fault) : fault.Handled := by
  rw [toTable] at h
  split at h
  · rcases bind_eq_error h with h | ⟨entries, -, h⟩
    · rw [toEntries] at h
      split at h
      · cases h
      · rcases bind_eq_error h with h | ⟨items, -, h⟩
        · exact items_error h
        · exact asEntries_error h
    · cases h
  · cases h

end Value

namespace Config

variable {path : String} {document v : Value} {entries rules tables : Table} {c : Config}

/-! ## What a document says -/

/-- An entry of the option tables holds what a file says about a rule. -/
def HoldsOptions (rule entry : Value × Value) : Prop :=
  entry.1 = rule.1 ∧ ∃ table, entry.2 = .map table ∧ rule.2.Holds table

/-- A configuration is the standard one with all entries of a document merged in: each plain field
is that of the document if it has one, the severities are those of the document, and every rule of
the document has its options. -/
structure Merged (entries : Table) (c : Config) : Prop where
  enabled : c.enabled = (entries.lookup? "enabled_rules").getD standard.enabled
  disabled : c.disabled = (entries.lookup? "disabled_rules").getD standard.disabled
  limit : c.limit = (entries.lookup? "max_offenses_per_file").getD standard.limit
  exclude : c.exclude = (entries.lookup? "exclude").getD standard.exclude
  severities : ∃ table, c.severities = .map table ∧
    ((entries.lookup? "rule_severities").getD .null).Holds table
  options : ∃ rules tables, ((entries.lookup? "rule_configs").getD .null).Maps rules ∧
    c.options = .map tables ∧ List.Forall₂ HoldsOptions rules tables

/-- A configuration is the merge of a document, which is a mapping of texts or counts as absent. -/
def IsMerge (document : Value) (c : Config) : Prop :=
  ∃ entries, document.Maps entries ∧ (∀ entry ∈ entries, ∃ name, entry.1 = .str name) ∧
    Merged entries c

/-- The warning after which the standard configuration is used. -/
def failedWarning (path : String) (cls : FaultClass) : Log :=
  .warn "config" s!"Failed to load config from {path}: {cls.name}"

/-! ## Merging -/

/-- Taking the entries of a value, none if it counts as absent, succeeds on what it maps. -/
theorem maps_iff {ε : Type} (fault : Value → ε) :
    (if !v.truthy then .ok []
      else match v.opened with
        | .map entries => .ok entries
        | v => .error (fault v)) = Except.ok entries ↔ v.Maps entries := by
  constructor
  · intro h
    split at h
    next habsent =>
      cases h
      exact .absent (by simpa using habsent)
    next htruthy =>
      split at h
      next hv =>
        cases h
        exact .mapping (by simpa using htruthy) hv
      next => cases h
  · rintro (habsent | ⟨htruthy, hv⟩)
    · simp [habsent]
    · simp [htruthy, hv]

theorem documentEntries_eq_ok_iff :
    documentEntries document = .ok entries ↔ document.Maps entries := by
  rw [documentEntries]
  exact maps_iff fun _ => LoadFault.notMapping

theorem optionEntries_eq_ok_iff : optionEntries v = .ok rules ↔ v.Maps rules := by
  rw [optionEntries]
  exact maps_iff fun v => ValueFault.noAttribute v.typeName "items"

theorem optionTables_holds (h : optionTables rules = .ok tables) :
    List.Forall₂ HoldsOptions rules tables := by
  induction rules generalizing tables with
  | nil =>
      cases h
      exact .nil
  | cons rule rest ih =>
      obtain ⟨table, htable, h⟩ := bind_eq_ok h
      obtain ⟨tables', htables, h⟩ := bind_eq_ok h
      obtain rfl := Except.ok.inj h
      exact .cons ⟨rfl, table, rfl, Value.holds_of_toTable htable⟩ (ih htables)

theorem exists_optionTables (h : List.Forall₂ HoldsOptions rules tables) :
    ∃ tables', optionTables rules = .ok tables' := by
  induction h with
  | nil => exact ⟨[], rfl⟩
  | cons hrule _ ih =>
      obtain ⟨-, table, -, hholds⟩ := hrule
      obtain ⟨table', htable⟩ := Value.exists_toTable_of_holds hholds
      obtain ⟨tables', htables⟩ := ih
      rw [optionTables, htable, htables]
      exact ⟨_, rfl⟩

theorem merge_merged (h : merge entries = .ok c) : Merged entries c := by
  obtain ⟨severities, hseverities, h⟩ := bind_eq_ok h
  obtain ⟨rules, hrules, h⟩ := bind_eq_ok h
  obtain ⟨tables, htables, h⟩ := bind_eq_ok h
  obtain rfl := Except.ok.inj h
  exact ⟨rfl, rfl, rfl, rfl, ⟨severities, rfl, Value.holds_of_toTable hseverities⟩,
    rules, tables, optionEntries_eq_ok_iff.1 hrules, rfl, optionTables_holds htables⟩

theorem exists_merge (h : Merged entries c) : ∃ c', merge entries = .ok c' := by
  obtain ⟨table, -, hholds⟩ := h.severities
  obtain ⟨rules, tables, hrules, -, hoptions⟩ := h.options
  obtain ⟨severities, hseverities⟩ := Value.exists_toTable_of_holds hholds
  obtain ⟨tables', htables⟩ := exists_optionTables hoptions
  rw [merge, hseverities, optionEntries_eq_ok_iff.2 hrules]
  simp only [bind, Except.bind, htables]
  exact ⟨_, rfl⟩

theorem optionTables_error {fault : ValueFault} (h : optionTables rules = .error fault) :
    fault.Handled := by
  induction rules with
  | nil => cases h
  | cons rule rest ih =>
      rcases bind_eq_error h with h | ⟨table, -, h⟩
      · exact Value.toTable_error h
      · rcases bind_eq_error h with h | ⟨tables, -, h⟩
        · exact ih h
        · cases h

theorem merge_error {fault : ValueFault} (h : merge entries = .error fault) : fault.Handled := by
  rcases bind_eq_error h with h | ⟨severities, -, h⟩
  · exact Value.toTable_error h
  rcases bind_eq_error h with h | ⟨rules, -, h⟩
  · rw [optionEntries] at h
    split at h
    · cases h
    · split at h <;> cases h
      exact .inr (.inr rfl)
  rcases bind_eq_error h with h | ⟨tables, -, h⟩
  · exact optionTables_error h
  · cases h

/-- The keys of a document can be listed if they are texts. -/
theorem exists_unknownKeys_iff :
    (∃ keys, unknownKeys entries = .ok keys) ↔ ∀ entry ∈ entries, ∃ name, entry.1 = .str name := by
  have hlisted (keys : List Value) :
      (keys.mapM text?).isSome = true ↔ ∀ key ∈ keys, ∃ name, key = .str name := by
    induction keys with
    | nil => simp
    | cons key rest ih =>
        rw [List.mapM_cons, List.forall_mem_cons, ← ih]
        cases key with
        | str name => cases rest.mapM text? <;> simp [text?]
        | _ => simp [text?]
  have hfield (key : Value) (h : isField key = true) : ∃ name, key = .str name := by
    obtain ⟨name, -, hname⟩ := List.any_eq_true.1 h
    exact ⟨name, Value.beq_str_iff.1 hname⟩
  calc
    (∃ keys, unknownKeys entries = .ok keys) ↔
        (((entries.map (·.1)).filter fun key => !isField key).mapM text?).isSome = true := by
      rw [unknownKeys]
      cases ((entries.map (·.1)).filter fun key => !isField key).mapM text? <;> simp
    _ ↔ ∀ key ∈ (entries.map (·.1)).filter fun key => !isField key, ∃ name, key = .str name :=
      hlisted _
    _ ↔ ∀ entry ∈ entries, ∃ name, entry.1 = .str name := by
      simp only [List.mem_filter, List.mem_map, Bool.not_eq_true', and_imp, forall_exists_index,
        forall_apply_eq_imp_iff₂]
      constructor
      · intro h entry hentry
        cases hkey : isField entry.1 with
        | true => exact hfield entry.1 hkey
        | false => exact h entry hentry hkey
      · intro h entry hentry _
        exact h entry hentry

/-! ## Loading -/

theorem not_fatal_value {fault : ValueFault} (h : fault.Handled) :
    (LoadFault.value fault).isFatal = false := by
  rcases h with h | h | h <;> simp [LoadFault.isFatal, LoadFault.cls, h]

theorem failedWarning_notMem (path : String) (keys : List String) (cls : FaultClass) :
    failedWarning path cls ∉ unknownWarning path keys := by
  rw [unknownWarning]
  split
  · exact List.not_mem_nil
  · intro h
    have hmessage := congrArg (·.message.toList.head?) (List.mem_singleton.1 h)
    simp [failedWarning, Log.warn, toString, String.toList_append] at hmessage

theorem ofDocument_logs (path : String) (document : Value) (cls : FaultClass) :
    failedWarning path cls ∉ (ofDocument path document).1 := by
  rw [ofDocument]
  split
  · exact List.not_mem_nil
  split
  · exact List.not_mem_nil
  · exact failedWarning_notMem path _ cls

/-- No fault of a document ends the loading. -/
theorem ofDocument_error {fault : LoadFault} (h : (ofDocument path document).2 = .error fault) :
    fault.isFatal = false := by
  rw [ofDocument] at h
  split at h
  next fault' hentries =>
    cases h
    rw [documentEntries] at hentries
    split at hentries
    · cases hentries
    · split at hentries <;> cases hentries
      rfl
  next entries hentries =>
    split at h
    next fault' hkeys =>
      cases h
      rw [unknownKeys] at hkeys
      split at hkeys <;> cases hkeys
      rfl
    next keys hkeys =>
      cases hmerge : merge entries with
      | error fault' =>
          rw [hmerge] at h
          cases h
          exact not_fatal_value (merge_error hmerge)
      | ok c =>
          rw [hmerge] at h
          cases h

theorem ofDocument_isMerge (h : (ofDocument path document).2 = .ok c) : IsMerge document c := by
  rw [ofDocument] at h
  split at h
  · cases h
  next entries hentries =>
    split at h
    · cases h
    next keys hkeys =>
      exact ⟨entries, documentEntries_eq_ok_iff.1 hentries,
        exists_unknownKeys_iff.1 ⟨keys, hkeys⟩, merge_merged (mapError_eq_ok h)⟩

/-- What can be merged as a whole is merged. -/
theorem exists_ofDocument (path : String) (h : IsMerge document c) :
    ∃ c', (ofDocument path document).2 = .ok c' := by
  obtain ⟨entries, hmaps, htexts, hmerged⟩ := h
  obtain ⟨keys, hkeys⟩ := exists_unknownKeys_iff.2 htexts
  obtain ⟨c', hmerge⟩ := exists_merge hmerged
  refine ⟨c', ?_⟩
  simp only [ofDocument, documentEntries_eq_ok_iff.2 hmaps, hkeys, hmerge]
  rfl

theorem ofSource_eq {source : Yaml.Source} (h : source.load = .ok document) :
    ofSource path source =
      settle path (ofDocument path document).1 (ofDocument path document).2 := by
  unfold ofSource
  generalize source.load = loaded at h ⊢
  subst h
  rfl

/-- Whatever value a file holds, its configuration is the merge of the whole of it, without a
warning that loading failed; or there is no such merge, and its configuration is the standard one,
after one such warning. -/
theorem ofSource_whole (path : String) (source : Yaml.Source) (document : Value)
    (h : source.load = .ok document) :
    (∃ c logs, ofSource path source = .ok (c, logs) ∧ IsMerge document c ∧
      ∀ cls, failedWarning path cls ∉ logs) ∨
    (¬ ∃ c, IsMerge document c) ∧ ∃ before cls,
      ofSource path source = .ok (standard, before ++ [failedWarning path cls]) ∧
        ∀ cls', failedWarning path cls' ∉ before := by
  have hlogs := ofDocument_logs path document
  rw [ofSource_eq h]
  cases hloaded : (ofDocument path document).2 with
  | ok c => exact .inl ⟨c, _, rfl, ofDocument_isMerge hloaded, hlogs⟩
  | error fault =>
      refine .inr ⟨?_, _, fault.cls, ?_, hlogs⟩
      · rintro ⟨c, hmerge⟩
        obtain ⟨c', hc'⟩ := exists_ofDocument path hmerge
        rw [hloaded] at hc'
        nomatch hc'
      · rw [settle, ofDocument_error hloaded]
        rfl

/-- The options of one rule among several are no table, after other fields were set. -/
def brokenText : String :=
  "enabled_rules: [a]\nrule_configs:\n  a: \x7bn: 1\x7d\n  b: 5\n"

/-- Nothing of the file is kept. -/
theorem ofSource_whole_broken :
    ∃ document, (Yaml.Source.ofText brokenText).load = .ok document ∧
      (¬ ∃ c, IsMerge document c) ∧ ∃ before cls,
        ofSource "a.yml" (.ofText brokenText) =
            .ok (standard, before ++ [failedWarning "a.yml" cls]) ∧
          ∀ cls', failedWarning "a.yml" cls' ∉ before := by
  have hloaded : (Yaml.Source.ofText brokenText).load.toOption.isSome := by decide +kernel
  have hlogs : (ofSource "a.yml" (.ofText brokenText)).toOption.map (·.2) =
      some [failedWarning "a.yml" .type] := by decide +kernel
  obtain ⟨document, hdocument⟩ := Option.isSome_iff_exists.1 hloaded
  have h := toOption_eq_some hdocument
  refine ⟨document, h, ?_⟩
  apply (ofSource_whole "a.yml" (.ofText brokenText) document h).resolve_left
  rintro ⟨c, logs, hsource, -, hclear⟩
  rw [hsource] at hlogs
  obtain rfl := Option.some.inj hlogs
  exact hclear .type List.mem_cons_self

end Config

end RubyLint
