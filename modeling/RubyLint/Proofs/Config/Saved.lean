import RubyLint.CommandLine.Run
import RubyLint.Config.Save
import RubyLint.Proofs.Config.Merge
import RubyLint.Proofs.Files.Tree
import RubyLint.Proofs.Lookup
import RubyLint.Proofs.Text.Utf8
import RubyLint.Proofs.Value.Plain

/-!
# Saved configurations

A configuration that is saved is loaded again as it was.  All fields are in the document, so nothing
of the standard configuration that the document is merged into is left: lists take the place of the
standard ones even if they are empty, and the tables have no entries but their own.  That the reader
of YAML understands what the writer wrote is the one thing that is taken for granted.
-/

namespace RubyLint.Config

variable {c : Config} {rules : List (String × Table)}

/-- The fields hold what they are declared to: lists of texts, a whole number, a table of texts by
rule, and a table of option tables by rule.  No key of a table comes twice. -/
structure Declared (c : Config) : Prop where
  enabled : ∃ patterns : List String, c.enabled = .list (patterns.map .str)
  disabled : ∃ patterns : List String, c.disabled = .list (patterns.map .str)
  limit : ∃ n : Int, c.limit = .int n
  exclude : ∃ patterns : List String, c.exclude = .list (patterns.map .str)
  severities : ∃ entries : List (String × String), (entries.map (·.1)).Nodup ∧
    c.severities = .map (entries.map fun entry => (.str entry.1, .str entry.2))
  options : ∃ rules : List (String × Table), (rules.map (·.1)).Nodup ∧
    (∀ rule ∈ rules, rule.2.Distinct) ∧
    c.options = .map (rules.map fun rule => (.str rule.1, .map rule.2))

/-- A table by names that differ has keys that differ. -/
theorem distinct_of_names {α : Type} {entries : List (String × α)} (value : α → Value)
    (h : (entries.map (·.1)).Nodup) :
    Table.Distinct (entries.map fun entry => (.str entry.1, value entry.2)) := by
  rw [Table.Distinct, List.pairwise_map]
  apply (List.pairwise_map.1 h).imp
  intro a b hne
  apply Bool.eq_false_iff.2
  intro hsame
  exact hne (Value.str.inj (Value.sameKey_str_iff.1 hsame))

/-- A mapping of distinct keys is the table that it describes. -/
theorem toTable_distinct {table : Table} (h : table.Distinct) :
    (Value.map table).toTable = .ok table := by
  cases table with
  | nil => rfl
  | cons entry rest => exact congrArg Except.ok (Table.update_nil h)

theorem optionTables_distinct (h : ∀ rule ∈ rules, rule.2.Distinct) :
    optionTables (rules.map fun rule => (.str rule.1, .map rule.2)) =
      .ok (rules.map fun rule => (.str rule.1, .map rule.2)) := by
  induction rules with
  | nil => rfl
  | cons rule rest ih =>
      rw [List.map_cons, optionTables, toTable_distinct (h rule List.mem_cons_self),
        ih fun r hr => h r (List.mem_cons_of_mem rule hr)]
      rfl

theorem optionEntries_map (entries : Table) : optionEntries (.map entries) = .ok entries := by
  cases entries <;> rfl

/-- Every key of a saved configuration is known. -/
theorem unknownKeys_document (c : Config) :
    unknownKeys (c.fields.map fun field => (.str field.1, field.2)) = .ok [] := by
  have hkeys : (c.fields.map fun field => (Value.str field.1, field.2)).map (·.1) =
      fieldNames.map .str := rfl
  have hknown : (fieldNames.map Value.str).filter (fun key => !isField key) = [] := by
    rw [List.filter_eq_nil_iff]
    intro key hkey
    obtain ⟨name, hname, rfl⟩ := List.mem_map.1 hkey
    have hfield : isField (.str name) = true :=
      List.any_eq_true.2 ⟨name, hname, Value.beq_str_iff.2 rfl⟩
    simp [hfield]
  simp [unknownKeys, hkeys, hknown]

theorem lookup?_document (c : Config) (name : String) :
    Table.lookup? (c.fields.map fun field => (.str field.1, field.2)) name =
      c.fields.lookup name := by
  induction c.fields with
  | nil => rfl
  | cons field rest ih =>
      rw [List.map_cons, Table.lookup?_cons, ih, lookup_cons]
      simp only [Value.str.injEq, eq_comm]

/-- Merging the document of a configuration leaves nothing of the standard one. -/
theorem merge_document (h : c.Declared) :
    merge (c.fields.map fun field => (.str field.1, field.2)) = .ok c := by
  obtain ⟨severities, hnames, hseverities⟩ := h.severities
  obtain ⟨rules, -, hdistinct, hoptions⟩ := h.options
  have htable : c.severities.toTable = .ok (severities.map fun e => (.str e.1, .str e.2)) := by
    rw [hseverities]
    exact toTable_distinct (distinct_of_names Value.str hnames)
  have hentries : optionEntries c.options = .ok (rules.map fun r => (.str r.1, .map r.2)) := by
    rw [hoptions, optionEntries_map]
  have hseverities' : c.fields.lookup "rule_severities" = some c.severities := rfl
  have hoptions' : c.fields.lookup "rule_configs" = some c.options := rfl
  have henabled : c.fields.lookup "enabled_rules" = some c.enabled := rfl
  have hdisabled : c.fields.lookup "disabled_rules" = some c.disabled := rfl
  have hlimit : c.fields.lookup "max_offenses_per_file" = some c.limit := rfl
  have hexclude : c.fields.lookup "exclude" = some c.exclude := rfl
  simp only [merge, plainField, lookup?_document, hseverities', hoptions', henabled, hdisabled,
    hlimit, hexclude, Option.getD_some, htable, hentries, bind, Except.bind,
    optionTables_distinct hdistinct, pure, Except.pure]
  rw [← hseverities, ← hoptions]

theorem ofDocument_document (path : String) (h : c.Declared) :
    ofDocument path c.document = ([], .ok c) := by
  have hentries : documentEntries c.document =
      .ok (c.fields.map fun field => (.str field.1, field.2)) := rfl
  rw [ofDocument, hentries]
  simp only [unknownKeys_document, merge_document h]
  rfl

/-- A configuration that was saved at a path is loaded from there as it was, without a warning, if
the reader of YAML gives back the document that was written. -/
theorem loadConfig_saved {files : Files} {path : String} (hdeclared : c.Declared)
    (hfile : files.bytes? path = some (Utf8.encode c.saved))
    (hyaml : (Yaml.Source.ofText (Yaml.write c.document)).load = .ok c.document) :
    CommandLine.loadConfig files (some path) = .ok (c, []) := by
  have hsource : ofSource path (.ofText c.saved) = .ok (c, []) := by
    rw [saved, ofSource_eq hyaml, ofDocument_document path hdeclared]
    rfl
  rw [CommandLine.loadConfig, Files.bytes?_eq_some_iff.1 hfile]
  calc
    ofBytes path (Utf8.encode c.saved) = ofSource path (.ofText c.saved) := by
      rw [ofBytes, Yaml.Source.ofBytes, Utf8.decode_encode]
    _ = .ok (c, []) := hsource

/-- A configuration of which much is empty or counts as absent. -/
def bare : Config where
  enabled := .list []
  limit := .int 0
  options := .map [(.str "a", .map []), (.str "b", .map [(.str "n", .list [.null, .int 4])])]

theorem bare_declared : bare.Declared where
  enabled := ⟨[], rfl⟩
  disabled := ⟨[], rfl⟩
  limit := ⟨0, rfl⟩
  exclude := ⟨[], rfl⟩
  severities := ⟨[], by decide, rfl⟩
  options := ⟨[("a", []), ("b", [(.str "n", .list [.null, .int 4])])], by decide, by decide, rfl⟩

/-- The characters that are written are those that are read. -/
theorem ofText_write (v : Value) :
    Yaml.Source.ofText (Yaml.write v) =
      Yaml.Source.check ⟨Yaml.Source.unifyLines
        ((Yaml.Written.value {} false none v).indentTo 0).reversed.reverse, none⟩ := by
  rw [Yaml.Source.ofText, Yaml.write, String.toList_ofList]

theorem bare_written :
    (Yaml.Source.ofText (Yaml.write bare.document)).load = .ok bare.document := by
  have hsame : (Yaml.Source.check ⟨Yaml.Source.unifyLines
      ((Yaml.Written.value {} false none bare.document).indentTo 0).reversed.reverse,
        none⟩).load.toOption.any (Value.samePlain · bare.document) = true := by
    decide +kernel
  rw [← ofText_write] at hsame
  generalize (Yaml.Source.ofText (Yaml.write bare.document)).load = loaded at hsame ⊢
  cases loaded with
  | error fault => nomatch hsame
  | ok value => rw [Value.eq_of_samePlain value bare.document hsame]

/-- Empty lists, a limit of zero and empty option tables are loaded as such. -/
theorem loadConfig_saved_bare :
    CommandLine.loadConfig ⟨.folder [("a.yml", .file (Utf8.encode bare.saved))], "/"⟩
      (some "a.yml") = .ok (bare, []) := by
  have hnames : Path.names (Path.join "/" "a.yml") = ["", "a.yml"] := by decide +kernel
  have hfile (data : List UInt8) :
      (⟨.folder [("a.yml", .file data)], "/"⟩ : Files).bytes? "a.yml" = some data := by
    rw [Files.bytes?_eq_some_iff, Files.find?, if_neg (by decide), hnames]
    rfl
  exact loadConfig_saved bare_declared (hfile _) bare_written

end RubyLint.Config
