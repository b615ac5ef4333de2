import RubyLint.Config.Load
import RubyLint.Dispatch
import RubyLint.Proofs.Steps

/-!
# Tabular configurations

A configuration that keeps its severities in a table and its options in a table of tables gives
every rule a context on every document.
-/

namespace RubyLint

variable {table : Table} {key value : Value} {name : String}

theorem Value.sameKey_str_iff : key.sameKey (.str name) = true ↔ key = .str name := by
  cases key <;> simp [sameKey, same]

theorem Value.str_sameKey_iff : (Value.str name).sameKey key = true ↔ key = .str name := by
  rw [eq_comm (a := key)]
  cases key <;> simp [sameKey, same]

theorem Value.beq_str_iff : (key == .str name) = true ↔ key = .str name := by
  rw [show (key == .str name) = key.sameKey (.str name) by cases key <;> rfl]
  exact sameKey_str_iff

theorem Table.mem_of_lookup? (h : lookup? table name = some value) :
    (Value.str name, value) ∈ table := by
  obtain ⟨entry, hentry, rfl⟩ := Option.map_eq_some_iff.1 h
  have hsame := List.find?_some hentry
  rw [← Value.sameKey_str_iff.1 hsame]
  exact List.mem_of_find?_eq_some hentry

theorem Value.toTable_map (entries : Table) : ∃ table, (Value.map entries).toTable = .ok table := by
  cases entries with
  | nil => exact ⟨[], rfl⟩
  | cons entry rest => exact ⟨_, rfl⟩

namespace Config

/-- The severities are a table by rule, and the options are a table of tables by rule. -/
structure Tabular (c : Config) : Prop where
  severities : ∃ entries, c.severities = .map entries
  options : ∃ tables, c.options = .map tables ∧ ∀ entry ∈ tables, ∃ table, entry.2 = .map table

variable {c : Config} {config : Option Config} {rule : String}

theorem exists_severityFor (h : ∃ entries, c.severities = .map entries) (rule default : String) :
    ∃ result, c.severityFor rule default = .ok result := by
  obtain ⟨entries, hentries⟩ := h
  have hconfigured : ∃ v, c.configuredSeverity rule = .ok v := by
    rw [Config.configuredSeverity, hentries]
    dsimp only
    split <;> exact ⟨_, rfl⟩
  obtain ⟨v, hv⟩ := hconfigured
  simp only [Config.severityFor, hv, bind, Except.bind]
  cases v with
  | none => exact ⟨_, rfl⟩
  | some v =>
      dsimp only
      split <;> exact ⟨_, rfl⟩

/-- The severity of a rule is a known one or the default. -/
theorem severityFor_eq_ok {default severity : String} {logs : List Log}
    (h : c.severityFor rule default = .ok (severity, logs)) :
    severity ∈ Offense.severities ∨ severity = default := by
  obtain ⟨configured, -, h⟩ := bind_eq_ok h
  split at h
  · exact .inr (Prod.mk.inj (Except.ok.inj h)).1.symm
  split at h
  next hfound =>
    obtain ⟨rfl, -⟩ := Prod.mk.inj (Except.ok.inj h)
    exact .inl (List.mem_of_find?_eq_some hfound)
  next => exact .inr (Prod.mk.inj (Except.ok.inj h)).1.symm

theorem Tabular.exists_optionsFor (h : c.Tabular) (rule : String) :
    ∃ table, c.optionsFor rule = .ok table := by
  obtain ⟨tables, htables, hentries⟩ := h.options
  rw [Config.optionsFor, htables]
  dsimp only
  cases hlookup : Table.lookup? tables rule with
  | none => exact ⟨[], rfl⟩
  | some v =>
      obtain ⟨table, rfl⟩ := hentries _ (Table.mem_of_lookup? hlookup)
      exact Value.toTable_map table

theorem standard_tabular : standard.Tabular :=
  ⟨⟨[], rfl⟩, [], rfl, by simp⟩

end Config

variable {μ : Type} [Inhabited μ]

/-- Under a tabular configuration every rule gets a context on every document. -/
theorem Dispatcher.exists_context_of_tabular {config : Option Config}
    (hconfig : ∀ c ∈ config, c.Tabular)
    (document : Document) (rule : Rule μ) :
    ∃ ctx logs,
      Dispatcher.context config document rule = .ok (ctx, logs) ∧ ctx.info = rule.info := by
  cases config with
  | none => exact ⟨_, _, rfl, rfl⟩
  | some c =>
      obtain ⟨table, htable⟩ := (hconfig c rfl).exists_optionsFor rule.info.id
      obtain ⟨⟨severity, logs⟩, hseverity⟩ :=
        Config.exists_severityFor (hconfig c rfl).severities rule.info.id rule.info.severity
      simp only [Dispatcher.context, htable, hseverity, bind, Except.bind, pure, Except.pure]
      exact ⟨_, _, rfl, rfl⟩

end RubyLint
