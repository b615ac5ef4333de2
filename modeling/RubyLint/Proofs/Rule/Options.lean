import RubyLint.Proofs.Config

/-!
# Typed options

The options of the shipped rules are whole numbers, the widths of indentations, and lists of words.
Under a configuration that gives them such values every rule gets a context, and reads a number or a
list of words where it asks for one.
-/

namespace RubyLint

/-! ## Tables with typed entries -/

def wordOptions : List String :=
  ["OperatorMethods", "AllowedMethods", "Prefixes", "Methods"]

/-- An entry of an option table: an indentation width is a number of at most `width` columns to
either side, and the other options of the shipped rules are lists of words. -/
def TypedEntry (width : Nat) (entry : Value × Value) : Prop :=
  (entry.1 = .str "IndentationWidth" → ∃ n : Int, entry.2 = .int n ∧ n.natAbs ≤ width) ∧
    ∀ name ∈ wordOptions, entry.1 = .str name →
      ∃ words : List String, entry.2 = .list (words.map .str)

variable {width : Nat} {table entries : Table} {key value : Value} {name : String}

theorem TypedEntry.mono {wider : Nat} {entry : Value × Value} (h : TypedEntry width entry)
    (hle : width ≤ wider) : TypedEntry wider entry := by
  refine ⟨fun hkey => ?_, h.2⟩
  obtain ⟨n, hn, hbound⟩ := h.1 hkey
  exact ⟨n, hn, Nat.le_trans hbound hle⟩

namespace Table

theorem set_typed (htable : ∀ e ∈ table, TypedEntry width e)
    (hentry : TypedEntry width (key, value)) :
    ∀ e ∈ table.set key value, TypedEntry width e := by
  induction table with
  | nil => simpa [set] using hentry
  | cons first rest ih =>
      have hrest := fun e he => htable e (List.mem_cons_of_mem first he)
      rw [set]
      split
      next hsame =>
        refine List.forall_mem_cons.2 ⟨⟨fun hfirst => ?_, fun name hname hfirst => ?_⟩, hrest⟩
        · have hfirst : first.1 = .str "IndentationWidth" := hfirst
          rw [hfirst, Value.str_sameKey_iff] at hsame
          exact hentry.1 hsame
        · have hfirst : first.1 = .str name := hfirst
          rw [hfirst, Value.str_sameKey_iff] at hsame
          exact hentry.2 name hname hsame
      next => exact List.forall_mem_cons.2 ⟨htable first List.mem_cons_self, ih hrest⟩

theorem update_typed (htable : ∀ e ∈ table, TypedEntry width e)
    (hentries : ∀ e ∈ entries, TypedEntry width e) :
    ∀ e ∈ table.update entries, TypedEntry width e := by
  induction entries generalizing table with
  | nil => exact htable
  | cons entry rest ih =>
      exact ih (set_typed htable (hentries entry List.mem_cons_self))
        fun e he => hentries e (List.mem_cons_of_mem entry he)

end Table

namespace Value

theorem itemsOrNone_words (words : List String) :
    (Value.list (words.map .str)).itemsOrNone = .ok (words.map .str) := by
  cases words <;> rfl

theorem members_words (words : List String) :
    (Value.list (words.map .str)).members = .ok (words.map .str) := by
  have hnone : (words.map Value.str).findSome? unhashable? = none := by
    simp [List.findSome?_eq_none_iff, unhashable?]
  simp [members, itemsOrNone_words, hnone, bind, Except.bind, pure, Except.pure]

/-- The faults of an indentation that is too wide to be written. -/
def widthFaults : List ValueFault :=
  [.hugeRepeat, .noMemory]

variable [Machine]

theorem blanks_int_error {n : Int} {fault : ValueFault} (h : (Value.int n).blanks = .error fault) :
    fault ∈ widthFaults := by
  rw [blanks] at h
  split at h
  · obtain rfl := Except.error.inj h
    decide
  split at h
  · obtain rfl := Except.error.inj h
    decide
  · nomatch h

theorem blanks_int_eq_ok {n : Int} {text : String} (h : (Value.int n).blanks = .ok text) :
    text = String.ofList (List.replicate n.toNat ' ') := by
  rw [blanks] at h
  split at h
  · nomatch h
  split at h
  · nomatch h
  · exact (Except.ok.inj h).symm

/-- Blanks are spaces. -/
theorem blanks_eq_ok {v : Value} {text : String} (h : v.blanks = .ok text) :
    ∃ count, text = String.ofList (List.replicate count ' ') := by
  cases v with
  | int n => exact ⟨_, blanks_int_eq_ok h⟩
  | bool b => exact ⟨_, (Except.ok.inj h).symm⟩
  | _ => nomatch h

theorem blanks_int_ok {n : Int} (hlow : -sizeBound ≤ n) (hhigh : n < Machine.memoryBound) :
    (Value.int n).blanks = .ok (String.ofList (List.replicate n.toNat ' ')) := by
  have hbound := Machine.memoryBound_le
  have hfit : (decide (n < -sizeBound) || decide (sizeBound ≤ n)) = false := by
    simp only [Bool.or_eq_false_iff, decide_eq_false_iff_not]
    omega
  rw [blanks, hfit, if_neg (by simp), if_neg (by omega)]

end Value

/-! ## Contexts under a typed configuration -/

/-- The part of a configuration that a rule reads is typed. -/
structure Config.Typed (c : Config) (width : Nat) (rule : String) : Prop where
  severities : ∃ entries, c.severities = .map entries
  options : ∃ tables, c.options = .map tables ∧ ∀ v, Table.lookup? tables rule = some v →
    ∃ entries, v = .map entries ∧ ∀ e ∈ entries, TypedEntry width e

theorem Config.Typed.mono {c : Config} {wider : Nat} {rule : String} (h : c.Typed width rule)
    (hle : width ≤ wider) : c.Typed wider rule := by
  obtain ⟨tables, htables, hentries⟩ := h.options
  refine ⟨h.severities, tables, htables, fun v hv => ?_⟩
  obtain ⟨entries, rfl, htyped⟩ := hentries v hv
  exact ⟨entries, rfl, fun e he => (htyped e he).mono hle⟩

/-- A context in which a rule can work on a document. -/
structure Context.Ready {μ : Type} (ctx : Context μ) (width : Nat) (document : Document)
    (info : RuleInfo) : Prop where
  document : ctx.document = document
  info : ctx.info = info
  options : ∀ e ∈ ctx.options, TypedEntry width e

namespace Context.Ready

variable {μ : Type} {ctx : Context μ} {document : Document} {info : RuleInfo}

theorem width_option (h : ctx.Ready width document info) (hwidth : 2 ≤ width) :
    ∃ n : Int, ctx.option "IndentationWidth" (.int 2) = .int n ∧ n.natAbs ≤ width := by
  rw [Context.option]
  cases hlookup : Table.lookup? ctx.options "IndentationWidth" with
  | none => exact ⟨2, rfl, hwidth⟩
  | some v => exact (h.options _ (Table.mem_of_lookup? hlookup)).1 rfl

theorem words_option (h : ctx.Ready width document info) (name : String)
    (hname : name ∈ wordOptions) :
    ∃ words : List String, (ctx.option name .null).itemsOrNone = .ok (words.map .str) ∧
      (ctx.option name .null).members = .ok (words.map .str) := by
  rw [Context.option]
  cases hlookup : Table.lookup? ctx.options name with
  | none => exact ⟨[], rfl, rfl⟩
  | some v =>
      obtain ⟨words, rfl⟩ := (h.options _ (Table.mem_of_lookup? hlookup)).2 name hname rfl
      exact ⟨words, Value.itemsOrNone_words words, Value.members_words words⟩

end Context.Ready

theorem Config.Typed.optionsFor {c : Config} {rule : String} (h : c.Typed width rule) :
    ∃ table, c.optionsFor rule = .ok table ∧ ∀ e ∈ table, TypedEntry width e := by
  obtain ⟨tables, htables, hentries⟩ := h.options
  rw [Config.optionsFor, htables]
  dsimp only
  cases hlookup : Table.lookup? tables rule with
  | none => exact ⟨[], rfl, by simp⟩
  | some v =>
      obtain ⟨entries, rfl, htyped⟩ := hentries v hlookup
      cases entries with
      | nil => exact ⟨[], rfl, by simp⟩
      | cons entry rest => exact ⟨_, rfl, Table.update_typed (by simp) htyped⟩

theorem Config.Typed.severityFor {c : Config} {rule : String} (h : c.Typed width rule)
    (default : String) : ∃ result, c.severityFor rule default = .ok result :=
  Config.exists_severityFor h.severities rule default

/-- Under a typed configuration a rule with typed defaults gets a context, the same for every
document. -/
theorem Dispatcher.exists_context (rule : Rule Memory) {config : Option Config}
    (hconfig : ∀ c ∈ config, c.Typed width rule.info.id)
    (hdefaults : ∀ e ∈ rule.info.options, TypedEntry width e) :
    ∃ (options : Table) (severity : String) (logs : List Log),
      (∀ e ∈ options, TypedEntry width e) ∧
        ∀ document, Dispatcher.context config document rule =
          .ok (⟨document, rule.info, options, severity, {}⟩, logs) := by
  cases config with
  | none => exact ⟨rule.info.options, rule.info.severity, [], hdefaults, fun _ => rfl⟩
  | some c =>
      have htyped := hconfig c rfl
      obtain ⟨table, htable, hentries⟩ := htyped.optionsFor
      obtain ⟨⟨severity, logs⟩, hseverity⟩ := htyped.severityFor rule.info.severity
      refine ⟨Table.update rule.info.options table,
        ((some severity).filter (· != "")).getD rule.info.severity, logs,
        Table.update_typed hdefaults hentries, fun document => ?_⟩
      simp only [Dispatcher.context, htable, hseverity, bind, Except.bind, pure, Except.pure]
      rfl

/-- Under a typed configuration all rules with typed defaults take part in a run. -/
theorem Dispatcher.exists_participants (config : Option Config) (document : Document)
    {rules : List (Rule Memory)}
    (hconfig : ∀ rule ∈ rules, ∀ c ∈ config, c.Typed width rule.info.id)
    (hdefaults : ∀ rule ∈ rules, ∀ e ∈ rule.info.options, TypedEntry width e) :
    ∃ participants : List (Rule Memory × Context Memory), participants.map (·.1) = rules ∧
      ∀ p ∈ participants, p.2.Ready width document p.1.info ∧
        ∃ logs, Dispatcher.context config document p.1 = .ok (p.2, logs) := by
  induction rules with
  | nil => exact ⟨[], rfl, by simp⟩
  | cons rule rest ih =>
      obtain ⟨participants, hrules, hready⟩ :=
        ih (fun r hr => hconfig r (List.mem_cons_of_mem rule hr))
          fun r hr => hdefaults r (List.mem_cons_of_mem rule hr)
      obtain ⟨options, severity, logs, htyped, hcontext⟩ := exists_context rule
        (hconfig rule List.mem_cons_self) (hdefaults rule List.mem_cons_self)
      refine ⟨(rule, ⟨document, rule.info, options, severity, {}⟩) :: participants,
        by rw [List.map_cons, hrules], ?_⟩
      exact List.forall_mem_cons.2 ⟨⟨⟨rfl, rfl, htyped⟩, logs, hcontext document⟩, hready⟩

end RubyLint
