import Mathlib.Data.List.Nodup
import RubyLint.Proofs.Config
import RubyLint.Schema

/-!
# What schemas accept

The values that fit a schema, said without a list of violations: a plain value has one of the types
and keeps the limit, every item of a list fits, and a mapping has all required fields, no keys that
are no fields, and under every field that it has a value that fits.  Checking finds no violation in
exactly the values that fit.
-/

namespace RubyLint

open Value

def Limit.Allows : Limit → Value → Prop
  | .free, _ => True
  | .least bound, value => isBelow bound value = false
  | .nonEmpty, value => value ≠ .str ""
  | .oneOf texts, value => ∃ text ∈ texts, value = .str text

theorem Limit.problems_eq_nil_iff (limit : Limit) (value : Value) :
    limit.problems value = [] ↔ limit.Allows value := by
  cases limit with
  | free => simp [problems, Allows]
  | least bound => simp [problems, Allows]
  | nonEmpty => simp [problems, Allows, beq_str_iff]
  | oneOf texts => simp [problems, Allows, beq_str_iff]

namespace Schema

inductive Accepts : Schema → Value → Prop where
  | plain {types : List ValueType} {limit : Limit} {value : Value}
      (htype : hasType types value = true) (hlimit : limit.Allows value) :
      Accepts (.plain types limit) value
  | list {item : Schema} {items : List Value} (hitems : ∀ value ∈ items, Accepts item value) :
      Accepts (.list item) (.list items)
  | record {fields : List (String × Schema)} {required : List String} {entries : Table}
      (hrequired : ∀ name ∈ required, (Table.lookup? entries name).isSome = true)
      (hknown : ∀ entry ∈ entries, entry.1.text ∈ fields.map (·.1))
      (hfields : ∀ field ∈ fields, ∀ value, Table.lookup? entries field.1 = some value →
        Accepts field.2 value) :
      Accepts (.record fields required) (.map entries)

/-! ## Checking decides acceptance -/

theorem here_eq_nil_iff {types : List ValueType} {value : Value} {problems : List Problem} :
    here types value problems = [] ↔ problems = [] := by
  simp [here]

theorem typeProblems_eq_nil_iff {types : List ValueType} {value : Value} :
    typeProblems types value = [] ↔ hasType types value = true := by
  simp [typeProblems]

theorem missingFields_eq_nil_iff {required : List String} {entries : Table} :
    missingFields required entries = [] ↔
      ∀ name ∈ required, (Table.lookup? entries name).isSome = true := by
  simp [missingFields, List.filter_eq_nil_iff, Option.isSome_iff_ne_none]

theorem unexpectedFields_eq_nil_iff {names : List String} {entries : Table} :
    unexpectedFields names entries = [] ↔ ∀ entry ∈ entries, entry.1.text ∈ names := by
  have hkeys : ((entries.map fun entry => entry.1.text).filter
      fun key => !names.contains key) = [] ↔ ∀ entry ∈ entries, entry.1.text ∈ names := by
    rw [List.filter_eq_nil_iff, List.forall_mem_map]
    simp
  rw [← hkeys, unexpectedFields]
  simp only [List.isEmpty_iff, ite_eq_left_iff, List.cons_ne_nil, imp_false, not_not]

theorem flatten_mapIdx_eq_nil_iff {α β : Type} {f : Nat → α → List β} {p : α → Prop}
    (hf : ∀ i a, f i a = [] ↔ p a) (xs : List α) :
    (xs.mapIdx f).flatten = [] ↔ ∀ a ∈ xs, p a := by
  induction xs generalizing f with
  | nil => simp
  | cons x xs ih =>
      rw [List.mapIdx_cons, List.flatten_cons, List.append_eq_nil_iff, hf, List.forall_mem_cons,
        ih fun i a => hf (i + 1) a]

theorem list_violations_eq_nil_iff {item : Schema} {value : Value} :
    (Schema.list item).violations value = [] ↔
      ∃ items, value = .list items ∧ ∀ v ∈ items, item.violations v = [] := by
  have hitems := flatten_mapIdx_eq_nil_iff fun i v =>
    List.map_eq_nil_iff (f := Violation.under (.item i)) (l := item.violations v)
  cases value <;> simp [violations, here, typeProblems, hasType, ValueType.has, hitems]

theorem record_violations_eq_nil_iff {fields : List (String × Schema)} {required : List String}
    {value : Value} :
    (Schema.record fields required).violations value = [] ↔
      ∃ entries, value = .map entries ∧ fieldViolations fields entries = [] ∧
        (∀ name ∈ required, (Table.lookup? entries name).isSome = true) ∧
        ∀ entry ∈ entries, entry.1.text ∈ fields.map (·.1) := by
  rw [← exists_congr fun entries => and_congr_right fun _ => and_congr_right fun _ =>
    and_congr missingFields_eq_nil_iff unexpectedFields_eq_nil_iff]
  cases value <;> simp [violations, here, typeProblems, hasType, ValueType.has]

mutual

/-- A value has no violations exactly if it fits. -/
theorem violations_eq_nil_iff (schema : Schema) (value : Value) :
    schema.violations value = [] ↔ schema.Accepts value := by
  cases schema with
  | plain types limit =>
      rw [violations, here_eq_nil_iff, List.append_eq_nil_iff, typeProblems_eq_nil_iff,
        Limit.problems_eq_nil_iff]
      constructor
      · rintro ⟨htype, hlimit⟩
        exact .plain htype hlimit
      · intro h
        cases h with
        | plain htype hlimit => exact ⟨htype, hlimit⟩
  | list item =>
      rw [list_violations_eq_nil_iff]
      constructor
      · rintro ⟨items, rfl, hitems⟩
        exact .list fun v hv => (violations_eq_nil_iff item v).1 (hitems v hv)
      · intro h
        cases h with
        | list hitems =>
            exact ⟨_, rfl, fun v hv => (violations_eq_nil_iff item v).2 (hitems v hv)⟩
  | record fields required =>
      rw [record_violations_eq_nil_iff]
      constructor
      · rintro ⟨entries, rfl, hfields, hrequired, hknown⟩
        exact .record hrequired hknown ((fieldViolations_eq_nil_iff fields entries).1 hfields)
      · intro h
        cases h with
        | record hrequired hknown hfields =>
            exact ⟨_, rfl, (fieldViolations_eq_nil_iff fields _).2 hfields, hrequired, hknown⟩

theorem fieldViolations_eq_nil_iff (fields : List (String × Schema)) (entries : Table) :
    fieldViolations fields entries = [] ↔ ∀ field ∈ fields, ∀ value,
      Table.lookup? entries field.1 = some value → field.2.Accepts value := by
  match fields with
  | [] => simp [fieldViolations]
  | (name, schema) :: rest =>
      rw [fieldViolations, List.append_eq_nil_iff, fieldViolations_eq_nil_iff rest entries,
        List.forall_mem_cons]
      refine and_congr_left fun _ => ?_
      cases Table.lookup? entries name with
      | none => simp
      | some value => simp [violations_eq_nil_iff schema value]

end

/-! ## Mappings of fields -/

/-- A mapping fits if each of its entries is a field that fits and the required fields are there. -/
theorem accepts_record {fields : List (String × Schema)} {required : List String} {entries : Table}
    (hnames : (fields.map (·.1)).Nodup)
    (hrequired : ∀ name ∈ required, ∃ value, (Value.str name, value) ∈ entries)
    (hentries : ∀ entry ∈ entries, ∃ field ∈ fields,
      entry.1 = .str field.1 ∧ field.2.Accepts entry.2) :
    (Schema.record fields required).Accepts (.map entries) := by
  refine .record (fun name hname => ?_) (fun entry hentry => ?_) fun field hfield value hvalue => ?_
  · obtain ⟨value, hvalue⟩ := hrequired name hname
    rw [Table.lookup?, Table.get?, Option.isSome_map, List.find?_isSome]
    exact ⟨_, hvalue, sameKey_str_iff.2 rfl⟩
  · obtain ⟨field, hfield, hkey, -⟩ := hentries entry hentry
    rw [hkey]
    exact List.mem_map_of_mem hfield
  · obtain ⟨field', hfield', hkey, haccepts⟩ := hentries _ (Table.mem_of_lookup? hvalue)
    obtain rfl := List.inj_on_of_nodup_map hnames hfield hfield' (Value.str.inj hkey)
    exact haccepts

end Schema

/-! ## Least values -/

namespace Number

open Float.Model

theorem lt_iff_compare (x y : Float) :
    x < y ↔ x.toModel.unpack.compare y.toModel.unpack = some .lt := by
  change decide (Float.Model.lt _ _ = true) = true ↔ _
  rw [decide_eq_true_eq, Float.Model.lt, UnpackedFloat.lt, beq_iff_eq]

theorem le_iff_compare (x y : Float) :
    x ≤ y ↔ ∃ o, x.toModel.unpack.compare y.toModel.unpack = some o ∧ o.isLE = true := by
  change decide (Float.Model.le _ _ = true) = true ↔ _
  rw [decide_eq_true_eq, Float.Model.le, UnpackedFloat.le, Option.any_eq_true]

/-- Zero compares with a number as the number compares with zero, the other way round. -/
theorem compare_zero {x : UnpackedFloat} {sign : UnpackedFloat.Sign} {o : Ordering}
    (h : (UnpackedFloat.zero sign).compare x = some o) : x.compare (.zero sign) = some o.swap := by
  cases x with
  | notANumber => nomatch h
  | infinity s =>
      cases s <;> obtain rfl := Option.some.inj h <;> rfl
  | zero s =>
      obtain rfl := Option.some.inj h
      rfl
  | finite s mantissa exponent hmantissa =>
      cases s <;> obtain rfl := Option.some.inj h <;> rfl

/-- A number that is at least zero is not below it. -/
theorem not_lt_zero {x : Float} (h : 0 ≤ x) : ¬x < Float.ofInt 0 := by
  obtain ⟨o, hcompare, ho⟩ := (le_iff_compare 0 x).1 h
  have hzero : (Float.ofInt 0).toModel.unpack = (0 : Float).toModel.unpack := rfl
  have hpositive : (0 : Float).toModel.unpack = .zero .positive := rfl
  rw [hpositive] at hcompare hzero
  rw [lt_iff_compare, hzero, compare_zero hcompare]
  cases o <;> simp at ho ⊢

end Number

end RubyLint
