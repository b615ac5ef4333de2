import Mathlib.Data.List.Forall2
import RubyLint.Proofs.Config

/-!
# Tables of values

A table that is built from entries holds what they say: where their keys differ it is the entries
themselves, and a name always finds the last entry under it.  The entries come from a mapping or
from a list of pairs; a value that counts as absent has none.
-/

namespace RubyLint

instance (v : Value) (name : String) : Decidable (v = .str name) :=
  decidable_of_iff (v.sameKey (.str name) = true) Value.sameKey_str_iff

namespace Table

variable {table entries : Table} {key value : Value} {entry : Value × Value} {name : String}

def Distinct (table : Table) : Prop :=
  table.Pairwise fun a b => a.1.sameKey b.1 = false

instance : DecidablePred Distinct :=
  fun table => inferInstanceAs (Decidable (table.Pairwise fun a b => a.1.sameKey b.1 = false))

theorem lookup?_nil (name : String) : lookup? [] name = none :=
  rfl

theorem lookup?_cons (entry : Value × Value) (table : Table) (name : String) :
    lookup? (entry :: table) name = if entry.1 = .str name then some entry.2 else
      lookup? table name := by
  rw [lookup?, get?, List.find?_cons]
  by_cases hkey : entry.1 = .str name
  · rw [if_pos hkey, Value.sameKey_str_iff.2 hkey, Option.map_some]
  · rw [if_neg hkey, Bool.eq_false_iff.2 (mt Value.sameKey_str_iff.1 hkey)]
    rfl

theorem lookup?_append (table table' : Table) (name : String) :
    lookup? (table ++ table') name = (lookup? table name).or (lookup? table' name) := by
  rw [lookup?, get?, List.find?_append, Option.map_or]
  rfl

/-- Setting a key decides what its name finds, and nothing else. -/
theorem lookup?_set (table : Table) (key value : Value) (name : String) :
    lookup? (table.set key value) name = if key = .str name then some value else
      lookup? table name := by
  induction table with
  | nil => rw [set, lookup?_cons]
  | cons first rest ih =>
      rw [set]
      split
      next hsame =>
        have hname : first.1 = .str name ↔ key = .str name := by
          constructor <;> intro h <;> rw [h] at hsame
          · exact Value.str_sameKey_iff.1 hsame
          · exact Value.sameKey_str_iff.1 hsame
        simp only [lookup?_cons, hname]
        split <;> rfl
      next hsame =>
        rw [lookup?_cons, ih, lookup?_cons]
        by_cases hfirst : first.1 = .str name
        · have hkey : key ≠ .str name := by
            rintro rfl
            exact hsame (Value.sameKey_str_iff.2 hfirst)
          rw [if_pos hfirst, if_pos hfirst, if_neg hkey]
        · rw [if_neg hfirst, if_neg hfirst]

/-- After entries are set one after the other, a name finds the last one under it. -/
theorem lookup?_update (table entries : Table) (name : String) :
    lookup? (table.update entries) name =
      (lookup? entries.reverse name).or (lookup? table name) := by
  induction entries generalizing table with
  | nil => rfl
  | cons entry rest ih =>
      calc
        lookup? (table.update (entry :: rest)) name =
            (lookup? rest.reverse name).or (lookup? (table.set entry.1 entry.2) name) := ih _
        _ = (lookup? rest.reverse name).or ((lookup? [entry] name).or (lookup? table name)) := by
          rw [lookup?_set, lookup?_cons, lookup?_nil]
          split <;> rfl
        _ = (lookup? (entry :: rest).reverse name).or (lookup? table name) := by
          rw [List.reverse_cons, lookup?_append, Option.or_assoc]

theorem set_new (h : ∀ e ∈ table, e.1.sameKey key = false) :
    table.set key value = table ++ [(key, value)] := by
  induction table with
  | nil => rfl
  | cons first rest ih =>
      have hfirst := h first List.mem_cons_self
      rw [set, if_neg (Bool.eq_false_iff.1 hfirst), List.cons_append,
        ih fun e he => h e (List.mem_cons_of_mem first he)]

/-- Entries with keys of their own are put behind those that are there. -/
theorem update_distinct (h : Distinct (table ++ entries)) :
    table.update entries = table ++ entries := by
  induction entries generalizing table with
  | nil => exact (List.append_nil table).symm
  | cons entry rest ih =>
      have hnew : ∀ e ∈ table, e.1.sameKey entry.1 = false := fun e he =>
        (List.pairwise_append.1 h).2.2 e he entry List.mem_cons_self
      have hstep : table.set entry.1 entry.2 = table ++ [entry] := set_new hnew
      calc
        table.update (entry :: rest) = (table.set entry.1 entry.2).update rest := rfl
        _ = table ++ [entry] ++ rest := by
          rw [hstep]
          apply ih
          rwa [List.append_assoc]
        _ = table ++ entry :: rest := by rw [List.append_assoc, List.singleton_append]

/-- A table that is made of entries with keys of their own is these entries. -/
theorem update_nil (h : Distinct entries) : Table.update [] entries = entries := by
  rw [update_distinct (by rwa [List.nil_append]), List.nil_append]

end Table

namespace Value

variable {v : Value} {entries table : Table}

/-- A value says that some entries are to be taken: those of a mapping, and none if it counts as
absent. -/
inductive Maps (v : Value) : Table → Prop
  | absent (h : v.truthy = false) : Maps v []
  | mapping {entries : Table} (h : v.truthy = true) (hv : v.opened = .map entries) : Maps v entries

/-- An item of a list of entries is a sequence of a key and a value. -/
def IsEntry (item : Value) (entry : Value × Value) : Prop :=
  item.items = .ok [entry.1, entry.2] ∧ entry.1.unhashable? = none

/-- A value lists entries: those that it maps, or those that the items of a sequence are. -/
inductive Lists (v : Value) : Table → Prop
  | maps {entries : Table} (h : v.Maps entries) : Lists v entries
  | pairs {entries : Table} {items : List Value} (h : v.truthy = true)
      (hv : ∀ entries, v.opened ≠ .map entries) (hitems : v.items = .ok items)
      (hentries : List.Forall₂ IsEntry items entries) : Lists v entries

/-- A table holds what a value lists.  Keys that differ leave the entries as they are; under a name
that comes several times the last entry counts. -/
def Holds (v : Value) (table : Table) : Prop :=
  ∃ entries, v.Lists entries ∧ (Table.Distinct entries → table = entries) ∧
    ∀ name, table.lookup? name = Table.lookup? entries.reverse name

theorem asEntry_eq_ok_iff {item : Value} {position : Nat} {entry : Value × Value} :
    item.asEntry position = .ok entry ↔ item.IsEntry entry := by
  obtain ⟨key, value⟩ := entry
  rw [asEntry, IsEntry]
  split
  next h => simp [h]
  next key' value' h =>
    rw [h, Except.ok.injEq, List.cons.injEq, List.cons.injEq]
    cases hhash : key'.unhashable? with
    | none =>
        rw [Except.ok.injEq, Prod.mk.injEq]
        constructor
        · rintro ⟨rfl, rfl⟩
          exact ⟨⟨rfl, rfl, rfl⟩, hhash⟩
        · rintro ⟨⟨rfl, rfl, -⟩, -⟩
          exact ⟨rfl, rfl⟩
    | some type =>
        apply iff_of_false
        · exact nofun
        · rintro ⟨⟨rfl, -, -⟩, hkey⟩
          exact Option.some_ne_none type (hhash.symm.trans hkey)
  next parts hparts h =>
    apply iff_of_false
    · exact nofun
    · rintro ⟨hitems, -⟩
      rw [h] at hitems
      exact hparts key value (Except.ok.inj hitems)

theorem asEntries_eq_ok_iff {items : List Value} {position : Nat} :
    asEntries position items = .ok entries ↔ List.Forall₂ IsEntry items entries := by
  induction items generalizing position entries with
  | nil =>
      rw [asEntries, Except.ok.injEq, List.forall₂_nil_left_iff]
      exact eq_comm
  | cons item rest ih =>
      rw [List.forall₂_cons_left_iff]
      constructor
      · intro h
        obtain ⟨entry, hentry, h⟩ := bind_eq_ok h
        obtain ⟨entries', hentries, h⟩ := bind_eq_ok h
        exact ⟨entry, entries', asEntry_eq_ok_iff.1 hentry, ih.1 hentries, (Except.ok.inj h).symm⟩
      · rintro ⟨entry, entries', hentry, hentries, rfl⟩
        rw [asEntries, asEntry_eq_ok_iff.2 hentry, ih.2 hentries]
        rfl

theorem toEntries_map (hv : v.opened = .map entries) : v.toEntries = .ok entries := by
  rw [toEntries, hv]

theorem toEntries_items (hv : ∀ entries, v.opened ≠ .map entries) :
    v.toEntries = v.items.bind (asEntries 0) := by
  rw [toEntries]
  split
  next entries h => exact absurd h (hv entries)
  next => rfl

/-- What a value that is present lists is what it is taken apart into. -/
theorem toEntries_eq_ok_iff (h : v.truthy = true) :
    v.toEntries = .ok entries ↔ v.Lists entries := by
  constructor
  · intro hentries
    by_cases hv : ∃ entries, v.opened = .map entries
    · obtain ⟨entries', hv⟩ := hv
      rw [toEntries_map hv, Except.ok.injEq] at hentries
      exact hentries ▸ .maps (.mapping h hv)
    · have hv := not_exists.1 hv
      rw [toEntries_items hv] at hentries
      obtain ⟨items, hitems, hentries⟩ := bind_eq_ok hentries
      exact .pairs h hv hitems (asEntries_eq_ok_iff.1 hentries)
  · intro hlists
    cases hlists with
    | maps hmaps =>
        cases hmaps with
        | absent habsent => exact absurd (h.symm.trans habsent) Bool.noConfusion
        | mapping _ hv => exact toEntries_map hv
    | pairs _ hv hitems hentries =>
        rw [toEntries_items hv, hitems]
        exact asEntries_eq_ok_iff.2 hentries

theorem lists_absent (h : v.truthy = false) : v.Lists entries ↔ entries = [] := by
  constructor
  · intro hlists
    cases hlists with
    | maps hmaps =>
        cases hmaps with
        | absent => rfl
        | mapping htruthy => simp [h] at htruthy
    | pairs htruthy => simp [h] at htruthy
  · rintro rfl
    exact .maps (.absent h)

/-- The table of a value is made from what the value lists. -/
theorem toTable_eq_ok_iff : v.toTable = .ok table ↔ ∃ entries, v.Lists entries ∧
    table = Table.update [] entries := by
  rw [toTable]
  cases h : v.truthy with
  | false => simp [lists_absent h, Table.update, pure, Except.pure, eq_comm]
  | true =>
      simp only [if_true, ← toEntries_eq_ok_iff h]
      constructor
      · intro htable
        obtain ⟨entries, hentries, htable⟩ := bind_eq_ok htable
        exact ⟨entries, hentries, (Except.ok.inj htable).symm⟩
      · rintro ⟨entries, hentries, rfl⟩
        rw [hentries]
        rfl

theorem holds_of_toTable (h : v.toTable = .ok table) : v.Holds table := by
  obtain ⟨entries, hlists, rfl⟩ := toTable_eq_ok_iff.1 h
  refine ⟨entries, hlists, fun hdistinct => ?_, fun name => ?_⟩
  · exact Table.update_nil hdistinct
  · rw [Table.lookup?_update, Table.lookup?_nil, Option.or_none]

theorem exists_toTable_of_holds (h : v.Holds table) : ∃ table', v.toTable = .ok table' := by
  obtain ⟨entries, hlists, -, -⟩ := h
  exact ⟨_, toTable_eq_ok_iff.2 ⟨entries, hlists, rfl⟩⟩

end Value

end RubyLint
