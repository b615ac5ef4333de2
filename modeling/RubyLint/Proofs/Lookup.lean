import Mathlib.Data.List.Basic

/-!
# Tables by name

An entry that takes the place of all entries of its name is what this name finds; every other name
finds what it found before.  Where names differ, what is listed under a name is what its entry
lists.
-/

namespace RubyLint

variable {α : Type}

theorem lookup_cons (entry : String × α) (table : List (String × α)) (name : String) :
    (entry :: table).lookup name = if name = entry.1 then some entry.2 else table.lookup name := by
  obtain ⟨key, value⟩ := entry
  rw [List.lookup_cons]
  by_cases hname : name = key
  · simp [hname]
  · simp [hname, beq_eq_false_iff_ne.2 hname]

theorem lookup_filter_ne (table : List (String × α)) (key name : String) :
    (table.filter (·.1 != key)).lookup name = if name = key then none else table.lookup name := by
  induction table with
  | nil => simp
  | cons entry table ih =>
      rw [List.filter_cons, lookup_cons]
      by_cases hkey : entry.1 = key
      · rw [if_neg (by simpa using hkey), ih, hkey]
        split <;> rfl
      · rw [if_pos (by simpa using hkey), lookup_cons, ih]
        by_cases hname : name = entry.1
        · simp [hname, hkey]
        · simp [hname]

theorem lookup_replaced (table : List (String × α)) (entry : String × α) (name : String) :
    (table.filter (·.1 != entry.1) ++ [entry]).lookup name =
      if name = entry.1 then some entry.2 else table.lookup name := by
  rw [List.lookup_append, lookup_filter_ne, lookup_cons, List.lookup_nil]
  split <;> simp

theorem lookup_isSome_iff {table : List (String × α)} {name : String} :
    (table.lookup name).isSome ↔ ∃ value, (name, value) ∈ table := by
  induction table with
  | nil => simp
  | cons entry table ih =>
      obtain ⟨key, value⟩ := entry
      rw [lookup_cons]
      by_cases hname : name = key
      · simp [hname]
      · simp [hname, ih]

theorem mem_of_lookup {table : List (String × α)} {name : String} {value : α}
    (h : table.lookup name = some value) : (name, value) ∈ table := by
  obtain ⟨front, back, rfl, -⟩ := List.lookup_eq_some_iff.1 h
  exact List.mem_append_right front List.mem_cons_self

theorem lookup_of_mem {table : List (String × α)} {name : String} {value : α}
    (hdistinct : (table.map (·.1)).Nodup) (hentry : (name, value) ∈ table) :
    table.lookup name = some value := by
  obtain ⟨front, back, rfl⟩ := List.append_of_mem hentry
  rw [List.map_append, List.map_cons, List.nodup_append] at hdistinct
  refine List.lookup_eq_some_iff.2 ⟨front, back, rfl, fun entry hfront => ?_⟩
  rw [bne_iff_ne]
  exact (hdistinct.2.2 entry.1 (List.mem_map_of_mem hfront) name List.mem_cons_self).symm

/-- If every entry lists items under its own name, those under one name are the items of its
entry. -/
theorem filter_flatMap_name {β κ : Type} [BEq κ] [LawfulBEq κ] {entries : List α} {entry : α}
    {items : α → List β} {name : α → κ} {label : β → κ}
    (hlabel : ∀ entry, ∀ x ∈ items entry, label x = name entry)
    (hnames : (entries.map name).Nodup) (hentry : entry ∈ entries) :
    (entries.flatMap items).filter (label · == name entry) = items entry := by
  obtain ⟨before, after, rfl⟩ := List.append_of_mem hentry
  have hother : ∀ rest : List α, (∀ other ∈ rest, name other ≠ name entry) →
      (rest.flatMap items).filter (label · == name entry) = [] := by
    intro rest hrest
    rw [List.filter_eq_nil_iff]
    intro x hx
    obtain ⟨other, hmem, hx⟩ := List.mem_flatMap.1 hx
    rw [hlabel other x hx, beq_iff_eq]
    exact hrest other hmem
  have hown : (items entry).filter (label · == name entry) = items entry :=
    List.filter_eq_self.2 fun x hx => beq_iff_eq.2 (hlabel entry x hx)
  rw [List.map_append, List.map_cons, List.nodup_append] at hnames
  obtain ⟨-, hafter, hbefore⟩ := hnames
  rw [List.flatMap_append, List.flatMap_cons, List.filter_append, List.filter_append, hown,
    hother before fun other hmem => hbefore _ (List.mem_map_of_mem hmem) _ List.mem_cons_self,
    hother after fun other hmem heq =>
      (List.nodup_cons.1 hafter).1 (heq ▸ List.mem_map_of_mem hmem)]
  simp

end RubyLint
