import Mathlib.Data.List.Nodup
import RubyLint.Proofs.Steps
import RubyLint.Registry

/-!
# Registering rules

The index of a registry leads to the rules of its list, each under its own id.  Every way to
register rules, up to a clash or without one, adds rules after those that are there and keeps their
ids apart.
-/

namespace RubyLint.Registry

variable {μ : Type} {r r' r'' : Registry μ} {entry : Registered μ}

/-! ## The list and the index -/

/-- A registry is determined by its list. -/
theorem ofEntries_entries (r : Registry μ) : ofEntries r.entries = r := by
  obtain ⟨entries, index, rfl⟩ := r
  rfl

theorem rules_ofEntries (entries : List (Registered μ)) :
    (ofEntries entries).rules = entries.map (·.rule) :=
  rfl

theorem entry?_eq_find? (r : Registry μ) (id : String) :
    r.entry? id = r.entries.find? (·.id == id) := by
  unfold entry?
  rw [r.inStep]
  induction r.entries with
  | nil => rfl
  | cons entry rest ih =>
      rw [List.map_cons, List.lookup_cons, List.find?_cons, ih, BEq.comm]

theorem contains_iff {id : String} : r.contains id = true ↔ id ∈ r.ids := by
  simp [contains, entry?_eq_find?, ids]

theorem keys_eq_ids (r : Registry μ) : r.keys = r.ids := by
  rw [keys, r.inStep, List.map_map]
  rfl

/-- The index leads to the listed rule of an id. -/
theorem entry?_eq_some_iff (hids : r.ids.Nodup) {id : String} :
    r.entry? id = some entry ↔ entry ∈ r.entries ∧ entry.id = id := by
  rw [entry?_eq_find?]
  constructor
  · intro h
    exact ⟨List.mem_of_find?_eq_some h, by simpa using List.find?_some h⟩
  · rintro ⟨hentry, rfl⟩
    cases hfind : r.entries.find? (·.id == entry.id) with
    | none => exact absurd (beq_self_eq_true _) (List.find?_eq_none.1 hfind entry hentry)
    | some other =>
        have hsame : other.id = entry.id := by simpa using List.find?_some hfind
        rw [List.inj_on_of_nodup_map hids (List.mem_of_find?_eq_some hfind) hentry hsame]

theorem get?_eq_some_iff (hids : r.ids.Nodup) {id : String} {rule : Rule μ} :
    r.get? id = some rule ↔ rule ∈ r.rules ∧ rule.info.id = id := by
  rw [get?, Option.map_eq_some_iff, rules, List.mem_map]
  constructor
  · rintro ⟨entry, hentry, rfl⟩
    obtain ⟨hmem, hid⟩ := (entry?_eq_some_iff hids).1 hentry
    exact ⟨⟨entry, hmem, rfl⟩, hid⟩
  · rintro ⟨⟨entry, hmem, rfl⟩, hid⟩
    exact ⟨entry, (entry?_eq_some_iff hids).2 ⟨hmem, hid⟩, rfl⟩

/-- A rule whose id is not taken is registered after all others. -/
theorem register_of_not_contains (h : ¬r.contains entry.id = true) :
    ∃ r', r.register entry = .ok r' ∧ r'.entries = r.entries ++ [entry] :=
  ⟨_, if_neg h, rfl⟩

/-! ## Growing -/

/-- A registry with further rules after its own, none of which takes an id twice. -/
structure Grows (r r' : Registry μ) : Prop where
  entries : r.entries <+: r'.entries
  nodup : r.ids.Nodup → r'.ids.Nodup

theorem Grows.refl (r : Registry μ) : r.Grows r :=
  ⟨List.prefix_rfl, id⟩

theorem Grows.trans (h : r.Grows r') (h' : r'.Grows r'') : r.Grows r'' :=
  ⟨h.entries.trans h'.entries, h'.nodup ∘ h.nodup⟩

theorem Grows.rules (h : r.Grows r') : r.rules <+: r'.rules :=
  h.entries.map Registered.rule

theorem register_grows (h : r.register entry = .ok r') : r.Grows r' := by
  rw [register] at h
  split at h
  next => nomatch h
  next hfree =>
    obtain rfl := Except.ok.inj h
    refine ⟨List.prefix_append _ _, fun hids => ?_⟩
    have hnew : entry.id ∉ r.ids := fun hid => hfree (contains_iff.2 hid)
    rw [ids, List.map_append, List.nodup_append]
    refine ⟨hids, List.nodup_singleton _, fun id hid other hother hsame => ?_⟩
    obtain rfl : other = entry.id := List.mem_singleton.1 hother
    rw [hsame] at hid
    exact hnew hid

theorem takeOffers_grows (r : Registry) (offers : List Offer) :
    r.Grows (r.takeOffers offers).1 := by
  induction offers generalizing r with
  | nil => exact .refl r
  | cons offer rest ih =>
      rw [takeOffers]
      split
      next => exact ih r
      next =>
        split
        next r' hregister => exact (register_grows hregister).trans (ih r')
        next => exact .refl r

theorem takePackage_grows (catalog : Catalog) (r : Registry) (name : String) :
    r.Grows (r.takePackage catalog name).1 := by
  rw [takePackage]
  split
  next => exact .refl r
  split
  next => exact .refl r
  split
  next => exact .refl r
  next package _ => exact takeOffers_grows r _

theorem discover_grows (catalog : Catalog) (r : Registry) (names : List String) :
    r.Grows (r.discover catalog names).1 := by
  induction names generalizing r with
  | nil => exact .refl r
  | cons name rest ih =>
      have hpackage := takePackage_grows catalog r name
      rw [discover]
      split
      next r' htaken =>
        rw [htaken] at hpackage
        exact hpackage.trans (ih r')
      next r' fault htaken =>
        rw [htaken] at hpackage
        exact hpackage

/-! ## Selecting rules -/

theorem mem_of_select {enabled disabled : Value} {rules : List (Rule μ)}
    (h : r.select enabled disabled = .ok rules) : ∀ rule ∈ rules, rule ∈ r.rules := by
  rw [select] at h
  split at h
  · exact mem_of_filterM_eq_ok h
  · obtain rfl := Except.ok.inj h
    exact nofun

end RubyLint.Registry
