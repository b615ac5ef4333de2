import Mathlib
import RubyLint.Proofs.Registry
import RubyLint.Rule.Scripted

/-!
# The history of a registry

Rules are registered one by one or discovered in packages, and the registry is cleared, in any
order.  A step may stop: a rule whose id is taken is refused, and a discovery breaks off at the
first offer that clashes.  Whatever happened, the list and the index hold the same rules in the
order of registration, no two of them with one id, and a step that stopped has left just what came
before.
-/

namespace RubyLint

/-- What can happen to a registry. -/
inductive Change where
  | register (entry : Registered)
  | discover (catalog : Catalog) (packages : List String)
  | clear

variable {entries entries' : List Registered} {offers before after : List Offer} {offer : Offer}
variable {catalog : Catalog} {name : String} {names : List String} {fault : Option RegistryFault}

/-! ## Taking offers one after the other -/

namespace Offer

/-- The rule that is offered is a shared one, and it is among the entries already. -/
def Stands (offer : Offer) (entries : List Registered) : Prop :=
  ∃ entry ∈ entries, entry.id = offer.take.id ∧
    ∃ number, offer.take.stock = some number ∧ entry.stock = some number

def Clashes (offer : Offer) (entries : List Registered) : Prop :=
  ∃ entry ∈ entries, entry.id = offer.take.id ∧
    ∀ number, offer.take.stock = some number → entry.stock ≠ some number

/-- The entries after an offer is taken: a rule whose id is not there comes last. -/
def joined (entries : List Registered) (offer : Offer) : List Registered :=
  if offer.take.id ∈ entries.map (·.id) then entries else entries ++ [offer.take]

def joinedAll (entries : List Registered) (offers : List Offer) : List Registered :=
  offers.foldl joined entries

/-- None of the offers clashes when its turn comes. -/
def Fits (entries : List Registered) : List Offer → Prop
  | [] => True
  | offer :: rest => ¬offer.Clashes entries ∧ Fits (joined entries offer) rest

theorem joinedAll_append (entries : List Registered) (before after : List Offer) :
    joinedAll entries (before ++ after) = joinedAll (joinedAll entries before) after :=
  List.foldl_append

theorem fits_append :
    Fits entries (before ++ after) ↔
      Fits entries before ∧ Fits (joinedAll entries before) after := by
  induction before generalizing entries with
  | nil => exact (and_iff_right trivial).symm
  | cons offer rest ih =>
      rw [List.cons_append, Fits, Fits, ih, and_assoc]
      rfl

theorem Stands.not_clashes (h : offer.Stands entries) (hids : (entries.map (·.id)).Nodup) :
    ¬offer.Clashes entries := by
  obtain ⟨entry, hentry, hid, number, hoffer, hstock⟩ := h
  rintro ⟨other, hother, hid', hclash⟩
  obtain rfl : entry = other := List.inj_on_of_nodup_map hids hentry hother (hid.trans hid'.symm)
  exact hclash number hoffer hstock

theorem Stands.joined_eq (h : offer.Stands entries) : joined entries offer = entries := by
  obtain ⟨entry, hentry, hid, -⟩ := h
  exact if_pos (List.mem_map.2 ⟨entry, hentry, hid⟩)

/-- Where the id of an offer is taken, the offer stands already or clashes. -/
theorem clashes_of_not_stands (hid : offer.take.id ∈ entries.map (·.id))
    (h : ¬offer.Stands entries) : offer.Clashes entries := by
  obtain ⟨entry, hentry, hid⟩ := List.mem_map.1 hid
  refine ⟨entry, hentry, hid, fun number hoffer hstock => h ?_⟩
  exact ⟨entry, hentry, hid, number, hoffer, hstock⟩

theorem not_clashes_of_free (hid : offer.take.id ∉ entries.map (·.id)) :
    ¬offer.Clashes entries :=
  fun ⟨entry, hentry, hsame, _⟩ => hid (List.mem_map.2 ⟨entry, hentry, hsame⟩)

theorem Stands.mono (h : offer.Stands entries) (hsub : entries ⊆ entries') :
    offer.Stands entries' := by
  obtain ⟨entry, hentry, hsame⟩ := h
  exact ⟨entry, hsub hentry, hsame⟩

theorem subset_joined (entries : List Registered) (offer : Offer) :
    entries ⊆ joined entries offer := by
  rw [joined]
  split
  next => exact List.Subset.refl _
  next => exact List.subset_append_left _ _

theorem subset_joinedAll (entries : List Registered) (offers : List Offer) :
    entries ⊆ joinedAll entries offers := by
  induction offers generalizing entries with
  | nil => exact List.Subset.refl _
  | cons offer rest ih => exact List.Subset.trans (subset_joined entries offer) (ih _)

/-- A shared rule that does not clash is there once it was taken. -/
theorem stands_joined {number : Nat} (hclash : ¬offer.Clashes entries)
    (hshared : offer.take.stock = some number) : offer.Stands (joined entries offer) := by
  by_cases hid : offer.take.id ∈ entries.map (·.id)
  · have hstands : offer.Stands entries := by
      by_contra hstands
      exact hclash (clashes_of_not_stands hid hstands)
    exact hstands.mono (subset_joined entries offer)
  · rw [joined, if_neg hid]
    exact ⟨offer.take, List.mem_concat_self, rfl, number, hshared, hshared⟩

theorem stands_joinedAll (hfits : Fits entries offers)
    (hshared : ∀ offer ∈ offers, ∃ number, offer.take.stock = some number) :
    ∀ offer ∈ offers, offer.Stands (joinedAll entries offers) := by
  induction offers generalizing entries with
  | nil => exact nofun
  | cons offer rest ih =>
      rw [List.forall_mem_cons] at hshared ⊢
      obtain ⟨⟨number, hnumber⟩, hrest⟩ := hshared
      exact ⟨(stands_joined hfits.1 hnumber).mono (subset_joinedAll _ rest), ih hfits.2 hrest⟩

end Offer

namespace Registry

open Offer

variable {r r' : Registry}

/-- What comes of taking offers: all of them fit, or one clashes after those before it were
taken. -/
inductive Taking (entries : List Registered) (offers : List Offer) :
    List Registered → Option RegistryFault → Prop where
  | all : Fits entries offers → Taking entries offers (joinedAll entries offers) none
  | clash {before after : List Offer} {offer : Offer} : offers = before ++ offer :: after →
      Fits entries before → offer.Clashes (joinedAll entries before) →
      Taking entries offers (joinedAll entries before) (some (.duplicate offer.take.id))

theorem Taking.cons (hoffer : ¬offer.Clashes entries)
    (h : Taking (joined entries offer) offers entries' fault) :
    Taking entries (offer :: offers) entries' fault := by
  cases h with
  | all hfits => exact .all ⟨hoffer, hfits⟩
  | @clash before after clashing hsplit hfits hclash =>
      have hsplit' : offer :: offers = (offer :: before) ++ clashing :: after :=
        congrArg (List.cons offer) hsplit
      exact .clash hsplit' ⟨hoffer, hfits⟩ hclash

theorem holds_iff (hids : r.ids.Nodup) : r.holds offer = true ↔ offer.Stands r.entries := by
  rw [holds]
  constructor
  · intro h
    cases hentry : r.entry? offer.take.id with
    | none =>
        rw [hentry] at h
        exact absurd h Bool.false_ne_true
    | some entry =>
        rw [hentry] at h
        obtain ⟨hsome, hstock⟩ := Bool.and_eq_true_iff.1 h
        obtain ⟨number, hnumber⟩ := Option.isSome_iff_exists.1 hsome
        obtain ⟨hmem, hid⟩ := (entry?_eq_some_iff hids).1 hentry
        exact ⟨entry, hmem, hid, number, (beq_iff_eq.1 hstock).symm.trans hnumber, hnumber⟩
  · rintro ⟨entry, hmem, hid, number, hoffer, hstock⟩
    simp [(entry?_eq_some_iff hids).2 ⟨hmem, hid⟩, hoffer, hstock]

/-- A rule whose id is taken is refused, any other one is registered after all others. -/
theorem register_cases (r : Registry) (entry : Registered) :
    (entry.id ∈ r.ids ∧ r.register entry = .error (.duplicate entry.id)) ∨
      entry.id ∉ r.ids ∧ ∃ r', r.register entry = .ok r' ∧ r'.entries = r.entries ++ [entry] := by
  by_cases hid : r.contains entry.id = true
  · exact .inl ⟨contains_iff.1 hid, if_pos hid⟩
  · exact .inr ⟨fun hmem => hid (contains_iff.2 hmem), register_of_not_contains hid⟩

theorem takeOffers_taking (hids : r.ids.Nodup) (offers : List Offer) :
    Taking r.entries offers (r.takeOffers offers).1.entries (r.takeOffers offers).2 := by
  induction offers generalizing r with
  | nil => exact .all trivial
  | cons offer rest ih =>
      rw [takeOffers]
      by_cases hholds : r.holds offer = true
      · have hstands := (holds_iff hids).1 hholds
        rw [if_pos hholds]
        exact .cons (hstands.not_clashes hids) (hstands.joined_eq.symm ▸ ih hids)
      rw [if_neg hholds]
      rcases register_cases r offer.take with ⟨hid, hregister⟩ | ⟨hid, r', hregister, hentries⟩
      · have hsplit : offer :: rest = [] ++ offer :: rest := rfl
        rw [hregister]
        exact .clash hsplit trivial
          (clashes_of_not_stands hid fun hstands => hholds ((holds_iff hids).2 hstands))
      · have hjoined : joined r.entries offer = r'.entries := (if_neg hid).trans hentries.symm
        rw [hregister]
        exact .cons (not_clashes_of_free hid)
          (hjoined ▸ ih ((register_grows hregister).nodup hids))

/-! ## Discovering packages -/

/-- Why a package cannot be looked for under a name. -/
def nameFault? (name : String) : Option RegistryFault :=
  if name == "" then some .unnamedPackage
  else if name.startsWith "." then some (.relativePackage name)
  else none

/-- What is offered under a name; nothing if there is no such package. -/
def offered (catalog : Catalog) (name : String) : List Offer :=
  match catalog.find? name with
  | none => []
  | some package => offersOf catalog package

theorem takePackage_eq (catalog : Catalog) (r : Registry) (name : String) :
    r.takePackage catalog name = match nameFault? name with
      | some fault => (r, some fault)
      | none => r.takeOffers (offered catalog name) := by
  rw [takePackage, nameFault?, offered]
  split
  next => rfl
  split
  next => rfl
  cases catalog.find? name <;> rfl

theorem takePackage_of_fault {fault : RegistryFault} (r : Registry)
    (h : nameFault? name = some fault) : r.takePackage catalog name = (r, some fault) := by
  rw [takePackage_eq, h]

theorem takePackage_of_valid (r : Registry) (h : nameFault? name = none) :
    r.takePackage catalog name = r.takeOffers (offered catalog name) := by
  rw [takePackage_eq, h]

/-- What comes of a discovery: all that the packages offer fits; or an offer clashes after those
before it were taken, and nothing after it was; or there cannot be a package of some name, after
what the packages before it offer was taken. -/
inductive Discovery (catalog : Catalog) (entries : List Registered) (names : List String) :
    List Registered → Option RegistryFault → Prop where
  | all : (∀ name ∈ names, nameFault? name = none) →
      Fits entries (names.flatMap (offered catalog)) →
      Discovery catalog entries names (joinedAll entries (names.flatMap (offered catalog))) none
  | clash {earlier later : List String} {before after : List Offer} {offer : Offer} :
      names = earlier ++ later → (∀ name ∈ earlier, nameFault? name = none) →
      earlier.flatMap (offered catalog) = before ++ offer :: after →
      Fits entries before → offer.Clashes (joinedAll entries before) →
      Discovery catalog entries names (joinedAll entries before)
        (some (.duplicate offer.take.id))
  | name {earlier later : List String} {name : String} {fault : RegistryFault} :
      names = earlier ++ name :: later → (∀ name ∈ earlier, nameFault? name = none) →
      Fits entries (earlier.flatMap (offered catalog)) → nameFault? name = some fault →
      Discovery catalog entries names (joinedAll entries (earlier.flatMap (offered catalog)))
        (some fault)

theorem Discovery.cons (hname : nameFault? name = none)
    (hfits : Fits entries (offered catalog name))
    (h : Discovery catalog (joinedAll entries (offered catalog name)) names entries' fault) :
    Discovery catalog entries (name :: names) entries' fault := by
  cases h with
  | all hnames hrest =>
      rw [← joinedAll_append, ← List.flatMap_cons]
      refine .all (List.forall_mem_cons.2 ⟨hname, hnames⟩) ?_
      rw [List.flatMap_cons]
      exact fits_append.2 ⟨hfits, hrest⟩
  | @clash earlier later before after offer hsplit hnames hoffers hrest hclash =>
      rw [← joinedAll_append] at hclash ⊢
      have hoffers' : (name :: earlier).flatMap (offered catalog) =
          (offered catalog name ++ before) ++ offer :: after := by
        rw [List.flatMap_cons, hoffers, List.append_assoc]
      exact .clash (congrArg (List.cons name) hsplit) (List.forall_mem_cons.2 ⟨hname, hnames⟩)
        hoffers' (fits_append.2 ⟨hfits, hrest⟩) hclash
  | @name earlier later bad fault hsplit hnames hrest hfault =>
      rw [← joinedAll_append, ← List.flatMap_cons]
      refine .name (congrArg (List.cons name) hsplit) (List.forall_mem_cons.2 ⟨hname, hnames⟩) ?_
        hfault
      rw [List.flatMap_cons]
      exact fits_append.2 ⟨hfits, hrest⟩

theorem discover_discovery (hids : r.ids.Nodup) (catalog : Catalog) (names : List String) :
    Discovery catalog r.entries names (r.discover catalog names).1.entries
      (r.discover catalog names).2 := by
  induction names generalizing r with
  | nil => exact .all nofun trivial
  | cons name rest ih =>
      rw [discover]
      cases hname : nameFault? name with
      | some fault =>
          have hsplit : name :: rest = [] ++ name :: rest := rfl
          rw [takePackage_of_fault r hname]
          exact .name hsplit nofun trivial hname
      | none =>
          rw [takePackage_of_valid r hname]
          have htaking := takeOffers_taking hids (offered catalog name)
          have hgrows := takeOffers_grows r (offered catalog name)
          rcases hresult : r.takeOffers (offered catalog name) with ⟨r', fault⟩
          rw [hresult] at htaking hgrows
          generalize hentries : r'.entries = entries' at htaking
          cases htaking with
          | all hfits =>
              have hrest := ih (hgrows.nodup hids)
              rw [hentries] at hrest
              exact .cons hname hfits hrest
          | @clash before after offer hoffers hfits hclash =>
              have hsplit : name :: rest = [name] ++ rest := rfl
              have hoffers' : [name].flatMap (offered catalog) = before ++ offer :: after := by
                rw [List.flatMap_singleton, hoffers]
              simp only [hentries]
              exact .clash hsplit (List.forall_mem_singleton.2 hname) hoffers' hfits hclash

/-- Offers that fit are all taken. -/
theorem Discovery.fault_eq_none (h : Discovery catalog entries names entries' fault)
    (hnames : ∀ name ∈ names, nameFault? name = none)
    (hfits : Fits entries (names.flatMap (offered catalog))) : fault = none := by
  cases h with
  | all => rfl
  | clash hsplit _ hoffers _ hclash =>
      rw [hsplit, List.flatMap_append, hoffers, List.append_assoc, fits_append] at hfits
      exact absurd hclash hfits.2.1
  | name hsplit _ _ hfault =>
      have hvalid := hnames _ (hsplit ▸ List.mem_append_cons_self)
      exact absurd (hvalid.symm.trans hfault) (Option.some_ne_none _).symm

/-! ## Discovering again -/

theorem takeOffers_of_stands (hids : r.ids.Nodup)
    (h : ∀ offer ∈ offers, offer.Stands r.entries) : r.takeOffers offers = (r, none) := by
  induction offers with
  | nil => rfl
  | cons offer rest ih =>
      rw [List.forall_mem_cons] at h
      rw [takeOffers, if_pos ((holds_iff hids).2 h.1), ih h.2]

/-- Packages that offer only rules which are there already add nothing. -/
theorem discover_of_stands (hids : r.ids.Nodup) (hnames : ∀ name ∈ names, nameFault? name = none)
    (h : ∀ offer ∈ names.flatMap (offered catalog), offer.Stands r.entries) :
    r.discover catalog names = (r, none) := by
  induction names with
  | nil => rfl
  | cons name rest ih =>
      rw [List.forall_mem_cons] at hnames
      rw [List.flatMap_cons, List.forall_mem_append] at h
      rw [discover, takePackage_of_valid r hnames.1, takeOffers_of_stands hids h.1]
      exact ih hnames.2 h.2

theorem discovered_of_stands (hids : r.ids.Nodup)
    (hnames : ∀ name ∈ names, nameFault? name = none)
    (h : ∀ offer ∈ names.flatMap (offered catalog), offer.Stands r.entries) :
    r.discovered catalog names = (r, .ok 0) := by
  rw [discovered, discover_of_stands hids hnames h]
  simp

/-- What was discovered without a clash adds nothing the next time, if all of it is shared. -/
theorem discovered_again (hids : r.ids.Nodup) (h : r.discover catalog names = (r', none))
    (hshared : ∀ offer ∈ names.flatMap (offered catalog),
      ∃ number, offer.take.stock = some number) :
    r'.discovered catalog names = (r', .ok 0) := by
  have hdiscovery := discover_discovery hids catalog names
  have hids' := (discover_grows catalog r names).nodup hids
  rw [h] at hdiscovery hids'
  generalize hentries : r'.entries = entries' at hdiscovery
  cases hdiscovery with
  | all hnames hfits =>
      refine discovered_of_stands hids' hnames ?_
      rw [hentries]
      exact stands_joinedAll hfits hshared

/-! ## Histories -/

/-- A registry after a change, and why the change stopped, if it did. -/
def change (r : Registry) : Change → Registry × Option RegistryFault
  | .register entry =>
    match r.register entry with
    | .ok r' => (r', none)
    | .error fault => (r, some fault)
  | .discover catalog packages => r.discover catalog packages
  | .clear => (.empty, none)

/-- A registry after several changes, some of which may have stopped. -/
def changeAll (r : Registry) (changes : List Change) : Registry :=
  changes.foldl (fun r c => (r.change c).1) r

theorem change_nodup (hids : r.ids.Nodup) (c : Change) : (r.change c).1.ids.Nodup := by
  cases c with
  | register entry =>
      rw [change]
      split
      next r' hregister => exact (register_grows hregister).nodup hids
      next => exact hids
  | discover catalog packages => exact (discover_grows catalog r packages).nodup hids
  | clear => exact List.nodup_nil

theorem changeAll_nodup (hids : r.ids.Nodup) (changes : List Change) :
    (r.changeAll changes).ids.Nodup := by
  induction changes generalizing r with
  | nil => exact hids
  | cons c rest ih => exact ih (change_nodup hids c)

theorem change_register (r : Registry) (entry : Registered) :
    (entry.id ∈ r.ids ∧ r.change (.register entry) = (r, some (.duplicate entry.id))) ∨
      entry.id ∉ r.ids ∧ ∃ r', r.change (.register entry) = (r', none) ∧
        r'.entries = r.entries ++ [entry] := by
  rw [change]
  rcases register_cases r entry with ⟨hid, hregister⟩ | ⟨hid, r', hregister, hentries⟩
  · rw [hregister]
    exact .inl ⟨hid, rfl⟩
  · rw [hregister]
    exact .inr ⟨hid, r', rfl, hentries⟩

/-- After any history the ids are distinct, the index and the list hold the same rules in the same
order, and a rule is looked up under its own id.  From there a rule is registered last or, if its id
is taken, refused without any change; a discovery takes all offers, or those before the one that
clashes and none after it; rules that are there already are discovered again without a change; and
clearing leaves nothing. -/
theorem changeAll_in_step (changes : List Change) :
    let r := empty.changeAll changes
    (r.ids.Nodup ∧ r.keys = r.ids ∧ r.rules.map (·.info.id) = r.ids ∧
      (∀ id rule, r.get? id = some rule ↔ rule ∈ r.rules ∧ rule.info.id = id) ∧
      ∀ id, r.contains id = true ↔ id ∈ r.ids) ∧
    (∀ entry,
      (entry.id ∈ r.ids ∧ r.change (.register entry) = (r, some (.duplicate entry.id))) ∨
      entry.id ∉ r.ids ∧ ∃ r', r.change (.register entry) = (r', none) ∧
        r'.entries = r.entries ++ [entry]) ∧
    (∀ catalog names, ∃ r' fault, r.change (.discover catalog names) = (r', fault) ∧
      Discovery catalog r.entries names r'.entries fault ∧
      ((∀ name ∈ names, nameFault? name = none) →
        Fits r.entries (names.flatMap (offered catalog)) → fault = none) ∧
      r.discovered catalog names = (r', match fault with
        | none => .ok (r'.size - r.size)
        | some fault => .error fault)) ∧
    (∀ catalog names, (∀ name ∈ names, nameFault? name = none) →
      (∀ offer ∈ names.flatMap (offered catalog), offer.Stands r.entries) →
      r.discovered catalog names = (r, .ok 0)) ∧
    (∀ catalog names r', r.discover catalog names = (r', none) →
      (∀ offer ∈ names.flatMap (offered catalog), ∃ number, offer.take.stock = some number) →
      r'.discovered catalog names = (r', .ok 0)) ∧
    (r.change .clear).1.entries = [] := by
  intro r
  have hempty : (empty : Registry).ids.Nodup := List.nodup_nil
  have hids : r.ids.Nodup := changeAll_nodup hempty changes
  refine ⟨⟨hids, r.keys_eq_ids, ?_, fun id rule => get?_eq_some_iff hids, fun id => contains_iff⟩,
    change_register r, fun catalog names => ?_, fun catalog names => discovered_of_stands hids,
    fun catalog names r' => discovered_again hids, rfl⟩
  · rw [rules, List.map_map]
    rfl
  · have hdiscovery := discover_discovery hids catalog names
    refine ⟨_, _, rfl, hdiscovery, hdiscovery.fault_eq_none, ?_⟩
    rw [discovered]
    rcases r.discover catalog names with ⟨r', _ | fault⟩ <;> rfl

def idle (id : String) : Rule Memory :=
  .scripted { id, category := "test" } [] none

/-- A package of two shared rules, and one that offers the first of them again and then a rule whose
id is taken by the second. -/
def toolkit : Catalog :=
  [⟨"tools", [.shared 0 (idle "first"), .shared 1 (idle "second")], []⟩,
    ⟨"more", [.shared 0 (idle "first"), .fresh (idle "third"), .fresh (idle "second"),
      .fresh (idle "fourth")], []⟩]

/-- A discovery that fits, a rule that is refused, and a discovery that breaks off. -/
def mishaps : List Change :=
  [.discover toolkit ["tools"], .register ⟨idle "first", none⟩, .discover toolkit ["tools", "more"]]

theorem entries_mishaps : (empty.changeAll mishaps).entries =
    [⟨idle "first", some 0⟩, ⟨idle "second", some 1⟩, ⟨idle "third", none⟩] := by
  cbv

/-- The shared rule that is offered again was passed over, the rule after the clash was not taken,
and the first package is discovered again without a change. -/
theorem changeAll_in_step_mishaps :
    let r := empty.changeAll mishaps
    r.keys = ["first", "second", "third"] ∧ r.get? "third" = some (idle "third") ∧
      r.change (.register ⟨idle "third", none⟩) = (r, some (.duplicate "third")) ∧
      r.discovered toolkit ["tools"] = (r, .ok 0) := by
  intro r
  obtain ⟨⟨-, hkeys, -, hget, -⟩, hregister, -, hstands, -⟩ := changeAll_in_step mishaps
  have hids : r.ids = ["first", "second", "third"] := by
    rw [ids, entries_mishaps]
    rfl
  refine ⟨hkeys.trans hids, (hget _ _).2 ⟨?_, rfl⟩, ?_, hstands toolkit ["tools"] ?_ ?_⟩
  · rw [rules, entries_mishaps]
    exact List.mem_of_getElem? (i := 2) rfl
  · rcases hregister ⟨idle "third", none⟩ with ⟨-, hrefused⟩ | ⟨hfree, -⟩
    · exact hrefused
    · exact absurd (hids ▸ by decide) hfree
  · exact List.forall_mem_singleton.2 (by cbv)
  · have hoffers : ["tools"].flatMap (offered toolkit) =
        [.shared 0 (idle "first"), .shared 1 (idle "second")] := rfl
    rw [hoffers, entries_mishaps, List.forall_mem_cons, List.forall_mem_singleton]
    exact ⟨⟨_, List.mem_cons_self, rfl, 0, rfl, rfl⟩,
      ⟨_, List.mem_cons_of_mem _ List.mem_cons_self, rfl, 1, rfl, rfl⟩⟩

end Registry

end RubyLint
