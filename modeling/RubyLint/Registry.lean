import RubyLint.Config
import RubyLint.Rule.Basic
import RubyLint.Rule.Memory

/-!
# Registry

The rules of a run in the order in which they were registered.  That order decides in which order
the rules visit a node and in which order their edits are applied.  Beside the list stands an index
by id, from which single rules are looked up; the two are kept in step.  No two registered rules
have the same id.

Rules come from a catalog of packages.  A package offers rules in order: one that everyone who takes
it shares, or one that is made anew each time.  Taking a shared rule that is already registered
changes nothing; taking any other rule whose id is taken is a clash.
-/

namespace RubyLint

variable {μ : Type}

/-- A rule as it was registered; `stock` tells which shared rule of a catalog it is, if any.  Rules
remember values of the type `μ`. -/
structure Registered (μ : Type := Memory) where
  rule : Rule μ
  stock : Option Nat

def Registered.id (r : Registered μ) : String :=
  r.rule.info.id

/-- The registered rules in order, and the index from ids to them. -/
structure Registry (μ : Type := Memory) where
  entries : List (Registered μ)
  index : List (String × Registered μ)
  inStep : index = entries.map fun entry => (entry.id, entry)

/-- A rule that a package offers. -/
inductive Offer where
  /-- The same rule for everyone; the number tells it apart from other shared rules. -/
  | shared (number : Nat) (rule : Rule Memory)
  /-- A rule made anew each time. -/
  | fresh (rule : Rule Memory)

def Offer.take : Offer → Registered
  | .shared number rule => ⟨rule, some number⟩
  | .fresh rule => ⟨rule, none⟩

/-- A package: the rules that it offers and the names of the packages inside it. -/
structure Package where
  name : String
  offers : List Offer
  parts : List String := []

abbrev Catalog := List Package

def Catalog.find? (catalog : Catalog) (name : String) : Option Package :=
  List.find? (fun p : Package => p.name == name) catalog

/-- Adds a package in place of one of the same name. -/
def Catalog.define (catalog : Catalog) (package : Package) : Catalog :=
  package :: catalog.filter fun p => p.name != package.name

/-- Why rules cannot be registered. -/
inductive RegistryFault where
  | duplicate (id : String)
  | unnamedPackage
  | relativePackage (name : String)
deriving DecidableEq, Repr

def RegistryFault.message : RegistryFault → String
  | .duplicate id => s!"Rule id '{id}' is already registered"
  | .unnamedPackage => "Empty module name"
  | .relativePackage name => s!"A package name must not start with a point: {name}"

namespace Registry

def ofEntries (entries : List (Registered μ)) : Registry μ :=
  ⟨entries, _, rfl⟩

def empty : Registry μ :=
  ⟨[], [], rfl⟩

def size (r : Registry μ) : Nat :=
  r.entries.length

def rules (r : Registry μ) : List (Rule μ) :=
  r.entries.map (·.rule)

def ids (r : Registry μ) : List String :=
  r.entries.map (·.id)

def keys (r : Registry μ) : List String :=
  r.index.map (·.1)

def entry? (r : Registry μ) (id : String) : Option (Registered μ) :=
  r.index.lookup id

def get? (r : Registry μ) (id : String) : Option (Rule μ) :=
  (r.entry? id).map (·.rule)

def contains (r : Registry μ) (id : String) : Bool :=
  (r.entry? id).isSome

def register (r : Registry μ) (entry : Registered μ) : Except RegistryFault (Registry μ) :=
  if r.contains entry.id then .error (.duplicate entry.id)
  else
    .ok ⟨r.entries ++ [entry], r.index ++ [(entry.id, entry)], by
      rw [r.inStep, List.map_append, List.map_singleton]⟩

def ofRules (rules : List (Rule μ)) : Except RegistryFault (Registry μ) :=
  rules.foldlM (fun r rule => r.register ⟨rule, none⟩) empty

/-- Whether an offer is a shared rule that is already registered. -/
def holds (r : Registry) (offer : Offer) : Bool :=
  match r.entry? offer.take.id with
  | none => false
  | some entry => entry.stock.isSome && entry.stock == offer.take.stock

/-- Takes offers in order up to the first clash; the second part is the clash. -/
def takeOffers (r : Registry) : List Offer → Registry × Option RegistryFault
  | [] => (r, none)
  | offer :: rest =>
    if r.holds offer then r.takeOffers rest
    else
      match r.register offer.take with
      | .ok r' => r'.takeOffers rest
      | .error fault => (r, some fault)

def offersOf (catalog : Catalog) (package : Package) : List Offer :=
  package.offers ++ (package.parts.filterMap catalog.find?).flatMap (·.offers)

/-- Takes what a package of the catalog offers; a package that does not exist offers nothing. -/
def takePackage (catalog : Catalog) (r : Registry) (name : String) :
    Registry × Option RegistryFault :=
  if name == "" then (r, some .unnamedPackage)
  else if name.startsWith "." then (r, some (.relativePackage name))
  else
    match catalog.find? name with
    | none => (r, none)
    | some package => r.takeOffers (offersOf catalog package)

/-- Takes what packages offer, up to the first fault.  What was registered before the fault stays
registered. -/
def discover (catalog : Catalog) (r : Registry) : List String → Registry × Option RegistryFault
  | [] => (r, none)
  | name :: rest =>
    match r.takePackage catalog name with
    | (r', none) => discover catalog r' rest
    | (r', some fault) => (r', some fault)

/-- Takes what packages offer, and tells how many rules were registered or why it stopped. -/
def discovered (catalog : Catalog) (r : Registry) (names : List String) :
    Registry × Except RegistryFault Nat :=
  match r.discover catalog names with
  | (r', none) => (r', .ok (r'.size - r.size))
  | (r', some fault) => (r', .error fault)

/-- Whether a rule is selected by the enabled patterns and by none of the disabled ones. -/
def selected (enabled disabled : Value) (rule : Rule μ) : Except ValueFault Bool := do
  if ← Config.selects enabled rule.info.id then
    if disabled.truthy then return !(← Config.selects disabled rule.info.id) else return true
  else return false

/-- The rules that patterns select, in order; absent enabled patterns select none. -/
def select (r : Registry μ) (enabled disabled : Value) : Except ValueFault (List (Rule μ)) :=
  if enabled.truthy then r.rules.filterM (selected enabled disabled) else .ok []

def forLanguage (r : Registry μ) (language : String) : List (Rule μ) :=
  r.rules.filter fun rule => rule.info.languages.contains language

end Registry

end RubyLint
