import Mathlib.Data.List.GetD
import Mathlib.Data.List.Nodup
import RubyLint.Tree.Forest

/-!
# Construction of trees

Nodes and documents are constructed one after the other, and a construction may fail on the way.  A
construction never changes the children of an older node, and a node that has a parent keeps it; so
below the root of a document everything stays as it was attached.  The root itself has no parent to
protect it: it stays free, and its tree bound to the document, only as long as no later node takes
it up as a child.

A construction that fails hands out no node, but the children that it claimed lead to the node that
never came to be.  So there are two sorts of histories: those that keep to built nodes, and those
that are given any node that exists.  An attached tree holds out against the first sort only: a node
that never came to be lists children that it does not own, and attaching it binds these too.
-/

namespace RubyLint

/-- A construction: a node over nodes that exist, or a document over a root. -/
inductive Construction where
  | node (kind : String) (start stop : Int) (children : List NodeId) (named : Bool)
    (field : Option String)
  | document (path text : String) (root : NodeId)

namespace Construction

def children : Construction → List NodeId
  | .node _ _ _ children _ _ => children
  | .document _ _ _ => []

def given : Construction → List NodeId
  | .node _ _ _ children _ _ => children
  | .document _ _ root => [root]

end Construction

namespace Forest

/-- The forest after a construction, whether that succeeds or fails. -/
def perform (f : Forest) : Construction → Forest
  | .node kind start stop children named field => (f.build kind start stop children named field).1
  | .document path text root => (f.attach path text root).1

def performAll (f : Forest) (steps : List Construction) : Forest :=
  steps.foldl perform f

/-- A node whose construction succeeded. -/
def Built (f : Forest) (id : NodeId) : Prop :=
  (f.entry id).complete = true

instance (f : Forest) (id : NodeId) : Decidable (f.Built id) :=
  inferInstanceAs (Decidable (_ = _))

/-- A node whose construction began, whether it succeeded or not. -/
def Begun (f : Forest) (id : NodeId) : Prop :=
  id < f.nodes.length

instance (f : Forest) (id : NodeId) : Decidable (f.Begun id) :=
  inferInstanceAs (Decidable (_ < _))

/-- Constructions that are given only nodes of one sort, judged in the forest that the constructions
before left. -/
def Supplied (sort : Forest → NodeId → Prop) (f : Forest) : List Construction → Prop
  | [] => True
  | step :: rest => (∀ id ∈ step.given, sort f id) ∧ (f.perform step).Supplied sort rest

instance decidableSupplied (sort : Forest → NodeId → Prop) [∀ f id, Decidable (sort f id)]
    (f : Forest) : (steps : List Construction) → Decidable (f.Supplied sort steps)
  | [] => .isTrue trivial
  | step :: rest =>
    have := decidableSupplied sort (f.perform step) rest
    inferInstanceAs (Decidable (_ ∧ _))

/-- Constructions that keep to the nodes which earlier ones handed out. -/
def Allows (f : Forest) (steps : List Construction) : Prop :=
  f.Supplied Built steps

/-- Constructions that are given any node that exists, also one that is reached only as the parent
of a child that it claimed before its own construction failed. -/
def Admits (f : Forest) (steps : List Construction) : Prop :=
  f.Supplied Begun steps

instance (f : Forest) (steps : List Construction) : Decidable (f.Allows steps) :=
  inferInstanceAs (Decidable (f.Supplied _ _))

instance (f : Forest) (steps : List Construction) : Decidable (f.Admits steps) :=
  inferInstanceAs (Decidable (f.Supplied _ _))

/-- The nodes of the tree below a node, this one included. -/
inductive Within (f : Forest) (root : NodeId) : NodeId → Prop where
  | root : f.Within root root
  | child {p c : NodeId} : f.Within root p → c ∈ (f.entry p).children → f.Within root c

variable {f g h : Forest} {id n p c root : NodeId} {children : List NodeId}
variable {sort sort' : Forest → NodeId → Prop} {steps : List Construction}

/-! ## Histories -/

/-- What every construction over nodes of a sort keeps is kept by all of them together. -/
theorem Supplied.keeps (inv : Forest → Prop) (hsteps : f.Supplied sort steps)
    (hkeep : ∀ {g step}, inv g → (∀ id ∈ step.given, sort g id) → inv (g.perform step))
    (hf : inv f) : inv (f.performAll steps) := by
  induction steps generalizing f with
  | nil => exact hf
  | cons step rest ih =>
      obtain ⟨hgiven, hrest⟩ := hsteps
      exact ih hrest (hkeep hf hgiven)

theorem Supplied.mono (himp : ∀ g id, sort g id → sort' g id) (hsteps : f.Supplied sort steps) :
    f.Supplied sort' steps := by
  induction steps generalizing f with
  | nil => trivial
  | cons step rest ih =>
      obtain ⟨hgiven, hrest⟩ := hsteps
      exact ⟨fun id hid => himp f id (hgiven id hid), ih hrest⟩

theorem supplied_append {before after : List Construction} :
    f.Supplied sort (before ++ after) ↔
      f.Supplied sort before ∧ (f.performAll before).Supplied sort after := by
  induction before generalizing f with
  | nil => simp [Supplied, performAll]
  | cons step rest ih =>
      rw [List.cons_append, Supplied, Supplied, ih, and_assoc]
      rfl

theorem performAll_append (f : Forest) (before after : List Construction) :
    f.performAll (before ++ after) = (f.performAll before).performAll after :=
  List.foldl_append

/-! ## Entries -/

theorem entry_of_length_le (hn : f.nodes.length ≤ n) : f.entry n = default := by
  rw [entry, List.getD_eq_default _ _ hn]

/-- A number that is not in use is not in use in any other forest of this size. -/
theorem entry_eq_of_not_lt (hlength : g.nodes.length = f.nodes.length)
    (hn : ¬n < f.nodes.length) : g.entry n = f.entry n := by
  rw [entry_of_length_le (Nat.not_lt.1 hn), entry_of_length_le (hlength ▸ Nat.not_lt.1 hn)]

theorem lt_length_of_ne (hn : f.entry n ≠ default) : n < f.nodes.length := by
  by_contra hlt
  exact hn (entry_of_length_le (Nat.not_lt.1 hlt))

theorem lt_length_of_mem_children (hc : c ∈ (f.entry p).children) : p < f.nodes.length := by
  refine lt_length_of_ne fun hnone => ?_
  rw [hnone] at hc
  nomatch hc

theorem lt_length_of_parent (hparent : (f.entry c).parent = some p) : c < f.nodes.length := by
  refine lt_length_of_ne fun hnone => ?_
  rw [hnone] at hparent
  nomatch hparent

theorem Built.lt_length (hn : f.Built n) : n < f.nodes.length := by
  refine lt_length_of_ne fun hnone => ?_
  rw [Built, hnone] at hn
  exact Bool.false_ne_true hn

theorem Allows.admits (hsteps : f.Allows steps) : f.Admits steps :=
  hsteps.mono fun _ _ hn => hn.lt_length

theorem entry_modify (f : Forest) (id n : NodeId) (change : NodeEntry → NodeEntry)
    (hn : n < f.nodes.length) :
    (f.modify id change).entry n = if id = n then change (f.entry n) else f.entry n := by
  simp only [entry, modify, List.getD_eq_getElem?_getD, List.getElem?_modify]
  rw [List.getElem?_eq_getElem hn]
  split <;> rfl

theorem length_modify (f : Forest) (id : NodeId) (change : NodeEntry → NodeEntry) :
    (f.modify id change).nodes.length = f.nodes.length := by
  rw [modify, List.length_modify]

def adding (f : Forest) (e : NodeEntry) : Forest :=
  { f with nodes := f.nodes ++ [e] }

theorem length_adding (f : Forest) (e : NodeEntry) :
    (f.adding e).nodes.length = f.nodes.length + 1 :=
  List.length_append

theorem entry_adding_self (f : Forest) (e : NodeEntry) : (f.adding e).entry f.nodes.length = e := by
  simp [adding, entry]

theorem entry_adding_of_lt (e : NodeEntry) (hn : n < f.nodes.length) :
    (f.adding e).entry n = f.entry n := by
  simp [adding, entry, List.getElem?_append_left hn]

/-! ## Taking up children -/

def taking (f : Forest) (parent index child : Nat) : Forest :=
  f.modify child fun e => { e with parent := some parent, index }

theorem length_taking (f : Forest) (parent index child : Nat) :
    (f.taking parent index child).nodes.length = f.nodes.length :=
  length_modify f child _

theorem entry_taking (parent index child : Nat) (hn : n < f.nodes.length) :
    (f.taking parent index child).entry n =
      if child = n then { f.entry n with parent := some parent, index } else f.entry n :=
  entry_modify f child n _ hn

theorem claim_free {child : NodeId} (rest : List NodeId) (parent index : Nat)
    (hfree : (f.entry child).parent = none) : f.claim parent index (child :: rest) =
      (f.taking parent index child).claim parent (index + 1) rest := by
  simp only [claim, hfree, taking]

/-- A later state in which a parent has taken up free children, each once, from a sibling index
on. -/
structure Took (f g : Forest) (parent index : Nat) (taken : List NodeId) : Prop where
  length : g.nodes.length = f.nodes.length
  documents : g.documents = f.documents
  nodup : taken.Nodup
  free : ∀ c ∈ taken, (f.entry c).parent = none
  entry : ∀ n < f.nodes.length, g.entry n =
    if n ∈ taken then { f.entry n with parent := some parent, index := index + taken.idxOf n }
    else f.entry n

theorem Took.nil (f : Forest) (parent index : Nat) : Took f f parent index [] where
  length := rfl
  documents := rfl
  nodup := .nil
  free _ hc := nomatch hc
  entry _ _ := rfl

/-- A child that is taken up is free no more, so it is not among those taken up later. -/
theorem Took.cons {parent index : Nat} {taken : List NodeId} (hc : c < f.nodes.length)
    (hfree : (f.entry c).parent = none)
    (htook : Took (f.taking parent index c) g parent (index + 1) taken) :
    Took f g parent index (c :: taken) := by
  have hentry : ∀ {n : NodeId}, n < f.nodes.length → c ≠ n →
      (f.taking parent index c).entry n = f.entry n := by
    intro n hn hne
    rw [entry_taking parent index c hn, if_neg hne]
  have hself := entry_taking parent index c hc
  rw [if_pos rfl] at hself
  have hnot : c ∉ taken := by
    intro hmem
    have hlater := htook.free c hmem
    rw [hself] at hlater
    nomatch hlater
  refine ⟨htook.length.trans (f.length_taking parent index c), htook.documents,
    List.nodup_cons.2 ⟨hnot, htook.nodup⟩, ?_, ?_⟩
  · intro n hn
    rcases List.mem_cons.1 hn with rfl | hmem
    · exact hfree
    · by_cases hold : n < f.nodes.length
      · rw [← hentry hold fun heq => hnot (heq ▸ hmem)]
        exact htook.free n hmem
      · rw [entry_of_length_le (Nat.not_lt.1 hold)]
        rfl
  · intro n hn
    have hlater := htook.entry n (by rwa [length_taking])
    by_cases heq : c = n
    · subst heq
      rw [hlater, if_neg hnot, hself, if_pos List.mem_cons_self, List.idxOf_cons_self,
        Nat.add_zero]
    · have hplace : index + 1 + taken.idxOf n = index + (c :: taken).idxOf n := by
        rw [List.idxOf_cons_ne taken heq]
        omega
      rw [hlater, hentry hn heq, hplace]
      simp only [List.mem_cons, Ne.symm heq, false_or]

/-- Claiming children takes up those before the first one that has a parent by then; that parent is
named in the fault. -/
theorem claim_took (f : Forest) (parent index : Nat) (children : List NodeId)
    (hchildren : ∀ c ∈ children, c < f.nodes.length) :
    ∃ taken rest, children = taken ++ rest ∧
      Took f (f.claim parent index children).1 parent index taken ∧
      (rest = [] ∧ (f.claim parent index children).2 = .ok () ∨
        ∃ c after owner, rest = c :: after ∧
          ((f.claim parent index children).1.entry c).parent = some owner ∧
          (f.claim parent index children).2 =
            .error (.alreadyOwned ((f.claim parent index children).1.label c)
              ((f.claim parent index children).1.label owner))) := by
  induction children generalizing f index with
  | nil => exact ⟨[], [], rfl, .nil f parent index, .inl ⟨rfl, rfl⟩⟩
  | cons child children ih =>
      rw [List.forall_mem_cons] at hchildren
      obtain ⟨hchild, hrest⟩ := hchildren
      cases howner : (f.entry child).parent with
      | some owner =>
          refine ⟨[], child :: children, rfl, ?_, .inr ⟨child, children, owner, rfl, ?_, ?_⟩⟩
          · simpa only [claim, howner] using Took.nil f parent index
          · simp only [claim, howner]
          · simp only [claim, howner]
      | none =>
          rw [claim_free children parent index howner]
          obtain ⟨taken, rest, rfl, htook, houtcome⟩ :=
            ih (f.taking parent index child) (index + 1) (by rwa [length_taking])
          exact ⟨child :: taken, rest, rfl, htook.cons hchild howner, houtcome⟩

/-- Nodes that are older than a new one are taken up by it at their places. -/
theorem Took.entry_of_lt {e : NodeEntry} {parent index : Nat} {taken : List NodeId}
    (htook : Took (f.adding e) g parent index taken) (hn : n < f.nodes.length) :
    g.entry n =
      if n ∈ taken then { f.entry n with parent := some parent, index := index + taken.idxOf n }
      else f.entry n := by
  rw [htook.entry n (f.length_adding e ▸ Nat.lt_succ_of_lt hn), entry_adding_of_lt e hn]

/-- A new node is not taken up by itself. -/
theorem Took.entry_new {e : NodeEntry} {parent index : Nat} {taken : List NodeId}
    (htook : Took (f.adding e) g parent index taken)
    (htaken : ∀ c ∈ taken, c < f.nodes.length) : g.entry f.nodes.length = e := by
  have hnot : f.nodes.length ∉ taken := fun hmem => Nat.lt_irrefl _ (htaken _ hmem)
  rw [htook.entry _ (f.length_adding e ▸ Nat.lt_succ_self _), if_neg hnot, entry_adding_self]

/-- Marking a new node as built once its children are taken up is the same as adding it as built
before. -/
theorem Took.finish {e : NodeEntry} {parent index : Nat} {taken : List NodeId}
    (htook : Took (f.adding e) g parent index taken)
    (htaken : ∀ c ∈ taken, c < f.nodes.length) :
    Took (f.adding { e with complete := true })
      (g.modify f.nodes.length fun e => { e with complete := true }) parent index taken := by
  have hlength := htook.length.trans (f.length_adding e)
  refine ⟨?_, htook.documents, htook.nodup, ?_, ?_⟩
  · rw [length_modify, hlength, length_adding]
  · intro c hc
    have hfree := htook.free c hc
    rw [entry_adding_of_lt e (htaken c hc)] at hfree
    rwa [entry_adding_of_lt _ (htaken c hc)]
  · intro n hn
    rw [length_adding] at hn
    rw [entry_modify g _ n _ (hlength ▸ hn)]
    rcases Nat.lt_succ_iff_lt_or_eq.1 hn with hlt | rfl
    · rw [if_neg (Nat.ne_of_gt hlt), htook.entry_of_lt hlt, entry_adding_of_lt _ hlt]
    · have hnot : f.nodes.length ∉ taken := fun hmem => Nat.lt_irrefl _ (htaken _ hmem)
      rw [if_pos rfl, if_neg hnot, htook.entry_new htaken, entry_adding_self]

/-- The construction of a node whose range is in order adds an entry and takes up the children
before the first one that has a parent by then.  The node is built if all were taken up. -/
theorem build_took (f : Forest) (kind : String) (start stop : Int) (children : List NodeId)
    (named : Bool) (field : Option String) (hchildren : ∀ c ∈ children, c < f.nodes.length)
    (hrange : ¬(start < 0 ∨ stop < start)) :
    ∃ taken rest, children = taken ++ rest ∧
      Took (f.adding ⟨kind, start.toNat, stop.toNat, named, field, children, none, 0, none,
          rest.isEmpty⟩) (f.build kind start stop children named field).1 f.nodes.length 0 taken ∧
      (rest = [] ∧ (f.build kind start stop children named field).2 = .ok f.nodes.length ∨
        ∃ c after owner, rest = c :: after ∧
          ((f.build kind start stop children named field).1.entry c).parent = some owner ∧
          (f.build kind start stop children named field).2 =
            .error (.alreadyOwned ((f.build kind start stop children named field).1.label c)
              ((f.build kind start stop children named field).1.label owner))) := by
  let fresh : NodeEntry :=
    ⟨kind, start.toNat, stop.toNat, named, field, children, none, 0, none, false⟩
  obtain ⟨taken, rest, hsplit, htook, houtcome⟩ :=
    (f.adding fresh).claim_took f.nodes.length 0 children
      fun c hc => f.length_adding fresh ▸ Nat.lt_succ_of_lt (hchildren c hc)
  refine ⟨taken, rest, hsplit, ?_⟩
  rw [build, if_neg hrange]
  dsimp only
  rw [← adding]
  rcases hresult : (f.adding fresh).claim f.nodes.length 0 children with ⟨claimed, fault | done⟩
  · rw [hresult] at htook houtcome
    rcases houtcome with ⟨-, hok⟩ | ⟨c, after, owner, rfl, howner, hfault⟩
    · nomatch hok
    · exact ⟨htook, .inr ⟨c, after, owner, rfl, howner, by simpa using hfault⟩⟩
  · rw [hresult] at htook houtcome
    rcases houtcome with ⟨rfl, -⟩ | ⟨c, after, owner, rfl, howner, hfault⟩
    · refine ⟨htook.finish fun c hc => ?_, .inl ⟨rfl, rfl⟩⟩
      exact hchildren c (hsplit ▸ List.mem_append_left _ hc)
    · nomatch hfault

/-- What the construction of a node does unless its range is out of order: it adds one entry, which
is free and bound to no document, and changes nothing but the parent and the index of free
children. -/
structure Grown (f g : Forest) (taken : List NodeId) (done : Bool) : Prop where
  length : g.nodes.length = f.nodes.length + 1
  documents : g.documents = f.documents
  children : (g.entry f.nodes.length).children = taken
  complete : (g.entry f.nodes.length).complete = done
  free : (g.entry f.nodes.length).parent = none
  unbound : (g.entry f.nodes.length).document = none
  forward : (g.entry f.nodes.length).start ≤ (g.entry f.nodes.length).stop
  older : ∀ n < f.nodes.length, g.entry n = f.entry n ∨
    (f.entry n).parent = none ∧ ∃ i, taken[i]? = some n ∧
      g.entry n = { f.entry n with parent := some f.nodes.length, index := i }
  claimed : done = true → ∀ i c, taken[i]? = some c →
    (g.entry c).parent = some f.nodes.length ∧ (g.entry c).index = i

theorem build_cases (f : Forest) (kind : String) (start stop : Int) (children : List NodeId)
    (named : Bool) (field : Option String) (hchildren : ∀ c ∈ children, c < f.nodes.length) :
    (f.build kind start stop children named field).1 = f ∨
      ∃ done, Grown f (f.build kind start stop children named field).1 children done := by
  by_cases hrange : start < 0 ∨ stop < start
  · exact .inl (by rw [build, if_pos hrange])
  right
  have hforward : start.toNat ≤ stop.toNat := by omega
  obtain ⟨taken, rest, rfl, htook, -⟩ :=
    f.build_took kind start stop children named field hchildren hrange
  have htaken : ∀ c ∈ taken, c < f.nodes.length :=
    fun c hc => hchildren c (List.mem_append_left rest hc)
  have hnew := htook.entry_new htaken
  refine ⟨rest.isEmpty, htook.length.trans (f.length_adding _), htook.documents, by rw [hnew],
    by rw [hnew], by rw [hnew], by rw [hnew], by rwa [hnew], ?_, ?_⟩
  · intro n hn
    rw [htook.entry_of_lt hn]
    split
    next hmem =>
      have hfree := htook.free n hmem
      rw [entry_adding_of_lt _ hn] at hfree
      refine .inr ⟨hfree, taken.idxOf n, ?_, by rw [Nat.zero_add]⟩
      rw [List.getElem?_append_left (List.idxOf_lt_length_of_mem hmem), List.getElem?_idxOf hmem]
    next => exact .inl rfl
  · intro hdone i c hc
    obtain rfl := List.isEmpty_iff.1 hdone
    rw [List.append_nil] at hc
    have hmem := List.mem_of_getElem? hc
    obtain ⟨hi, rfl⟩ := List.getElem?_eq_some_iff.1 hc
    rw [htook.entry_of_lt (htaken _ hmem), if_pos hmem, htook.nodup.idxOf_getElem i hi,
      Nat.zero_add]
    exact ⟨rfl, rfl⟩

/-! ## Binding to a document -/

theorem foldl_bind_spec (f : Forest) (number : Nat) (bound : List NodeId) :
    let g := bound.foldl (fun (f : Forest) id =>
      f.modify id fun e => { e with document := some number }) f
    g.nodes.length = f.nodes.length ∧ g.documents = f.documents ∧
      ∀ n < f.nodes.length, g.entry n =
        if n ∈ bound then { f.entry n with document := some number } else f.entry n := by
  induction bound generalizing f with
  | nil => simp
  | cons id rest ih =>
      obtain ⟨hlength, hdocuments, hentry⟩ :=
        ih (f.modify id fun e => { e with document := some number })
      rw [length_modify] at hlength hentry
      refine ⟨hlength, hdocuments, fun n hn => ?_⟩
      rw [List.foldl_cons, hentry n hn, entry_modify f id n _ hn]
      by_cases hid : id = n
      · simp [hid]
      · simp [hid, Ne.symm hid]

/-- Attaching a root changes nothing but the document of the nodes below it.  It fails, and then
changes nothing at all, if the root has a parent or a document or ends beyond the text. -/
theorem attach_cases (f : Forest) (path text : String) (root : NodeId) :
    (∃ fault, f.attach path text root = (f, .error fault)) ∨
      (f.entry root).parent = none ∧ (f.entry root).document = none ∧
        (f.entry root).stop ≤ (Source.ofText path text).data.length ∧
        (f.attach path text root).2 = .ok f.documents.length ∧
        (f.attach path text root).1.nodes.length = f.nodes.length ∧
        (f.attach path text root).1.documents = f.documents ++ [Source.ofText path text] ∧
        ∀ n < f.nodes.length, (f.attach path text root).1.entry n =
          if n ∈ f.below root then { f.entry n with document := some f.documents.length }
          else f.entry n := by
  rw [attach]
  split
  next => exact .inl ⟨_, rfl⟩
  next hparent =>
    split
    next => exact .inl ⟨_, rfl⟩
    next hdocument =>
      split
      next => exact .inl ⟨_, rfl⟩
      next hstop =>
        obtain ⟨hlength, hdocuments, hentry⟩ :=
          f.foldl_bind_spec f.documents.length (f.below root)
        exact .inr ⟨by simpa using hparent, by simpa using hdocument, Nat.not_lt.1 hstop, rfl,
          hlength, congrArg (· ++ [_]) rfl, hentry⟩

/-! ## What every construction keeps -/

/-- A later state of a forest: children and success of the older nodes are what they were, and those
that had a parent have it, at the same place. -/
structure Extends (f g : Forest) : Prop where
  length : f.nodes.length ≤ g.nodes.length
  children : ∀ n < f.nodes.length, (g.entry n).children = (f.entry n).children
  complete : ∀ n < f.nodes.length, (g.entry n).complete = (f.entry n).complete
  owner : ∀ n < f.nodes.length, (f.entry n).parent ≠ none →
    (g.entry n).parent = (f.entry n).parent ∧ (g.entry n).index = (f.entry n).index

theorem Extends.refl (f : Forest) : Extends f f :=
  ⟨Nat.le_refl _, fun _ _ => rfl, fun _ _ => rfl, fun _ _ _ => ⟨rfl, rfl⟩⟩

theorem Extends.trans (hfg : Extends f g) (hgh : Extends g h) : Extends f h where
  length := Nat.le_trans hfg.length hgh.length
  children n hn := by
    rw [hgh.children n (Nat.lt_of_lt_of_le hn hfg.length), hfg.children n hn]
  complete n hn := by
    rw [hgh.complete n (Nat.lt_of_lt_of_le hn hfg.length), hfg.complete n hn]
  owner n hn howned := by
    obtain ⟨hparent, hindex⟩ := hfg.owner n hn howned
    obtain ⟨hparent', hindex'⟩ :=
      hgh.owner n (Nat.lt_of_lt_of_le hn hfg.length) (hparent ▸ howned)
    exact ⟨hparent'.trans hparent, hindex'.trans hindex⟩

theorem Extends.built (hfg : Extends f g) (hn : f.Built n) : g.Built n := by
  rw [Built, hfg.complete n hn.lt_length]
  exact hn

theorem Grown.extends {done : Bool} (hgrown : Grown f g children done) : Extends f g := by
  refine ⟨hgrown.length ▸ Nat.le_succ _, ?_, ?_, ?_⟩ <;> intro n hn
  · rcases hgrown.older n hn with heq | ⟨-, i, -, heq⟩ <;> rw [heq]
  · rcases hgrown.older n hn with heq | ⟨-, i, -, heq⟩ <;> rw [heq]
  · intro howned
    rcases hgrown.older n hn with heq | ⟨hfree, -⟩
    · rw [heq]
      exact ⟨rfl, rfl⟩
    · exact absurd hfree howned

/-- Attaching a root leaves a later state, whether it succeeds or fails. -/
theorem extends_attach (f : Forest) (path text : String) (root : NodeId) :
    Extends f (f.attach path text root).1 := by
  rcases f.attach_cases path text root with ⟨fault, hsame⟩ | ⟨-, -, -, -, hlength, -, hentry⟩
  · rw [hsame]
    exact .refl f
  · refine ⟨Nat.le_of_eq hlength.symm, ?_, ?_, ?_⟩ <;> intro n hn <;> rw [hentry n hn]
    · split <;> rfl
    · split <;> rfl
    · intro _
      split <;> exact ⟨rfl, rfl⟩

/-- Every construction over built nodes leaves a later state, whether it succeeds or fails. -/
theorem extends_perform {step : Construction} (hgiven : ∀ id ∈ step.given, f.Built id) :
    Extends f (f.perform step) := by
  cases step with
  | node kind start stop children named field =>
      rcases f.build_cases kind start stop children named field
        fun c hc => (hgiven c hc).lt_length with hsame | ⟨done, hgrown⟩
      · rw [perform, hsame]
        exact .refl f
      · exact hgrown.extends
  | document path text root => exact f.extends_attach path text root

/-- A forest in which children are older than the node over them, and the children of a built node
have it as their parent, each at its place. -/
structure Rooted (f : Forest) : Prop where
  older : ∀ p, ∀ c ∈ (f.entry p).children, c < p
  owned : ∀ p, f.Built p → ∀ i c, (f.entry p).children[i]? = some c →
    (f.entry c).parent = some p ∧ (f.entry c).index = i

/-- A rooted forest in which the children of a node were built before it. -/
structure Sound (f : Forest) : Prop extends Rooted f where
  built : ∀ p, ∀ c ∈ (f.entry p).children, f.Built c

theorem empty_rooted : empty.Rooted where
  older _ _ hc := nomatch hc
  owned _ hp := nomatch hp

theorem empty_sound : empty.Sound where
  toRooted := empty_rooted
  built _ _ hc := nomatch hc

theorem Extends.children_eq (hfg : Extends f g) (hlength : g.nodes.length = f.nodes.length)
    (p : NodeId) : (g.entry p).children = (f.entry p).children := by
  by_cases hp : p < f.nodes.length
  · exact hfg.children p hp
  · rw [entry_eq_of_not_lt hlength hp]

/-- A later state owns the children of an older built node as before. -/
theorem Rooted.owned_later (hf : f.Rooted) (hfg : Extends f g) {p c : NodeId} {i : Nat}
    (hlt : p < f.nodes.length) (hp : g.Built p) (hc : (f.entry p).children[i]? = some c) :
    (g.entry c).parent = some p ∧ (g.entry c).index = i := by
  rw [Built, hfg.complete p hlt] at hp
  obtain ⟨hparent, hindex⟩ := hf.owned p hp i c hc
  have hold : c < f.nodes.length := Nat.lt_trans (hf.older p c (List.mem_of_getElem? hc)) hlt
  obtain ⟨hparent', hindex'⟩ := hfg.owner c hold (by rw [hparent]; nofun)
  exact ⟨hparent'.trans hparent, hindex'.trans hindex⟩

theorem Rooted.of_extends (hf : f.Rooted) (hfg : Extends f g)
    (hlength : g.nodes.length = f.nodes.length) : g.Rooted where
  older p c hc := hf.older p c (hfg.children_eq hlength p ▸ hc)
  owned p hp i c hc := by
    rw [hfg.children_eq hlength] at hc
    exact hf.owned_later hfg (hlength ▸ hp.lt_length) hp hc

theorem Sound.of_extends (hsound : f.Sound) (hfg : Extends f g)
    (hlength : g.nodes.length = f.nodes.length) : g.Sound where
  toRooted := hsound.toRooted.of_extends hfg hlength
  built p c hc := hfg.built (hsound.built p c (hfg.children_eq hlength p ▸ hc))

/-- The entries of a forest that has grown: those of the older nodes, some of which were taken up,
that of the new node, and those of the numbers that are not in use yet. -/
theorem Grown.entry_cases {done : Bool} (hgrown : Grown f g children done) (n : NodeId) :
    (n < f.nodes.length ∧ (g.entry n = f.entry n ∨ n ∈ children ∧
      ∃ i, g.entry n = { f.entry n with parent := some f.nodes.length, index := i })) ∨
        n = f.nodes.length ∨ g.entry n = default := by
  rcases Nat.lt_trichotomy n f.nodes.length with hlt | heq | hgt
  · refine .inl ⟨hlt, ?_⟩
    rcases hgrown.older n hlt with hsame | ⟨-, i, hi, htaken⟩
    · exact .inl hsame
    · exact .inr ⟨List.mem_of_getElem? hi, i, htaken⟩
  · exact .inr (.inl heq)
  · exact .inr (.inr (entry_of_length_le (hgrown.length ▸ hgt)))

/-- The children of the nodes of a forest that has grown: the older nodes have theirs, and the new
one those that it was given. -/
theorem Grown.children_cases {done : Bool} (hgrown : Grown f g children done) (p : NodeId) :
    p < f.nodes.length ∧ (g.entry p).children = (f.entry p).children ∨
      p = f.nodes.length ∧ (g.entry p).children = children ∨ (g.entry p).children = [] := by
  rcases hgrown.entry_cases p with ⟨hp, -⟩ | rfl | hnone
  · exact .inl ⟨hp, hgrown.extends.children p hp⟩
  · exact .inr (.inl ⟨rfl, hgrown.children⟩)
  · rw [hnone]
    exact .inr (.inr rfl)

theorem Grown.rooted {done : Bool} (hf : f.Rooted) (hgrown : Grown f g children done)
    (hchildren : ∀ c ∈ children, c < f.nodes.length) : g.Rooted where
  older p c hc := by
    rcases hgrown.children_cases p with ⟨-, heq⟩ | ⟨rfl, heq⟩ | heq <;> rw [heq] at hc
    · exact hf.older p c hc
    · exact hchildren c hc
    · nomatch hc
  owned p hp i c hc := by
    rcases hgrown.children_cases p with ⟨hlt, heq⟩ | ⟨rfl, heq⟩ | heq <;> rw [heq] at hc
    · exact hf.owned_later hgrown.extends hlt hp hc
    · rw [Built, hgrown.complete] at hp
      exact hgrown.claimed hp i c hc
    · nomatch hc

theorem Grown.sound {done : Bool} (hsound : f.Sound) (hgrown : Grown f g children done)
    (hchildren : ∀ c ∈ children, f.Built c) : g.Sound where
  toRooted := hgrown.rooted hsound.toRooted fun c hc => (hchildren c hc).lt_length
  built p c hc := by
    rcases hgrown.children_cases p with ⟨-, heq⟩ | ⟨rfl, heq⟩ | heq <;> rw [heq] at hc
    · exact hgrown.extends.built (hsound.built p c hc)
    · exact hgrown.extends.built (hchildren c hc)
    · nomatch hc

/-- Every construction over built nodes keeps a forest sound. -/
theorem Sound.perform (hsound : f.Sound) {step : Construction}
    (hgiven : ∀ id ∈ step.given, f.Built id) : (f.perform step).Sound := by
  cases step with
  | node kind start stop children named field =>
      rcases f.build_cases kind start stop children named field
        fun c hc => (hgiven c hc).lt_length with hsame | ⟨done, hgrown⟩
      · rw [Forest.perform, hsame]
        exact hsound
      · exact hgrown.sound hsound hgiven
  | document path text root =>
      refine hsound.of_extends (extends_perform hgiven) ?_
      rcases f.attach_cases path text root with ⟨fault, hsame⟩ | ⟨-, -, -, -, hlength, -⟩
      · rw [Forest.perform, hsame]
      · exact hlength

theorem performAll_spec (hsound : f.Sound) (hsteps : f.Allows steps) :
    (f.performAll steps).Sound ∧ Extends f (f.performAll steps) := by
  refine Supplied.keeps (fun g => g.Sound ∧ Extends f g) hsteps ?_ ⟨hsound, .refl f⟩
  rintro g step ⟨hg, hextends⟩ hgiven
  exact ⟨hg.perform hgiven, hextends.trans (extends_perform hgiven)⟩

/-! ## The tree below a node -/

theorem Within.built (hsound : f.Sound) (hroot : f.Built root) (hn : f.Within root n) :
    f.Built n := by
  cases hn with
  | root => exact hroot
  | child _ hc => exact hsound.built _ _ hc

theorem Within.trans {q : NodeId} (hq : f.Within root q) (hn : f.Within q n) :
    f.Within root n := by
  induction hn with
  | root => exact hq
  | child _ hc ih => exact ih.child hc

theorem Within.le (hf : f.Rooted) (hn : f.Within root n) : n ≤ root := by
  induction hn with
  | root => exact Nat.le_refl root
  | child _ hc ih => exact Nat.le_trans (Nat.le_of_lt (hf.older _ _ hc)) ih

/-- Below a built root every other node has its parent within the tree. -/
theorem Within.exists_parent (hsound : f.Sound) (hroot : f.Built root) (hn : f.Within root n)
    (hne : n ≠ root) : ∃ p, (f.entry n).parent = some p ∧ f.Within root p := by
  cases hn with
  | root => exact absurd rfl hne
  | @child p _ hp hc =>
      obtain ⟨i, hi⟩ := List.getElem?_of_mem hc
      exact ⟨p, (hsound.owned p (hp.built hsound hroot) i n hi).1, hp⟩

/-- Of two trees that share a node one lies below the root of the other. -/
theorem Within.comparable (hsound : f.Sound) {root' : NodeId} (hroot : f.Built root)
    (hroot' : f.Built root') (hn : f.Within root n) (hn' : f.Within root' n) :
    f.Within root root' ∨ f.Within root' root := by
  induction hn with
  | root => exact .inr hn'
  | @child p c hp hc ih =>
      by_cases hne : c = root'
      · exact .inl (hne ▸ hp.child hc)
      · obtain ⟨i, hi⟩ := List.getElem?_of_mem hc
        have hparent := (hsound.owned p (hp.built hsound hroot) i c hi).1
        obtain ⟨p', hparent', hp'⟩ := hn'.exists_parent hsound hroot' hne
        rw [hparent] at hparent'
        exact ih (Option.some.inj hparent' ▸ hp')

/-- Two different trees whose roots have no parent share no node. -/
theorem Within.root_unique (hsound : f.Sound) {root' : NodeId} (hroot : f.Built root)
    (hroot' : f.Built root') (hfree : (f.entry root).parent = none)
    (hfree' : (f.entry root').parent = none) (hn : f.Within root n) (hn' : f.Within root' n) :
    root = root' := by
  by_contra hne
  rcases hn.comparable hsound hroot hroot' hn' with hbelow | hbelow
  · obtain ⟨p, hparent, -⟩ := hbelow.exists_parent hsound hroot (Ne.symm hne)
    rw [hfree'] at hparent
    nomatch hparent
  · obtain ⟨p, hparent, -⟩ := hbelow.exists_parent hsound hroot' hne
    rw [hfree] at hparent
    nomatch hparent

/-- A tree is its root and the trees of the children. -/
theorem within_iff : f.Within root n ↔ n = root ∨ ∃ c ∈ (f.entry root).children, f.Within c n := by
  constructor
  · intro hn
    induction hn with
    | root => exact .inl rfl
    | @child p n _ hc ih =>
        rcases ih with rfl | ⟨c, hmem, hp⟩
        · exact .inr ⟨n, hc, .root⟩
        · exact .inr ⟨c, hmem, hp.child hc⟩
  · rintro (rfl | ⟨c, hc, hn⟩)
    · exact .root
    · exact (Within.root.child hc).trans hn

/-- A node lies no deeper below another one than its number allows, since every child is older than
the node over it. -/
theorem mem_levels_iff (hf : f.Rooted) {count : Nat} (hroot : root < count) :
    n ∈ f.levels count root ↔ f.Within root n := by
  induction count generalizing root with
  | zero => exact absurd hroot (Nat.not_lt_zero root)
  | succ count ih =>
      have hchild : ∀ c ∈ (f.entry root).children, (n ∈ f.levels count c ↔ f.Within c n) := by
        intro c hc
        apply ih
        exact Nat.lt_of_lt_of_le (hf.older root c hc) (Nat.le_of_lt_succ hroot)
      rw [levels, List.mem_cons, List.mem_flatMap, within_iff]
      exact or_congr_right (exists_congr fun c => and_congr_right (hchild c))

/-- The nodes that attaching a root binds are those of its tree. -/
theorem mem_below_iff (hf : f.Rooted) : n ∈ f.below root ↔ f.Within root n :=
  mem_levels_iff hf (Nat.lt_succ_self root)

/-! ## An attached tree -/

/-- Attaching a root succeeds only if it has no parent and no document and ends within the text, and
binds the nodes of its tree and no others. -/
theorem attach_eq_ok (hf : f.Rooted) {path text : String}
    {number : Nat} (hattach : (f.attach path text root).2 = .ok number) :
    (f.entry root).parent = none ∧ (f.entry root).document = none ∧
      (f.entry root).stop ≤ (Source.ofText path text).data.length ∧ number = f.documents.length ∧
      ∀ n < f.nodes.length,
        (f.Within root n → (f.attach path text root).1.entry n =
          { f.entry n with document := some number }) ∧
        (¬f.Within root n → (f.attach path text root).1.entry n = f.entry n) := by
  rcases f.attach_cases path text root with
    ⟨fault, hfault⟩ | ⟨hparent, hdocument, hstop, hnumber, -, -, hentry⟩
  · rw [hfault] at hattach
    nomatch hattach
  · obtain rfl := Except.ok.inj (hnumber.symm.trans hattach)
    refine ⟨hparent, hdocument, hstop, rfl, fun n hn => ⟨fun hbelow => ?_, fun hbeside => ?_⟩⟩
    · rw [hentry n hn, if_pos ((mem_below_iff hf).2 hbelow)]
    · rw [hentry n hn, if_neg (hbeside ∘ (mem_below_iff hf).1)]

/-- The nodes of a tree have the entries that they had in an earlier forest. -/
def Frozen (f g : Forest) (root : NodeId) : Prop :=
  ∀ n, f.Within root n → g.entry n = f.entry n

theorem Frozen.within (hfrozen : Frozen f g root) (hn : f.Within root n) : g.Within root n := by
  induction hn with
  | root => exact .root
  | child hp hc ih => exact ih.child (hfrozen _ hp ▸ hc)

/-- A node that leaves the root of a tree free leaves the whole tree as it is. -/
theorem Frozen.build (hfrozen : Frozen f g root) (hsound : f.Sound) (hroot : f.Built root)
    (hextends : Extends f g) {kind : String} {start stop : Int} {named : Bool}
    {field : Option String} (hchildren : ∀ c ∈ children, c < g.nodes.length)
    (hfree : ((g.build kind start stop children named field).1.entry root).parent = none) :
    Frozen f (g.build kind start stop children named field).1 root := by
  intro n hn
  rcases g.build_cases kind start stop children named field hchildren with heq | ⟨done, hgrown⟩
  · rw [heq, hfrozen n hn]
  have hbuilt := hextends.built (hn.built hsound hroot)
  rcases hgrown.older n hbuilt.lt_length with heq | ⟨hunowned, i, -, heq⟩
  · rw [heq, hfrozen n hn]
  -- A node without a parent can only be the root, which would now have one.
  rw [hfrozen n hn] at hunowned
  by_cases hne : n = root
  · subst hne
    rw [heq] at hfree
    nomatch hfree
  · obtain ⟨p, hparent, -⟩ := hn.exists_parent hsound hroot hne
    rw [hunowned] at hparent
    nomatch hparent

/-- Attaching a built root leaves a tree that is bound, and whose own root is free, as it is. -/
theorem Frozen.attach (hfrozen : Frozen f g root) (hsound : f.Sound) (hroot : f.Built root)
    (hbound : (f.entry root).document ≠ none) (hlater : g.Sound) (hextends : Extends f g)
    {path text : String} {root' : NodeId} (hroot' : g.Built root')
    (hfree : (g.entry root).parent = none) : Frozen f (g.attach path text root').1 root := by
  intro n hn
  have hbuilt := hextends.built (hn.built hsound hroot)
  cases hattach : (g.attach path text root').2 with
  | error fault =>
      rcases g.attach_cases path text root' with ⟨fault', heq⟩ | ⟨-, -, -, hok, -⟩
      · rw [heq, hfrozen n hn]
      · nomatch hattach.symm.trans hok
  | ok number =>
      obtain ⟨hparent, hdocument, -, -, hentry⟩ := attach_eq_ok hlater.toRooted hattach
      -- A tree that shared a node with this one would have the same root, which is bound.
      have hbeside : ¬g.Within root' n := by
        intro hshared
        obtain rfl := (hfrozen.within hn).root_unique hlater (hextends.built hroot) hroot'
          hfree hparent hshared
        rw [hfrozen root .root] at hdocument
        exact hbound hdocument
      rw [(hentry n hbuilt.lt_length).2 hbeside, hfrozen n hn]

/-- A construction that leaves the root of a bound tree free leaves the whole tree as it is. -/
theorem Frozen.perform (hfrozen : Frozen f g root) (hsound : f.Sound) (hroot : f.Built root)
    (hbound : (f.entry root).document ≠ none) (hlater : g.Sound) (hextends : Extends f g)
    {step : Construction} (hgiven : ∀ id ∈ step.given, g.Built id)
    (hfree : ((g.perform step).entry root).parent = none) :
    Frozen f (g.perform step) root := by
  cases step with
  | node kind start stop children named field =>
      exact hfrozen.build hsound hroot hextends (fun c hc => (hgiven c hc).lt_length) hfree
  | document path text root' =>
      refine hfrozen.attach hsound hroot hbound hlater hextends
        (hgiven root' List.mem_cons_self) ?_
      by_contra howned
      have hkept := (extends_perform hgiven).owner root (hextends.built hroot).lt_length howned
      exact howned (hkept.1.symm.trans hfree)

/-- Constructions that leave the root of a bound tree free leave the whole tree as it is. -/
theorem Frozen.performAll (hfrozen : Frozen f g root) (hsound : f.Sound) (hroot : f.Built root)
    (hbound : (f.entry root).document ≠ none) (hlater : g.Sound) (hextends : Extends f g)
    (hsteps : g.Allows steps) (hfree : ((g.performAll steps).entry root).parent = none) :
    Frozen f (g.performAll steps) root := by
  induction steps generalizing g with
  | nil => exact hfrozen
  | cons step rest ih =>
      obtain ⟨hgiven, hrest⟩ := hsteps
      have hnext := extends_perform hgiven
      have hlater' := hlater.perform hgiven
      have hfree' : ((g.perform step).entry root).parent = none := by
        by_contra howned
        have hlt := (hextends.trans hnext).built hroot
        have hkept := (performAll_spec hlater' hrest).2.owner root hlt.lt_length howned
        exact howned (hkept.1.symm.trans hfree)
      exact ih (hfrozen.perform hsound hroot hbound hlater hextends hgiven hfree') hlater'
        (hextends.trans hnext) hrest hfree

/-- A node stays free as long as no construction takes it up as a child. -/
theorem free_perform {step : Construction} (hgiven : ∀ id ∈ step.given, f.Built id)
    (hn : f.Built n) (hfree : (f.entry n).parent = none) (hother : n ∉ step.children) :
    ((f.perform step).entry n).parent = none := by
  cases step with
  | node kind start stop children named field =>
      rcases f.build_cases kind start stop children named field
        fun c hc => (hgiven c hc).lt_length with heq | ⟨done, hgrown⟩
      · rw [perform, heq, hfree]
      · rcases hgrown.older n hn.lt_length with heq | ⟨-, i, hi, -⟩
        · rw [perform, heq, hfree]
        · exact absurd (List.mem_of_getElem? hi) hother
  | document path text root =>
      rcases f.attach_cases path text root with ⟨fault, heq⟩ | ⟨-, -, -, -, -, -, hentry⟩
      · rw [perform, heq, hfree]
      · rw [perform, hentry n hn.lt_length]
        split <;> exact hfree

theorem free_performAll (hsteps : f.Allows steps) (hn : f.Built n)
    (hfree : (f.entry n).parent = none) (hother : ∀ step ∈ steps, n ∉ step.children) :
    ((f.performAll steps).entry n).parent = none := by
  induction steps generalizing f with
  | nil => exact hfree
  | cons step rest ih =>
      obtain ⟨hgiven, hrest⟩ := hsteps
      apply ih hrest
      · exact (extends_perform hgiven).built hn
      · exact free_perform hgiven hn hfree (hother step List.mem_cons_self)
      · exact fun later hlater => hother later (List.mem_cons_of_mem step hlater)

/-- A document that is attached binds the nodes of its tree, which stays the same, and its root has
no parent. -/
theorem perform_document {path text : String} {root : NodeId} {number : Nat} (hsound : f.Sound)
    (hroot : f.Built root) (hattach : (f.attach path text root).2 = .ok number) :
    ((f.perform (.document path text root)).entry root).parent = none ∧
      ∀ n, (f.perform (.document path text root)).Within root n →
        (f.perform (.document path text root)).entry n =
          { f.entry n with document := some number } := by
  obtain ⟨hfree, -, -, -, hentry⟩ := attach_eq_ok hsound.toRooted hattach
  have hkept : Extends f (f.perform (.document path text root)) :=
    extends_perform fun c hc => List.mem_singleton.1 hc ▸ hroot
  have hwithin : ∀ n, (f.perform (.document path text root)).Within root n →
      f.Within root n := by
    intro n hn
    induction hn with
    | root => exact .root
    | child _ hc ih =>
        rw [hkept.children _ (ih.built hsound hroot).lt_length] at hc
        exact ih.child hc
  have hbound : ∀ n, (f.perform (.document path text root)).Within root n →
      (f.perform (.document path text root)).entry n =
        { f.entry n with document := some number } := by
    intro n hn
    have hbelow := hwithin n hn
    exact (hentry n (hbelow.built hsound hroot).lt_length).1 hbelow
  refine ⟨?_, hbound⟩
  rw [hbound root .root]
  exact hfree

/-- Once a root is attached to a document, the nodes below it keep their parents, their places and
their children for good, whatever is constructed later and whether it succeeds or fails.  The root
has no parent when it is attached, and has none as long as no later node takes it up as a child; and
as long as it has none, every node of the tree is exactly as it was, bound to the same document. -/
theorem attached_frozen (before after : List Construction) (path text : String) (root : NodeId)
    (number : Nat) (hsteps : empty.Allows (before ++ .document path text root :: after))
    (hattach : ((empty.performAll before).attach path text root).2 = .ok number) :
    let attached := empty.performAll (before ++ [.document path text root])
    let later := attached.performAll after
    (attached.entry root).parent = none ∧
    (∀ n, attached.Within root n →
      (attached.entry n).document = some number ∧
      (later.entry n).children = (attached.entry n).children ∧
      (n ≠ root → (later.entry n).parent = (attached.entry n).parent ∧
        (later.entry n).index = (attached.entry n).index)) ∧
    ((later.entry root).parent = none →
      ∀ n, attached.Within root n → later.entry n = attached.entry n) ∧
    ((∀ step ∈ after, root ∉ step.children) → (later.entry root).parent = none) := by
  intro attached later
  obtain ⟨hbefore, hgiven, hafter⟩ := supplied_append.1 hsteps
  obtain ⟨hstart, -⟩ := performAll_spec empty_sound hbefore
  have hroot : (empty.performAll before).Built root := hgiven root List.mem_cons_self
  have hattached : attached =
      (empty.performAll before).perform (.document path text root) := performAll_append _ _ _
  obtain ⟨hfree, hbound⟩ := perform_document hstart hroot hattach
  have hsound : attached.Sound := hattached ▸ hstart.perform hgiven
  have hroot' : attached.Built root := hattached ▸ (extends_perform hgiven).built hroot
  rw [← hattached] at hfree hbound hafter
  obtain ⟨-, hlater⟩ := performAll_spec hsound hafter
  refine ⟨hfree, ?_, ?_, ?_⟩
  · intro n hn
    have hlt := (hn.built hsound hroot').lt_length
    refine ⟨by rw [hbound n hn], hlater.children n hlt, fun hne => ?_⟩
    obtain ⟨p, hparent, -⟩ := hn.exists_parent hsound hroot' hne
    exact hlater.owner n hlt (by rw [hparent]; nofun)
  · intro hunowned
    apply Frozen.performAll (fun _ _ => rfl) hsound hroot' _ hsound (.refl attached) hafter
      hunowned
    rw [hbound root .root]
    nofun
  · exact free_performAll hafter hroot' hfree

def family : List Construction :=
  [.node "identifier" 0 1 [] true none, .node "identifier" 2 3 [] true none,
    .node "program" 0 3 [0, 1] true none]

/-- A free leaf, a node that claims it but fails at a leaf of the family, a document that fails at
the root of the family, and a node over the family's text that succeeds. -/
def disturbance : List Construction :=
  [.node "constant" 0 1 [] true none, .node "call" 0 3 [3, 1] true none,
    .document "b.rb" "x y" 2, .node "program" 0 3 [] true none]

theorem attached_frozen_family :
    let attached := empty.performAll (family ++ [.document "a.rb" "x y" 2])
    ((attached.performAll disturbance).entry 3).parent = some 4 ∧
      ∀ n, attached.Within 2 n → (attached.performAll disturbance).entry n = attached.entry n := by
  intro attached
  obtain ⟨-, -, hfrozen, hfree⟩ := attached_frozen family disturbance "a.rb" "x y" 2 0
    (by decide +kernel) (by decide +kernel)
  exact ⟨by decide +kernel, hfrozen (hfree (by decide +kernel))⟩

/-- A node that takes up the root of a document becomes its parent, and a document over this node
takes the whole tree over. -/
theorem attached_frozen_reclaimed :
    let attached := empty.performAll (family ++ [.document "a.rb" "x y" 2])
    let later := attached.performAll
      [.node "program" 0 3 [2] true none, .document "b.rb" "x y" 3]
    empty.Allows (family ++ .document "a.rb" "x y" 2 ::
      [.node "program" 0 3 [2] true none, .document "b.rb" "x y" 3]) ∧
    ((attached.entry 2).parent = none ∧ (later.entry 2).parent = some 3) ∧
    ∀ n ∈ [0, 1, 2], (attached.entry n).document = some 0 ∧ (later.entry n).document = some 1 := by
  decide +kernel

/-- A free leaf, a node that claims it but fails at a leaf of the family, and a document over the
node that failed. -/
def detour : List Construction :=
  [.node "constant" 0 1 [] true none, .node "call" 0 3 [3, 1] true none, .document "b.rb" "x y" 4]

/-- A history may not be given nodes that were never built: attaching one takes a leaf out of the
document of the family, although nothing takes up the root. -/
theorem attached_rebound :
    let attached := empty.performAll (family ++ [.document "a.rb" "x y" 2])
    let later := attached.performAll detour
    let steps := family ++ .document "a.rb" "x y" 2 :: detour
    (empty.Admits steps ∧ ¬empty.Allows steps ∧ ∀ step ∈ detour, 2 ∉ step.children) ∧
    attached.Within 2 1 ∧ (attached.entry 1).document = some 0 ∧
      (later.entry 1).document = some 1 := by
  intro attached later steps
  exact ⟨by decide +kernel, Within.root.child (by decide +kernel), by decide +kernel,
    by decide +kernel⟩

end Forest

end RubyLint
