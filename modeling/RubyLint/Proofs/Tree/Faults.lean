import Mathlib.Data.List.Basic
import RubyLint.Proofs.Sorting
import RubyLint.Proofs.Steps
import RubyLint.Tree.Parsed

/-!
# Faults of a parse

The positions of the faults of a text are collected in one line of trees that are still to be looked
into.  A tree without a fault is passed over whole, and so is what lies below a fault.  What is left
are the outermost faults in pre-order, and the first of them is the first fault of all.
-/

namespace RubyLint

namespace ParseTree

variable {t u : ParseTree} {i : Nat} {p q : List Nat}

/-! ## Places -/

/-- The tree at the end of a path of child indexes. -/
def at? (t : ParseTree) : List Nat → Option ParseTree
  | [] => some t
  | i :: rest => t.children[i]?.bind fun child => child.at? rest

mutual

/-- The paths to the nodes of a tree in pre-order: the root, then the nodes below its children from
left to right. -/
def paths : ParseTree → List (List Nat)
  | ⟨_, _, _, _, _, children, _, _, _, _⟩ => [] :: pathsFrom 0 children

/-- The paths to the nodes of a list of children, numbered from an index on. -/
def pathsFrom (index : Nat) : List ParseTree → List (List Nat)
  | [] => []
  | t :: rest => t.paths.map (index :: ·) ++ pathsFrom (index + 1) rest

end

/-- Where the node at the end of a path is reported: its line from 1 and its byte column from 0. -/
def position? (t : ParseTree) (p : List Nat) : Option (Int × Int) :=
  (t.at? p).map fun u => (u.row + 1, u.column)

/-- There is a fault at the end of a path. -/
def FaultAt (t : ParseTree) (p : List Nat) : Prop :=
  (t.at? p).any isFault = true

/-- There is a fault at the end of a path and none on the way to it. -/
def OutermostFault (t : ParseTree) (p : List Nat) : Prop :=
  t.FaultAt p ∧ ∀ n < p.length, ¬ t.FaultAt (p.take n)

instance : DecidablePred t.FaultAt :=
  fun p => inferInstanceAs (Decidable ((t.at? p).any isFault = true))

instance : DecidablePred t.OutermostFault :=
  fun p => inferInstanceAs (Decidable (_ ∧ ∀ n < p.length, ¬ t.FaultAt (p.take n)))

theorem pathsFrom_eq (index : Nat) (ts : List ParseTree) :
    pathsFrom index ts = (ts.zipIdx index).flatMap fun x => x.1.paths.map (x.2 :: ·) := by
  induction ts generalizing index with
  | nil => rfl
  | cons t rest ih => rw [pathsFrom, ih, List.zipIdx_cons, List.flatMap_cons]

theorem paths_eq (t : ParseTree) :
    t.paths = [] :: t.children.zipIdx.flatMap fun x => x.1.paths.map (x.2 :: ·) := by
  cases t
  rw [paths, pathsFrom_eq]

theorem anyFault_eq (ts : List ParseTree) : anyFault ts = ts.any hasFault := by
  induction ts with
  | nil => rfl
  | cons t rest ih => rw [anyFault, ih, List.any_cons]

theorem hasFault_eq (t : ParseTree) : t.hasFault = (t.isFault || t.children.any hasFault) := by
  cases t
  rw [hasFault, anyFault_eq, isFault]

theorem size_lt_of_mem_children (h : u ∈ t.children) : u.size < t.size := by
  have hle : u.size ≤ sizeAll t.children := by
    obtain ⟨before, after, happend⟩ := List.append_of_mem h
    rw [happend, sizeAll_append, sizeAll]
    omega
  rw [size_eq t]
  omega

/-- What holds of a tree if it holds of its children holds of every tree. -/
theorem induction_on_children {P : ParseTree → Prop} (h : ∀ t, (∀ u ∈ t.children, P u) → P t)
    (t : ParseTree) : P t := by
  induction hsize : t.size using Nat.strongRecOn generalizing t with
  | ind size ih =>
      apply h
      intro u hu
      exact ih u.size (hsize ▸ size_lt_of_mem_children hu) u rfl

theorem mem_paths_iff : p ∈ t.paths ↔ (t.at? p).isSome := by
  induction p generalizing t with
  | nil =>
      rw [paths_eq, at?]
      exact iff_of_true List.mem_cons_self rfl
  | cons i rest ih =>
      rw [paths_eq, at?]
      simp only [List.mem_cons, reduceCtorEq, false_or, List.mem_flatMap, List.mem_map,
        List.cons.injEq, Prod.exists, List.mem_zipIdx_iff_getElem?]
      constructor
      · rintro ⟨u, j, hu, q, hq, rfl, rfl⟩
        rw [hu]
        exact ih.1 hq
      · intro h
        cases hu : t.children[i]? with
        | none => simp [hu] at h
        | some u =>
            rw [hu] at h
            exact ⟨u, i, hu, rest, ih.2 h, rfl, rfl⟩

/-- The path to a node comes after those to the nodes above it. -/
theorem take_lt {n : Nat} (h : n < p.length) : p.take n < p := by
  induction p generalizing n with
  | nil => exact absurd h n.not_lt_zero
  | cons i rest ih =>
      cases n with
      | zero => exact List.nil_lt_cons i rest
      | succ n => exact List.cons_lt_cons_iff.2 (.inr ⟨rfl, ih (Nat.lt_of_succ_lt_succ h)⟩)

/-- Pre-order is the lexicographic order of paths. -/
theorem paths_sorted (t : ParseTree) : t.paths.Pairwise (· < ·) := by
  induction t using induction_on_children with
  | h t ih =>
      rw [paths_eq, List.pairwise_cons, List.pairwise_flatMap]
      refine ⟨?_, ?_, ?_⟩
      · intro p hp
        obtain ⟨x, -, hp⟩ := List.mem_flatMap.1 hp
        obtain ⟨q, -, rfl⟩ := List.mem_map.1 hp
        exact List.nil_lt_cons x.2 q
      · intro x hx
        apply List.Pairwise.map
        · intro q r hlt
          exact List.cons_lt_cons_iff.2 (.inr ⟨rfl, hlt⟩)
        · exact ih x.1 (List.fst_mem_of_mem_zipIdx hx)
      · apply (pairwise_zipIdx t.children).imp
        intro x y hlt p hp q hq
        obtain ⟨p, -, rfl⟩ := List.mem_map.1 hp
        obtain ⟨q, -, rfl⟩ := List.mem_map.1 hq
        exact List.cons_lt_cons_iff.2 (.inl hlt)

/-! ## Faults at places -/

theorem faultAt_nil : t.FaultAt [] ↔ t.isFault = true :=
  Iff.rfl

theorem faultAt_cons (h : t.children[i]? = some u) : t.FaultAt (i :: p) ↔ u.FaultAt p := by
  rw [FaultAt, FaultAt, at?, h, Option.bind_some]

theorem position?_cons (h : t.children[i]? = some u) :
    t.position? (i :: p) = u.position? p := by
  rw [position?, position?, at?, h, Option.bind_some]

theorem FaultAt.mem_paths (h : t.FaultAt p) : p ∈ t.paths := by
  rw [mem_paths_iff]
  cases hat : t.at? p with
  | none => simp [FaultAt, hat] at h
  | some u => rfl

/-- A tree has a fault if there is one at the end of some path. -/
theorem hasFault_iff : t.hasFault = true ↔ ∃ p, t.FaultAt p := by
  induction t using induction_on_children with
  | h t ih =>
      rw [hasFault_eq, Bool.or_eq_true, List.any_eq_true]
      constructor
      · rintro (hfault | ⟨u, hu, hbelow⟩)
        · exact ⟨[], hfault⟩
        · obtain ⟨i, hi⟩ := List.mem_iff_getElem?.1 hu
          obtain ⟨p, hp⟩ := (ih u hu).1 hbelow
          exact ⟨i :: p, (faultAt_cons hi).2 hp⟩
      · rintro ⟨p, hp⟩
        cases p with
        | nil => exact .inl hp
        | cons i rest =>
            cases hi : t.children[i]? with
            | none => simp [FaultAt, at?, hi] at hp
            | some u =>
                have hu := List.mem_of_getElem? hi
                exact .inr ⟨u, hu, (ih u hu).2 ⟨rest, (faultAt_cons hi).1 hp⟩⟩

/-- No fault below a fault is outermost. -/
theorem outermostFault_of_isFault (h : t.isFault = true) : t.OutermostFault p ↔ p = [] := by
  constructor
  · rintro ⟨-, houter⟩
    apply List.eq_nil_of_length_eq_zero
    by_contra hlength
    exact houter 0 (Nat.pos_of_ne_zero hlength) (by rwa [List.take_zero])
  · rintro rfl
    exact ⟨h, fun n hn => absurd hn n.not_lt_zero⟩

/-- Below a node that is no fault, the outermost faults are those of its children. -/
theorem outermostFault_cons (h : t.isFault = false) (hu : t.children[i]? = some u) :
    t.OutermostFault (i :: p) ↔ u.OutermostFault p := by
  rw [OutermostFault, OutermostFault, faultAt_cons hu, List.length_cons]
  apply and_congr_right'
  constructor
  · intro houter n hn
    have hfault := houter (n + 1) (by omega)
    rwa [List.take_succ_cons, faultAt_cons hu] at hfault
  · intro houter n hn
    cases n with
    | zero => rw [List.take_zero, faultAt_nil, h]; exact Bool.false_ne_true
    | succ n =>
        rw [List.take_succ_cons, faultAt_cons hu]
        exact houter n (by omega)

/-! ## The walk -/

def outermostFaults (t : ParseTree) : List (List Nat) :=
  t.paths.filter t.OutermostFault

def outermostPositions (t : ParseTree) : List (Option (Int × Int)) :=
  t.outermostFaults.map t.position?

theorem outermostPositions_fault (h : t.isFault = true) :
    t.outermostPositions = [some (t.row + 1, t.column)] := by
  have hroot : t.OutermostFault [] := (outermostFault_of_isFault h).2 rfl
  have hbelow : (t.children.zipIdx.flatMap fun x => x.1.paths.map (x.2 :: ·)).filter
      t.OutermostFault = [] := by
    rw [List.filter_eq_nil_iff]
    intro p hp
    obtain ⟨x, -, hp⟩ := List.mem_flatMap.1 hp
    obtain ⟨q, -, rfl⟩ := List.mem_map.1 hp
    simp [outermostFault_of_isFault h]
  rw [outermostPositions, outermostFaults, paths_eq, List.filter_cons_of_pos (by simpa using hroot),
    hbelow]
  rfl

theorem outermostPositions_clear (h : t.hasFault = false) : t.outermostPositions = [] := by
  rw [outermostPositions, List.map_eq_nil_iff, outermostFaults, List.filter_eq_nil_iff]
  intro p _ houter
  have hfault := hasFault_iff.2 ⟨p, (of_decide_eq_true houter).1⟩
  exact Bool.false_ne_true (h.symm.trans hfault)

theorem outermostPositions_children (h : t.isFault = false) :
    t.outermostPositions = t.children.flatMap outermostPositions := by
  have hroot : ¬ t.OutermostFault [] := by
    rintro ⟨hfault, -⟩
    exact Bool.false_ne_true (h.symm.trans hfault)
  have hchild : ∀ x ∈ t.children.zipIdx,
      ((x.1.paths.map (x.2 :: ·)).filter t.OutermostFault).map t.position? =
        x.1.outermostPositions := by
    intro x hx
    have hat : t.children[x.2]? = some x.1 := List.mem_zipIdx_iff_getElem?.1 hx
    rw [List.filter_map, List.map_map, outermostPositions, outermostFaults]
    calc
      _ = (x.1.paths.filter x.1.OutermostFault).map (t.position? ∘ (x.2 :: ·)) := by
        congr 2
        funext p
        simp [outermostFault_cons h hat]
      _ = (x.1.paths.filter x.1.OutermostFault).map x.1.position? := by
        congr 1
        funext p
        exact position?_cons hat
  calc
    t.outermostPositions =
        t.children.zipIdx.flatMap fun x =>
          ((x.1.paths.map (x.2 :: ·)).filter t.OutermostFault).map t.position? := by
      rw [outermostPositions, outermostFaults, paths_eq,
        List.filter_cons_of_neg (by simpa using hroot), List.filter_flatMap, List.map_flatMap]
    _ = t.children.zipIdx.flatMap fun x => x.1.outermostPositions :=
      List.flatMap_congr hchild
    _ = t.children.flatMap outermostPositions := by
      rw [← List.flatMap_map Prod.fst, List.zipIdx_map_fst]

/-- The walk reports the outermost faults of each pending tree, one tree after the other. -/
theorem faultPositions_eq (pending : List ParseTree) :
    (faultPositions pending).map some = pending.flatMap outermostPositions := by
  fun_induction faultPositions pending with
  | case1 => rfl
  | case2 t pending hfault ih =>
      rw [List.map_cons, ih, List.flatMap_cons, outermostPositions_fault hfault]
      rfl
  | case3 t pending hfault hbelow ih =>
      rw [ih, List.flatMap_append, List.flatMap_cons,
        outermostPositions_children (Bool.eq_false_iff.2 hfault)]
  | case4 t pending hfault hbelow ih =>
      rw [ih, List.flatMap_cons, outermostPositions_clear (Bool.eq_false_iff.2 hbelow),
        List.nil_append]

/-- The first fault in pre-order is outermost. -/
theorem find?_outermostFault (t : ParseTree) :
    t.paths.find? t.OutermostFault = t.paths.find? t.FaultAt := by
  cases hfirst : t.paths.find? t.FaultAt with
  | none =>
      rw [List.find?_eq_none] at hfirst ⊢
      intro p hp houter
      exact hfirst p hp (decide_eq_true (of_decide_eq_true houter).1)
  | some p =>
      obtain ⟨hfault, before, after, hpaths, hclear⟩ := List.find?_eq_some_iff_append.1 hfirst
      have hsorted := t.paths_sorted
      rw [hpaths, List.pairwise_append, List.pairwise_cons] at hsorted
      rw [List.find?_eq_some_iff_append]
      refine ⟨decide_eq_true ⟨of_decide_eq_true hfault, ?_⟩, before, after, hpaths, ?_⟩
      · intro n hn habove
        -- A path on the way comes before `p`, and only what is no fault does.
        have hlt := take_lt hn
        have hmem := habove.mem_paths
        rw [hpaths, List.mem_append, List.mem_cons] at hmem
        rcases hmem with hmem | heq | hmem
        · simpa [habove] using hclear _ hmem
        · rw [heq] at hlt
          exact List.lt_irrefl p hlt
        · exact List.lt_irrefl p (List.lt_trans (hsorted.2.1.1 _ hmem) hlt)
      · intro q hq
        have hclearq := hclear q hq
        simp only [Bool.not_eq_true', decide_eq_false_iff_not] at hclearq ⊢
        exact fun houter => hclearq houter.1

end ParseTree

/-- The faults of a document are those of the tree that it was made from. -/
theorem Document.ofParse_faults {path text : String} {t : ParseTree} {document : Document}
    (h : Document.ofParse path text t = .ok document) :
    document.faults = ParseTree.faultPositions [t] := by
  obtain ⟨root, -, h⟩ := bind_eq_ok h
  obtain ⟨attached, -, h⟩ := bind_eq_ok h
  rw [← Except.ok.inj h]

/-- The places of a tree are listed in pre-order, each once.  Reported are the positions of the
faults among them that have no fault above, in that order.  So a document has faults exactly if
there is one in its tree, and its first one is the first of all faults in pre-order. -/
theorem ParseTree.faultPositions_outermost (t : ParseTree) :
    t.paths.Pairwise (· < ·) ∧ (∀ p, p ∈ t.paths ↔ (t.at? p).isSome) ∧
    (faultPositions [t]).map some = (t.paths.filter t.OutermostFault).map t.position? ∧
    ∀ path text document, Document.ofParse path text t = .ok document →
      (document.faults ≠ [] ↔ ∃ p, t.FaultAt p) ∧
      document.faults.head? = (t.paths.find? t.FaultAt).bind t.position? := by
  have hpositions : (faultPositions [t]).map some = t.outermostPositions := by
    rw [faultPositions_eq, List.flatMap_singleton]
  refine ⟨t.paths_sorted, fun p => mem_paths_iff, hpositions, ?_⟩
  intro path text document hdocument
  have hhead : (faultPositions [t]).head?.map some =
      (t.paths.find? t.FaultAt).map t.position? := by
    rw [← List.head?_map, hpositions, outermostPositions, List.head?_map, outermostFaults,
      List.head?_filter, find?_outermostFault]
  rw [Document.ofParse_faults hdocument]
  constructor
  · rw [ne_eq, ← List.head?_eq_none_iff, ← Option.map_eq_none_iff, hhead, Option.map_eq_none_iff,
      List.find?_eq_none]
    constructor
    · intro h
      by_contra hclear
      exact h fun p _ hfault => hclear ⟨p, of_decide_eq_true hfault⟩
    · rintro ⟨p, hp⟩ h
      exact h p hp.mem_paths (decide_eq_true hp)
  · generalize t.paths.find? t.FaultAt = first at hhead ⊢
    cases first with
    | none => simpa using hhead
    | some p =>
        obtain ⟨position, hfound, hposition⟩ := Option.map_eq_some_iff.1 hhead
        rw [hfound, Option.bind_some, hposition]

/-- A tree with a fault inside a fault, and another one behind it. -/
def ParseTree.stray : ParseTree :=
  let leaf (kind : String) (start stop : Int) (isError : Bool) (row column : Int) : ParseTree :=
    ⟨kind, start, stop, true, none, [], isError, false, row, column⟩
  ⟨"program", 0, 5, true, none, [
    leaf "identifier" 0 1 false 0 0,
    ⟨"call", 2, 4, true, none, [leaf "ERROR" 2 3 true 1 0, leaf "constant" 3 4 false 1 1], false,
      true, 1, 0⟩,
    leaf "ERROR" 4 5 true 1 2], false, false, 0, 0⟩

/-- The fault inside the fault is not reported. -/
theorem ParseTree.faultPositions_outermost_stray :
    ∃ document, Document.ofParse "a.rb" "a\nbcd" stray = .ok document ∧
      document.faults ≠ [] ∧ document.faults.head? = some (2, 0) ∧
      (faultPositions [stray]).map some = [some (2, 0), some (2, 2)] := by
  have hsome : (Document.ofParse "a.rb" "a\nbcd" stray).toOption.isSome := by decide
  obtain ⟨document, hdocument⟩ := Option.isSome_iff_exists.1 hsome
  have hspec := faultPositions_outermost stray
  have hfaults := hspec.2.2.2 "a.rb" "a\nbcd" document (toOption_eq_some hdocument)
  refine ⟨document, toOption_eq_some hdocument, hfaults.1.2 ⟨[1, 0], by decide⟩, ?_, ?_⟩
  · rw [hfaults.2]
    decide
  · rw [hspec.2.2.1]
    decide

end RubyLint
