import RubyLint.Proofs.Tree.Construction

/-!
# Parents and ancestors

Whatever is constructed, the nodes form a forest.  The nodes that a construction is given need not
be built ones: a construction that fails hands out no node, but the children that it claimed lead to
the node that never came to be, so this node too can be taken up as a child or attached to a text.
Still a parent is younger than its child and lists it, so every climb from parent to parent ends,
and a built node is the one built node that lists its children.
-/

namespace RubyLint.Forest

variable {f g : Forest} {n p c root : NodeId} {children : List NodeId}

/-- The climb from a node through its ancestors, the nearest first.  It is over at a node without a
parent. -/
inductive Ancestors (f : Forest) : NodeId → List NodeId → Prop where
  | root {n : NodeId} : (f.entry n).parent = none → f.Ancestors n []
  | step {n p : NodeId} {chain : List NodeId} :
      (f.entry n).parent = some p → f.Ancestors p chain → f.Ancestors n (p :: chain)

theorem Ancestors.unique {chain chain' : List NodeId} (h : f.Ancestors n chain)
    (h' : f.Ancestors n chain') : chain = chain' := by
  induction h generalizing chain' with
  | root hnone =>
      cases h' with
      | root => rfl
      | step hsome _ => nomatch hnone.symm.trans hsome
  | step hsome _ ih =>
      cases h' with
      | root hnone => nomatch hnone.symm.trans hsome
      | step hsome' hrest =>
          obtain rfl := Option.some.inj (hsome.symm.trans hsome')
          rw [ih hrest]

/-! ## What every construction keeps -/

/-- A rooted forest in which a parent lists its child, whether it was built or not, ranges run
forward, and nodes are bound only to documents that exist. -/
structure Consistent (f : Forest) : Prop extends Rooted f where
  listed : ∀ c p, (f.entry c).parent = some p → c ∈ (f.entry p).children
  forward : ∀ n, (f.entry n).start ≤ (f.entry n).stop
  filed : ∀ n number, (f.entry n).document = some number → number < f.documents.length

theorem empty_consistent : empty.Consistent where
  toRooted := empty_rooted
  listed _ _ hparent := nomatch hparent
  forward _ := Nat.le_refl 0
  filed _ _ hdocument := nomatch hdocument

/-- Taking up children keeps a forest consistent, also if it stops at one of them. -/
theorem Grown.consistent {done : Bool} (hf : f.Consistent) (hgrown : Grown f g children done)
    (hchildren : ∀ c ∈ children, c < f.nodes.length) : g.Consistent := by
  refine ⟨hgrown.rooted hf.toRooted hchildren, ?_, ?_, ?_⟩
  · intro c p hparent
    rcases hgrown.entry_cases c with ⟨-, hsame | ⟨hmem, i, htaken⟩⟩ | rfl | hnone
    · rw [hsame] at hparent
      have hmem := hf.listed c p hparent
      rwa [hgrown.extends.children p (lt_length_of_mem_children hmem)]
    · rw [htaken] at hparent
      obtain rfl := Option.some.inj hparent
      rwa [hgrown.children]
    · nomatch hgrown.free.symm.trans hparent
    · rw [hnone] at hparent
      nomatch hparent
  · intro n
    rcases hgrown.entry_cases n with ⟨-, hsame | ⟨-, i, htaken⟩⟩ | rfl | hnone
    · rw [hsame]
      exact hf.forward n
    · rw [htaken]
      exact hf.forward n
    · exact hgrown.forward
    · rw [hnone]
      exact Nat.le_refl 0
  · intro n number hdocument
    rw [hgrown.documents]
    rcases hgrown.entry_cases n with ⟨-, hsame | ⟨-, i, htaken⟩⟩ | rfl | hnone
    · rw [hsame] at hdocument
      exact hf.filed n number hdocument
    · rw [htaken] at hdocument
      exact hf.filed n number hdocument
    · nomatch hgrown.unbound.symm.trans hdocument
    · rw [hnone] at hdocument
      nomatch hdocument

/-- Attaching a root keeps a forest consistent: it changes the document of some nodes and nothing
else. -/
theorem Consistent.attach (hf : f.Consistent) (path text : String) (root : NodeId) :
    (f.attach path text root).1.Consistent := by
  have hextends := f.extends_attach path text root
  rcases f.attach_cases path text root with
    ⟨fault, hsame⟩ | ⟨-, -, -, -, hlength, hdocuments, hbound⟩
  · rw [hsame]
    exact hf
  have hentry : ∀ n, (f.attach path text root).1.entry n = f.entry n ∨
      (f.attach path text root).1.entry n =
        { f.entry n with document := some f.documents.length } := by
    intro n
    by_cases hn : n < f.nodes.length
    · rw [hbound n hn]
      split
      · exact .inr rfl
      · exact .inl rfl
    · exact .inl (entry_eq_of_not_lt hlength hn)
  refine ⟨hf.toRooted.of_extends hextends hlength, ?_, ?_, ?_⟩
  · intro c p hparent
    rw [hextends.children_eq hlength]
    rcases hentry c with heq | heq <;> rw [heq] at hparent <;> exact hf.listed c p hparent
  · intro n
    rcases hentry n with heq | heq <;> rw [heq] <;> exact hf.forward n
  · intro n number hdocument
    rw [hdocuments, List.length_append, List.length_singleton]
    rcases hentry n with heq | heq <;> rw [heq] at hdocument
    · exact Nat.lt_succ_of_lt (hf.filed n number hdocument)
    · obtain rfl := Option.some.inj hdocument
      exact Nat.lt_succ_self _

/-- Every construction over nodes that exist keeps a forest consistent. -/
theorem Consistent.perform (hf : f.Consistent) {step : Construction}
    (hgiven : ∀ id ∈ step.given, id < f.nodes.length) : (f.perform step).Consistent := by
  cases step with
  | node kind start stop children named field =>
      rcases f.build_cases kind start stop children named field hgiven with
        hsame | ⟨done, hgrown⟩
      · rw [Forest.perform, hsame]
        exact hf
      · exact hgrown.consistent hf hgiven
  | document path text root => exact hf.attach path text root

theorem Consistent.performAll (hf : f.Consistent) {steps : List Construction}
    (hsteps : f.Admits steps) : (f.performAll steps).Consistent :=
  Supplied.keeps Consistent hsteps (fun hg hgiven => hg.perform hgiven) hf

/-! ## Ancestors -/

theorem Consistent.lt_parent (hf : f.Consistent) (hparent : (f.entry c).parent = some p) : c < p :=
  hf.older p c (hf.listed c p hparent)

/-- No climb from parent to parent goes on for ever, since numbers are used up on the way. -/
theorem Consistent.wellFounded_parent (hf : f.Consistent) :
    WellFounded fun p c => (f.entry c).parent = some p := by
  refine Subrelation.wf ?_ (measure fun n : NodeId => f.nodes.length - n).wf
  intro p c hparent
  exact Nat.sub_lt_sub_left (lt_length_of_parent hparent) (hf.lt_parent hparent)

theorem Consistent.existsUnique_ancestors (hf : f.Consistent) (n : NodeId) :
    ∃! chain, f.Ancestors n chain := by
  induction n using hf.wellFounded_parent.induction with
  | _ n ih =>
      cases hparent : (f.entry n).parent with
      | none => exact ⟨[], .root hparent, fun _ h => h.unique (.root hparent)⟩
      | some p =>
          obtain ⟨chain, hchain, -⟩ := ih p hparent
          exact ⟨p :: chain, .step hparent hchain, fun _ h => h.unique (.step hparent hchain)⟩

/-! ## The forest of a history of constructions -/

/-- A root that is attached to a text lies within it, and the nodes bound to the new document are
those below the root. -/
theorem Consistent.attach_ok (hf : f.Consistent) (hroot : root < f.nodes.length)
    {path text : String} {number : Nat} (hattach : (f.attach path text root).2 = .ok number) :
    let g := (f.attach path text root).1
    (∀ n, (g.entry n).document = some number ↔ f.Within root n) ∧
    (∀ n, ¬f.Within root n → g.entry n = f.entry n) ∧
    g.documents = f.documents ++ [Source.ofText path text] ∧ number = f.documents.length ∧
    (g.entry root).start ≤ (g.entry root).stop ∧
    (g.entry root).stop ≤ (Utf8.encode text).length := by
  intro g
  obtain ⟨-, -, hstop, rfl, hentry⟩ := attach_eq_ok hf.toRooted hattach
  obtain ⟨hlength, hdocuments⟩ : g.nodes.length = f.nodes.length ∧
      g.documents = f.documents ++ [Source.ofText path text] := by
    rcases f.attach_cases path text root with
      ⟨fault, hfault⟩ | ⟨-, -, -, -, hlength, hdocuments, -⟩
    · rw [hfault] at hattach
      nomatch hattach
    · exact ⟨hlength, hdocuments⟩
  have hinside : ∀ n, f.Within root n →
      g.entry n = { f.entry n with document := some f.documents.length } := by
    intro n hn
    exact (hentry n (Nat.lt_of_le_of_lt (hn.le hf.toRooted) hroot)).1 hn
  have hbeside : ∀ n, ¬f.Within root n → g.entry n = f.entry n := by
    intro n hn
    by_cases hlt : n < f.nodes.length
    · exact (hentry n hlt).2 hn
    · exact entry_eq_of_not_lt hlength hlt
  refine ⟨fun n => ⟨fun hdocument => ?_, fun hn => ?_⟩, hbeside, hdocuments, rfl, ?_, ?_⟩
  · -- No older node was bound to a document of this number.
    by_contra hn
    rw [hbeside n hn] at hdocument
    exact Nat.lt_irrefl _ (hf.filed n _ hdocument)
  · rw [hinside n hn]
  · rw [hinside root .root]
    exact hf.forward root
  · rw [hinside root .root]
    exact hstop

/-- After any constructions, failed ones included, the built nodes form a forest: a built node is
the parent of each of its children, at its place, and no other built node lists them, nor does it
list one twice; parents are well-founded, so the climb through the ancestors of a node ends.
Attaching a root then binds exactly the nodes below it to the new document, and succeeds only if the
root lies within the text; if it fails, it changes nothing. -/
theorem performAll_forest (steps : List Construction) (hsteps : empty.Admits steps) :
    let f := empty.performAll steps
    (∀ p, f.Built p → ∀ (i : Nat) c, (f.entry p).children[i]? = some c →
      (f.entry c).parent = some p ∧ (f.entry c).index = i) ∧
    (∀ p q, f.Built p → f.Built q → ∀ (i j : Nat) c, (f.entry p).children[i]? = some c →
      (f.entry q).children[j]? = some c → p = q ∧ i = j) ∧
    (WellFounded fun p c => (f.entry c).parent = some p) ∧
    (∀ n, ∃! chain, f.Ancestors n chain) ∧
    ∀ path text root, root < f.nodes.length →
      (∀ number, (f.attach path text root).2 = .ok number →
        let g := (f.attach path text root).1
        (∀ n, (g.entry n).document = some number ↔ f.Within root n) ∧
        (∀ n, ¬f.Within root n → g.entry n = f.entry n) ∧
        g.documents = f.documents ++ [Source.ofText path text] ∧ number = f.documents.length ∧
        (g.entry root).start ≤ (g.entry root).stop ∧
        (g.entry root).stop ≤ (Utf8.encode text).length) ∧
      ∀ fault, (f.attach path text root).2 = .error fault → (f.attach path text root).1 = f := by
  intro f
  have hf : f.Consistent := empty_consistent.performAll hsteps
  refine ⟨hf.owned, ?_, hf.wellFounded_parent, hf.existsUnique_ancestors, ?_⟩
  · intro p q hp hq i j c hc hc'
    obtain ⟨hparent, hindex⟩ := hf.owned p hp i c hc
    obtain ⟨hparent', hindex'⟩ := hf.owned q hq j c hc'
    exact ⟨Option.some.inj (hparent.symm.trans hparent'), hindex.symm.trans hindex'⟩
  intro path text root hroot
  constructor
  · intro number hattach
    exact hf.attach_ok hroot hattach
  · intro fault hattach
    rcases f.attach_cases path text root with ⟨fault', hsame⟩ | ⟨-, -, -, hok, -⟩
    · rw [hsame]
    · nomatch hattach.symm.trans hok

/-- Two leaves, a node that claims both but fails when it is given the first one again, and a node
over the one that failed. -/
def revived : List Construction :=
  [.node "identifier" 0 1 [] true none, .node "identifier" 2 3 [] true none,
    .node "call" 0 3 [0, 1, 0] true none, .node "program" 0 3 [2] true none]

/-- A node whose construction failed is taken up by a later one, and attaching that one binds the
leaves that the failed one had claimed. -/
theorem performAll_forest_revived :
    let f := empty.performAll revived
    (¬f.Built 2 ∧ (f.entry 2).parent = some 3) ∧
    (∀ chain, f.Ancestors 1 chain ↔ chain = [2, 3]) ∧
    ∀ n, ((f.attach "a.rb" "x y" 3).1.entry n).document = some 0 ↔ f.Within 3 n := by
  intro f
  obtain ⟨-, -, -, hancestors, hattach⟩ := performAll_forest revived (by decide +kernel)
  have hclimb : f.Ancestors 1 [2, 3] :=
    .step (by decide +kernel) (.step (by decide +kernel) (.root (by decide +kernel)))
  refine ⟨by decide +kernel, fun chain => ?_, ?_⟩
  · constructor
    · intro h
      exact (hancestors 1).unique h hclimb
    · rintro rfl
      exact hclimb
  · exact ((hattach "a.rb" "x y" 3 (by decide +kernel)).1 0 (by decide +kernel)).1

end RubyLint.Forest
