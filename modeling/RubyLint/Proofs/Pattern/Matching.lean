import Mathlib.Data.List.ReduceOption
import RubyLint.Proofs.Lookup
import RubyLint.Proofs.Pattern.Semantics

/-!
# Matching finds what patterns mean

Whatever is in the ledger when a match is tried, a match that is found adds its entries to the
ledger, and an attempt that fails leaves the ledger as it was.  Between the two stands the sequence
of items: when it fails in the middle the ledger has grown by what the items before captured, and
only then is taken back.
-/

namespace RubyLint.Pattern

namespace Ledger

def rename (named : List (String × Capture)) (entry : String × Capture) : List (String × Capture) :=
  named.filter (·.1 != entry.1) ++ [entry]

/-- The ledger after a match with some entries. -/
def extend (l : Ledger) (entries : Entries) : Ledger :=
  ⟨l.slots ++ entries.captures.map some, entries.named.foldl rename l.named⟩

theorem extend_empty (l : Ledger) : l.extend .empty = l := by
  simp [extend, Entries.empty]

theorem extend_append (l : Ledger) (first second : Entries) :
    l.extend (first.append second) = (l.extend first).extend second := by
  simp [extend, Entries.append]

/-- What a match added is taken back. -/
theorem extend_rewind (l : Ledger) (entries : Entries) : (l.extend entries).rewind l = l := by
  simp [extend, rewind, cut]

theorem rewind_self (l : Ledger) : l.rewind l = l := by
  simp [rewind, cut]

theorem reserve_cut (l : Ledger) : l.reserve.cut l.slots.length = l := by
  simp [reserve, cut]

/-- Filling the slot that was reserved before an inner match puts the value in front of its
captures. -/
theorem reserve_extend_fill (l : Ledger) (inner : Entries) (value : Capture)
    (name : Option String) :
    ((l.reserve.extend inner).fill l.slots.length value).bind name value =
      l.extend (.around value name inner) := by
  cases name <;> simp [reserve, extend, fill, bind, Entries.around, rename]

theorem push_bind (l : Ledger) (value : Capture) (name : Option String) :
    (l.push value).bind name value = l.extend (.around value name .empty) := by
  cases name <;> simp [push, extend, bind, Entries.around, Entries.empty, rename]

theorem lookup_rename (named : List (String × Capture)) (entry : String × Capture) (name : String) :
    (rename named entry).lookup name =
      if name = entry.1 then some entry.2 else named.lookup name :=
  lookup_replaced named entry name

/-- A name keeps the last value that it was given. -/
theorem lookup_foldl_rename (given named : List (String × Capture)) (name : String) :
    (given.foldl rename named).lookup name =
      (given.reverse.lookup name).or (named.lookup name) := by
  induction given generalizing named with
  | nil => simp
  | cons entry given ih =>
      rw [List.foldl_cons, ih, lookup_rename, List.reverse_cons, List.lookup_append,
        Option.or_assoc, lookup_cons, List.lookup_nil]
      split <;> simp

/-- The captures and names of a match with some entries. -/
theorem bindings_extend_empty (entries : Entries) :
    (empty.extend entries).bindings.captures = entries.captures ∧
      ∀ name, (empty.extend entries).bindings.get? name = entries.last? name := by
  refine ⟨by simp [extend, bindings, empty, List.reduceOption], fun name => ?_⟩
  have hlookup := lookup_foldl_rename entries.named [] name
  rw [List.lookup_nil, Option.or_none] at hlookup
  exact hlookup

end Ledger

/-- What comes of an attempt: a match adds its entries to the ledger, a failure leaves it as it
was. -/
def Settles (l : Ledger) (meaning : Entries → Prop)
    (result : Except Fault (Bool × Ledger)) : Prop :=
  (∃ entries, meaning entries ∧ result = .ok (true, l.extend entries)) ∨
    ((∀ entries, ¬meaning entries) ∧ result = .ok (false, l))

/-- A test captures nothing. -/
theorem settles_test {test : Bool} {holds : Prop} (l : Ledger) (h : test = true ↔ holds) :
    Settles l (fun entries => holds ∧ entries = .empty) (.ok (test, l)) := by
  cases test with
  | true => exact .inl ⟨.empty, ⟨h.1 rfl, rfl⟩, by rw [l.extend_empty]⟩
  | false => exact .inr ⟨fun entries hentries => by simpa using h.2 hentries.1, rfl⟩

/-- A rest marker takes the children that the other items leave. -/
theorem matchItems_rest (setting : Setting) (source : String) (mark : Option (Option String))
    (items : List Pattern) (children : List Cursor) (l : Ledger) :
    matchItems setting (.rest source mark :: items) children l =
      matchItems setting items (children.drop (children.length - fixedCount items))
        (l.extend (.ofRun mark (children.take (children.length - fixedCount items)))) := by
  cases mark with
  | none => exact congrArg (matchItems setting items _) l.extend_empty.symm
  | some name => exact congrArg (matchItems setting items _) (l.push_bind _ name)

theorem matchItems_short {setting : Setting} {p : Pattern} {items : List Pattern} {l : Ledger}
    (h : p.isRest = false) : matchItems setting (p :: items) [] l = .ok (false, l) := by
  cases p <;> first | rfl | simp [isRest] at h

mutual

theorem matchNode_spec (setting : Setting) : ∀ (p : Pattern) (c : Cursor) (l : Ledger),
    p.wellPlaced = true → Settles l (Matches setting p c) (matchNode setting p c l)
  | .any, _, l, _ => .inl ⟨.empty, rfl, by rw [l.extend_empty, matchNode]⟩
  | .kind _, _, l, _ => settles_test l beq_iff_eq
  | .literal _ _, _, l, _ => settles_test l beq_iff_eq
  | .predicate _, _, l, _ => settles_test l Iff.rfl
  | .rest _ _, _, _, h => by simp [wellPlaced] at h
  | .capture name body, c, l, h => by
      rcases matchNode_spec setting body c l.reserve h with ⟨inner, hinner, hr⟩ | ⟨hnone, hr⟩
      · refine .inl ⟨.around (.node c) name inner, ⟨inner, hinner, rfl⟩, ?_⟩
        rw [matchNode, hr, ← l.reserve_extend_fill]
        rfl
      · refine .inr ⟨fun entries ⟨inner, hinner, _⟩ => hnone inner hinner, ?_⟩
        rw [matchNode, hr]
        exact congrArg (fun l => Except.ok (false, l)) l.reserve_cut
  | .negation body, c, l, h => by
      rcases matchNode_spec setting body c .empty h with ⟨inner, hinner, hr⟩ | ⟨hnone, hr⟩
      · refine .inr ⟨fun entries hentries => hentries.1 inner hinner, ?_⟩
        rw [matchNode, hr]
        rfl
      · refine .inl ⟨.empty, ⟨hnone, rfl⟩, ?_⟩
        rw [matchNode, hr, l.extend_empty]
        rfl
  | .choice _ branches, c, l, h => matchFirst_spec setting branches c l h
  | .node _ head items, c, l, h => by
      obtain ⟨hitems, hrest⟩ := Bool.and_eq_true_iff.1 h
      rw [matchNode]
      split
      next hhead =>
        refine .inr ⟨fun entries hentries => ?_, rfl⟩
        obtain ⟨name, rfl⟩ : ∃ name, head = some name := by
          cases head <;> simp at hhead
          exact ⟨_, rfl⟩
        rw [hentries.1 name rfl] at hhead
        simp at hhead
      next hhead =>
      have hkind : ∀ name ∈ head, c.node.kind = name := by
        rintro name rfl
        have heq : name = c.node.kind := by simpa using hhead
        exact heq.symm
      split
      next =>
        rcases matchItems_spec setting items c.namedChildren l hitems (of_decide_eq_true hrest) with
          ⟨entries, hentries, hr⟩ | ⟨hnone, left, hr⟩
        · refine .inl ⟨entries, ⟨hkind, hentries⟩, ?_⟩
          rw [hr]
          rfl
        · refine .inr ⟨fun entries hentries => hnone entries hentries.2, ?_⟩
          rw [hr]
          exact congrArg (fun l => Except.ok (false, l)) (l.extend_rewind left)
      next hfits => exact .inr ⟨fun entries hentries => hfits hentries.2.fits, rfl⟩

theorem matchFirst_spec (setting : Setting) : ∀ (ps : List Pattern) (c : Cursor) (l : Ledger),
    branchesPlaced ps = true → Settles l (MatchesFirst setting ps c) (matchFirst setting ps c l)
  | [], _, _, _ => .inr ⟨fun _ => id, rfl⟩
  | p :: ps, c, l, h => by
      obtain ⟨hp, hps⟩ := Bool.and_eq_true_iff.1 h
      rcases matchNode_spec setting p c l hp with ⟨entries, hentries, hr⟩ | ⟨hnone, hr⟩
      · refine .inl ⟨entries, .inl hentries, ?_⟩
        rw [matchFirst, hr]
        rfl
      · have hstep : matchFirst setting (p :: ps) c l = matchFirst setting ps c l := by
          rw [matchFirst, hr]
          exact congrArg (matchFirst setting ps c) l.rewind_self
        rcases matchFirst_spec setting ps c l hps with ⟨entries, hentries, hr⟩ | ⟨hnone', hr⟩
        · exact .inl ⟨entries, .inr ⟨hnone, hentries⟩, hstep.trans hr⟩
        · refine .inr ⟨fun entries hentries => ?_, hstep.trans hr⟩
          rcases hentries with hentries | ⟨-, hentries⟩
          · exact hnone entries hentries
          · exact hnone' entries hentries

/-- Items that fail may leave in the ledger what some of them captured. -/
theorem matchItems_spec (setting : Setting) : ∀ (items : List Pattern) (children : List Cursor)
    (l : Ledger), itemsPlaced items = true → (items.filter isRest).length ≤ 1 →
      (∃ entries, MatchesItems setting items children entries ∧
        matchItems setting items children l = .ok (true, l.extend entries)) ∨
      ((∀ entries, ¬MatchesItems setting items children entries) ∧
        ∃ entries, matchItems setting items children l = .ok (false, l.extend entries))
  | [], children, l, _, _ => by
      cases children with
      | nil => exact .inl ⟨.empty, ⟨rfl, rfl⟩, by rw [l.extend_empty]; rfl⟩
      | cons c children =>
          exact .inr ⟨fun entries h => by simpa using h.1, .empty, by rw [l.extend_empty]; rfl⟩
  | p :: items, children, l, h, hrest => by
      obtain ⟨hp, hitems⟩ := Bool.and_eq_true_iff.1 h
      cases hkind : p.isRest with
      | true =>
          obtain ⟨source, mark, rfl⟩ := exists_of_isRest hkind
          obtain ⟨hnone, hrest⟩ := only_rest hrest
          have hstep := matchItems_rest setting source mark items children l
          generalize hcount : children.length - fixedCount items = count at hstep
          rcases matchItems_spec setting items (children.drop count)
            (l.extend (.ofRun mark (children.take count))) hitems hrest with
            ⟨entries, hentries, hr⟩ | ⟨hfail, left, hr⟩
          · refine .inl ⟨_, ⟨children.take count, children.drop count, entries,
              (List.take_append_drop count children).symm, hentries, rfl⟩, ?_⟩
            rw [hstep, hr, l.extend_append]
          · refine .inr ⟨?_, (Entries.ofRun mark (children.take count)).append left, ?_⟩
            · rintro entries ⟨run, others, after, rfl, hafter, -⟩
              -- The other items say how long the run is, so no other split has to be tried.
              have hlength := hafter.length.2 hnone
              have hrun : count = run.length := by
                rw [← hcount, List.length_append]
                omega
              rw [hrun, List.drop_left] at hfail
              exact hfail after hafter
            · rw [hstep, hr, l.extend_append]
      | false =>
          have hp : p.wellPlaced = true := by simpa [hkind] using hp
          have hrest : (items.filter isRest).length ≤ 1 := by
            simpa [List.filter_cons, hkind] using hrest
          cases children with
          | nil =>
              refine .inr ⟨fun entries hentries => ?_, .empty, ?_⟩
              · obtain ⟨c, others, -, -, heq, -⟩ := (matchesItems_fixed hkind).1 hentries
                nomatch heq
              · rw [matchItems_short hkind, l.extend_empty]
          | cons c children =>
              have hstep := matchItems_fixed setting hkind items c children l
              rcases matchNode_spec setting p c l hp with ⟨first, hfirst, hr⟩ | ⟨hfail, hr⟩
              · rcases matchItems_spec setting items children (l.extend first) hitems hrest with
                  ⟨after, hafter, hr'⟩ | ⟨hfail, left, hr'⟩
                · refine .inl ⟨first.append after, (matchesItems_fixed hkind).2
                    ⟨c, children, first, after, rfl, hfirst, hafter, rfl⟩, ?_⟩
                  rw [hstep, hr, l.extend_append, ← hr']
                  rfl
                · refine .inr ⟨fun entries hentries => ?_, first.append left, ?_⟩
                  · obtain ⟨c', others, first', after, heq, -, hafter, -⟩ :=
                      (matchesItems_fixed hkind).1 hentries
                    obtain ⟨-, rfl⟩ := List.cons.inj heq
                    exact hfail after hafter
                  · rw [hstep, hr, l.extend_append, ← hr']
                    rfl
              · refine .inr ⟨fun entries hentries => ?_, .empty, ?_⟩
                · obtain ⟨c', others, first, after, heq, hfirst, -⟩ :=
                    (matchesItems_fixed hkind).1 hentries
                  obtain ⟨rfl, -⟩ := List.cons.inj heq
                  exact hfail first hfirst
                · rw [hstep, hr, l.extend_empty]
                  rfl

end

/-- Matching a compiled pattern agrees with what the pattern means: there is a result if and only if
the pattern matches the node.  Then it does so in one way, whose captures are those of the result,
in order, and every name has the value that it was given last.  A match that fails leaves nothing
behind in any ledger. -/
theorem run_compiled {vocabulary : Vocabulary} {description : String} {p : Pattern}
    (h : compile vocabulary description = .ok p) (setting : Setting) (c : Cursor) :
    (match run setting p c with
    | .ok (some b) => ∃ entries, (∀ other, Matches setting p c other ↔ other = entries) ∧
        b.captures = entries.captures ∧ ∀ name, b.get? name = entries.last? name
    | .ok none => ∀ entries, ¬Matches setting p c entries
    | .error _ => False) ∧
      ∀ l left, matchNode setting p c l = .ok (false, left) → left = l := by
  have hplaced := compile_placed h
  constructor
  · rcases matchNode_spec setting p c .empty hplaced with ⟨entries, hentries, hr⟩ | ⟨hnone, hr⟩
    · have hrun : run setting p c = .ok (some (Ledger.empty.extend entries).bindings) := by
        rw [run, hr]
        rfl
      rw [hrun]
      refine ⟨entries, fun other => ⟨fun hother => ?_, fun heq => heq ▸ hentries⟩,
        Ledger.bindings_extend_empty entries⟩
      exact Matches.unique setting p hplaced hother hentries
    · have hrun : run setting p c = .ok none := by
        rw [run, hr]
        rfl
      rw [hrun]
      exact hnone
  · intro l left hleft
    rcases matchNode_spec setting p c l hplaced with ⟨entries, -, hr⟩ | ⟨-, hr⟩
    · cases hr.symm.trans hleft
    · exact (Prod.mk.inj (Except.ok.inj (hleft.symm.trans hr))).2

/-- Two branches that capture the method before they look at its argument. -/
def alternatives : String :=
  "\x7b(call $x=identifier (argument_list $string $...)) " ++
    "(call $x=identifier (argument_list $x=simple_symbol $...))\x7d"

def symbolCall : Cursor :=
  .root ⟨"call", 0, 6, true, none, [⟨"identifier", 0, 1, true, none, []⟩,
    ⟨"argument_list", 2, 6, true, none, [⟨"simple_symbol", 2, 6, true, none, []⟩]⟩]⟩

def symbolSetting : Setting :=
  ⟨Source.ofText "a.rb" "f :foo", fun _ _ => false⟩

/-- The kind of a captured node, or the length of a captured run. -/
def Capture.summary : Capture → String ⊕ Nat
  | .node c => .inl c.node.kind
  | .run cs => .inr cs.length

/-- The captures of a pattern at a node, and what the name x stands for. -/
def summary (description : String) (setting : Setting) (c : Cursor) :
    Option (List (String ⊕ Nat) × Option (String ⊕ Nat)) := do
  let p ← (compile ⟨none, []⟩ description).toOption
  let b ← (← (run setting p c).toOption)
  return (b.captures.map Capture.summary, (b.get? "x").map Capture.summary)

theorem exists_of_summary {description : String} {setting : Setting} {c : Cursor}
    {found : List (String ⊕ Nat)} {named : Option (String ⊕ Nat)}
    (h : summary description setting c = some (found, named)) :
    ∃ p b, compile ⟨none, []⟩ description = .ok p ∧ run setting p c = .ok (some b) ∧
      b.captures.map Capture.summary = found ∧ (b.get? "x").map Capture.summary = named := by
  rw [summary] at h
  cases hp : compile ⟨none, []⟩ description with
  | error fault => simp [hp, Except.toOption] at h
  | ok p =>
      cases hr : run setting p c with
      | error fault => simp [hp, hr, Except.toOption] at h
      | ok result =>
          cases result with
          | none => simp [hp, hr, Except.toOption] at h
          | some b =>
              simp only [hp, hr, Except.toOption, Option.bind_eq_bind, Option.bind_some, pure,
                Option.some.injEq, Prod.mk.injEq] at h
              exact ⟨p, b, rfl, hr, h⟩

/-- The first branch fails behind its capture of the method, of which nothing is left in the
result. -/
theorem run_compiled_alternatives :
    ∃ p b, compile ⟨none, []⟩ alternatives = .ok p ∧ run symbolSetting p symbolCall = .ok (some b) ∧
      b.captures.map Capture.summary = [.inl "identifier", .inl "simple_symbol", .inr 0] ∧
      (b.get? "x").map Capture.summary = some (.inl "simple_symbol") ∧
      (∃ entries, (∀ other, Matches symbolSetting p symbolCall other ↔ other = entries) ∧
        b.captures = entries.captures ∧ ∀ name, b.get? name = entries.last? name) ∧
      ∀ l left, matchNode symbolSetting p symbolCall l = .ok (false, left) → left = l := by
  obtain ⟨p, b, hp, hr, hfound, hnamed⟩ := exists_of_summary
    (show summary alternatives symbolSetting symbolCall = some
      ([.inl "identifier", .inl "simple_symbol", .inr 0], some (.inl "simple_symbol"))
      by decide +kernel)
  have hagrees := run_compiled hp symbolSetting symbolCall
  rw [hr] at hagrees
  exact ⟨p, b, hp, hr, hfound, hnamed, hagrees⟩

end RubyLint.Pattern
