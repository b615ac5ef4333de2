import RubyLint.Proofs.Pattern.Compiled
import RubyLint.Proofs.Pattern.Matching
import RubyLint.Proofs.Tree.Place

/-!
# Captured values

How many values a pattern captures is known once it is compiled: the branches of a choice agree on
it, so it does not matter which of them matches.  What is captured comes from the tree below the
matched node, and a name stands for a value that is also captured in its place.
-/

namespace RubyLint.Pattern

open Cursor

variable {scope : Scope} {inSequence : Bool} {ts : List Token} {setting : Setting}
variable {p : Pattern} {ps items : List Pattern} {c x : Cursor} {children : List Cursor}
variable {entries first second : Entries}

/-! ## The number of captures -/

theorem exists_branch (h : MatchesFirst setting ps c entries) :
    ∃ q ∈ ps, Matches setting q c entries := by
  induction ps with
  | nil => exact h.elim
  | cons q qs ih =>
      rcases h with h | ⟨-, h⟩
      · exact ⟨q, List.mem_cons_self, h⟩
      · obtain ⟨r, hr, hmatches⟩ := ih h
        exact ⟨r, List.mem_cons_of_mem q hr, hmatches⟩

/-- A pattern whose matches all capture as many values as it says. -/
def Counted (setting : Setting) (p : Pattern) : Prop :=
  ∀ c entries, Matches setting p c entries → entries.captures.length = p.captures

theorem length_ofRun (source : String) (mark : Option (Option String)) (run : List Cursor) :
    (Entries.ofRun mark run).captures.length = (Pattern.rest source mark).captures := by
  cases mark <;> rfl

theorem length_of_matchesItems (hitems : ∀ q ∈ items, Counted setting q)
    (h : MatchesItems setting items children entries) :
    entries.captures.length = capturesOfAll items := by
  induction items generalizing children entries with
  | nil =>
      obtain ⟨-, rfl⟩ := h
      rfl
  | cons q items ih =>
      have hrest := fun r hr => hitems r (List.mem_cons_of_mem q hr)
      rw [capturesOfAll]
      cases hq : q.isRest with
      | true =>
          obtain ⟨source, mark, rfl⟩ := exists_of_isRest hq
          obtain ⟨run, others, after, rfl, hafter, rfl⟩ := h
          rw [Entries.append, List.length_append, length_ofRun source, ih hrest hafter]
      | false =>
          obtain ⟨d, others, own, after, rfl, hown, hafter, rfl⟩ := (matchesItems_fixed hq).1 h
          rw [Entries.append, List.length_append, ih hrest hafter,
            hitems q List.mem_cons_self d own hown]

theorem Counted.captured (h : Counted setting p) (name : Option String) :
    Counted setting (captured name p) := by
  intro c entries hmatches
  cases p with
  | rest source mark => exact hmatches.elim
  | _ =>
      obtain ⟨inner, hinner, rfl⟩ := hmatches
      exact congrArg (· + 1) (h c inner hinner)

/-- Branches that agree on the number of captures have that of the choice. -/
theorem captures_of_even {q : Pattern} (h : ∀ p ∈ ps, ∀ q ∈ ps, p.captures = q.captures)
    (hq : q ∈ ps) : q.captures = capturesOfFirst ps := by
  cases ps with
  | nil => simp at hq
  | cons r rs => exact h q hq r List.mem_cons_self

mutual

/-- What the grammar derives captures as many values as it says. -/
theorem Derives.counted : ∀ {inSequence : Bool} {ts : List Token} {p : Pattern},
    Derives scope inSequence ts p → Counted setting p
  | _, _, _, .node _ _ _ hitems _ _ => fun c entries h =>
      length_of_matchesItems hitems.counted h.2
  | _, _, _, .choice _ hbranches _ heven _ => fun c entries h => by
      obtain ⟨q, hq, hmatches⟩ := exists_branch h
      exact (hbranches.counted q hq c entries hmatches).trans (captures_of_even heven hq)
  | _, _, _, .rest _ => fun c entries h => h.elim
  | _, _, _, .capture _ hbody => hbody.counted.captured _
  | _, _, _, .negation _ _ _ => fun c entries h => congrArg (·.captures.length) h.2
  | _, _, _, .string _ => fun c entries h => congrArg (·.captures.length) h.2
  | _, _, _, .symbol _ => fun c entries h => congrArg (·.captures.length) h.2
  | _, _, _, .number _ => fun c entries h => congrArg (·.captures.length) h.2
  | _, _, _, .predicate _ _ => fun c entries h => congrArg (·.captures.length) h.2
  | _, _, _, .any _ _ => fun c entries h => congrArg (·.captures.length) h
  | _, _, _, .kind _ _ _ => fun c entries h => congrArg (·.captures.length) h.2

theorem DerivesAll.counted : ∀ {inSequence : Bool} {ts : List Token} {ps : List Pattern},
    DerivesAll scope inSequence ts ps → ∀ q ∈ ps, Counted setting q
  | _, _, _, .nil => by simp
  | _, _, _, .cons hfirst hrest =>
      List.forall_mem_cons.2 ⟨hfirst.counted, hrest.counted⟩

end

/-! ## Where captures come from -/

/-- A value that a pattern with some parts can capture at a place: a node at or below it or, if one
of the parts is a captured rest marker, consecutive named children of such a node. -/
def Capture.Within (parts : List Pattern) (c : Cursor) : Capture → Prop
  | .node x => Below c x
  | .run xs => (∃ source name, .rest source (some name) ∈ parts) ∧
      ∃ parent before after, Below c parent ∧ parent.namedChildren = before ++ xs ++ after

/-- Entries whose values can all be captured at a place, and whose names stand for captures. -/
structure Entries.Sound (parts : List Pattern) (c : Cursor) (entries : Entries) : Prop where
  within : ∀ v ∈ entries.captures, v.Within parts c
  named : ∀ entry ∈ entries.named, entry.2 ∈ entries.captures

namespace Entries

variable {parts more : List Pattern}

theorem sound_empty : empty.Sound parts c :=
  ⟨by simp [empty], by simp [empty]⟩

theorem Sound.append (hfirst : first.Sound parts c) (hsecond : second.Sound parts c) :
    (first.append second).Sound parts c where
  within v hv := (List.mem_append.1 hv).elim (hfirst.within v) (hsecond.within v)
  named entry hentry := (List.mem_append.1 hentry).elim
    (fun h => List.mem_append_left _ (hfirst.named entry h))
    (fun h => List.mem_append_right _ (hsecond.named entry h))

theorem Sound.around {value : Capture} (hvalue : value.Within parts c)
    (h : entries.Sound parts c) (name : Option String) :
    (entries.around value name).Sound parts c where
  within := List.forall_mem_cons.2 ⟨hvalue, h.within⟩
  named entry hentry := by
    rcases List.mem_append.1 hentry with hentry | hentry
    · exact List.mem_cons_of_mem value (h.named entry hentry)
    · obtain ⟨_, -, rfl⟩ := List.mem_map.1 hentry
      exact List.mem_cons_self

/-- What can be captured below a place by some of the parts can be captured at the place. -/
theorem Sound.mono (h : entries.Sound parts x) (hbelow : Below c x) (hparts : parts ⊆ more) :
    entries.Sound more c where
  within v hv := by
    have hwithin := h.within v hv
    cases v with
    | node y => exact hbelow.trans hwithin
    | run ys =>
        obtain ⟨⟨source, name, hmem⟩, parent, before, after, hparent, hchildren⟩ := hwithin
        exact ⟨⟨source, name, hparts hmem⟩, parent, before, after, hbelow.trans hparent, hchildren⟩
  named := h.named

end Entries

open Entries

theorem mem_namedChildren_below (h : x ∈ c.namedChildren) : Below c x :=
  .of_mem_children (List.mem_filter.1 h).1

mutual

theorem Matches.sound (setting : Setting) : ∀ (p : Pattern) {c : Cursor} {entries : Entries},
    Matches setting p c entries → entries.Sound p.parts c
  | .any, _, _, h => by
      obtain rfl := h
      exact sound_empty
  | .kind _, _, _, h | .literal _ _, _, _, h | .predicate _, _, _, h | .negation _, _, _, h => by
      obtain ⟨-, rfl⟩ := h
      exact sound_empty
  | .rest _ _, _, _, h => h.elim
  | .capture name body, c, _, h => by
      obtain ⟨inner, hinner, rfl⟩ := h
      have hbody : inner.Sound (Pattern.capture name body).parts c :=
        (Matches.sound setting body hinner).mono .refl (List.subset_cons_self _ _)
      have hvalue : (Capture.node c).Within (Pattern.capture name body).parts c := .refl
      exact hbody.around hvalue name
  | .choice _ branches, _, _, h =>
      (MatchesFirst.sound setting branches h).mono .refl (List.subset_cons_self _ _)
  | .node _ _ items, c, _, h =>
      have hchildren : c.namedChildren = [] ++ c.namedChildren := rfl
      (MatchesItems.sound setting items hchildren h.2).mono .refl (List.subset_cons_self _ _)

theorem MatchesFirst.sound (setting : Setting) : ∀ (ps : List Pattern) {c : Cursor}
    {entries : Entries}, MatchesFirst setting ps c entries → entries.Sound (partsOfAll ps) c
  | [], _, _, h => h.elim
  | p :: ps, _, _, h => by
      rcases h with h | ⟨-, h⟩
      · exact (Matches.sound setting p h).mono .refl (List.subset_append_left _ _)
      · exact (MatchesFirst.sound setting ps h).mono .refl (List.subset_append_right _ _)

/-- The children that are left to match end the named children of the place. -/
theorem MatchesItems.sound (setting : Setting) : ∀ (items : List Pattern) {c : Cursor}
    {before children : List Cursor} {entries : Entries}, c.namedChildren = before ++ children →
      MatchesItems setting items children entries → entries.Sound (partsOfAll items) c
  | [], _, _, _, _, _, h => by
      obtain ⟨-, rfl⟩ := h
      exact sound_empty
  | p :: items, c, before, _, _, hchildren, h => by
      cases hp : p.isRest with
      | true =>
          obtain ⟨source, mark, rfl⟩ := exists_of_isRest hp
          obtain ⟨run, others, after, rfl, hafter, rfl⟩ := h
          have hsplit : c.namedChildren = (before ++ run) ++ others := by
            rw [hchildren, List.append_assoc]
          have hrest := (MatchesItems.sound setting items hsplit hafter).mono .refl
            (List.subset_append_right (Pattern.rest source mark).parts _)
          refine Sound.append ?_ hrest
          cases mark with
          | none => exact sound_empty
          | some name =>
              have hmem : Pattern.rest source (some name) ∈
                  partsOfAll (.rest source (some name) :: items) :=
                List.mem_append_left _ (List.mem_singleton_self _)
              have hvalue : (Capture.run run).Within
                  (partsOfAll (.rest source (some name) :: items)) c :=
                ⟨⟨source, name, hmem⟩, c, before, others, .refl, hsplit⟩
              exact sound_empty.around hvalue name
      | false =>
          obtain ⟨d, others, own, after, rfl, hown, hafter, rfl⟩ := (matchesItems_fixed hp).1 h
          have hd : d ∈ c.namedChildren := by
            rw [hchildren]
            exact List.mem_append_right _ List.mem_cons_self
          have hsplit : c.namedChildren = (before ++ [d]) ++ others := by
            rw [hchildren, List.append_assoc, List.singleton_append]
          exact Sound.append
            ((Matches.sound setting p hown).mono (mem_namedChildren_below hd)
              (List.subset_append_left _ _))
            ((MatchesItems.sound setting items hsplit hafter).mono .refl
              (List.subset_append_right _ _))

end

/-! ## Results -/

theorem mem_of_mem_foldl_rename {given named : List (String × Capture)} {entry : String × Capture}
    (h : entry ∈ given.foldl Ledger.rename named) : entry ∈ given ∨ entry ∈ named := by
  induction given generalizing named with
  | nil => exact .inr h
  | cons next given ih =>
      rcases ih h with h | h
      · exact .inl (List.mem_cons_of_mem next h)
      rcases List.mem_append.1 h with h | h
      · exact .inr (List.mem_filter.1 h).1
      · exact .inl (List.mem_cons.2 (.inl (List.mem_singleton.1 h)))

/-- A run ends with the bindings of the one match there is, or with nothing. -/
theorem run_spec (setting : Setting) (c : Cursor) (h : p.wellPlaced = true) :
    (∃ entries, Matches setting p c entries ∧
        matchNode setting p c .empty = .ok (true, Ledger.empty.extend entries) ∧
        run setting p c = .ok (some (Ledger.empty.extend entries).bindings)) ∨
      ((∀ entries, ¬Matches setting p c entries) ∧
        matchNode setting p c .empty = .ok (false, .empty) ∧ run setting p c = .ok none) := by
  rcases matchNode_spec setting p c .empty h with ⟨entries, hentries, hr⟩ | ⟨hnone, hr⟩
  · refine .inl ⟨entries, hentries, hr, ?_⟩
    rw [run, hr]
    rfl
  · refine .inr ⟨hnone, hr, ?_⟩
    rw [run, hr]
    rfl

/-- A compiled pattern is matched against every node without a fault.  A result has as many captures
as the pattern says, every slot that was reserved holds one of them, each is a node at or below the
matched one or, for a captured rest marker, consecutive named children of such a node, and every
name stands for one of the captures. -/
theorem run_captures {vocabulary : Vocabulary} {description : String}
    (h : compile vocabulary description = .ok p) (setting : Setting) (c : Cursor) :
    ∃ result l, run setting p c = .ok result ∧
      matchNode setting p c .empty = .ok (result.isSome, l) ∧
      ∀ b ∈ result, b.captures.length = p.captures ∧ l.slots = b.captures.map some ∧
        (∀ v ∈ b.captures, v.Within p.parts c) ∧ ∀ entry ∈ b.named, entry.2 ∈ b.captures := by
  obtain ⟨ts, -, hcompile⟩ := bind_eq_ok h
  have hcounted : Counted setting p := (compileTokens_eq_ok_iff.1 hcompile).counted
  rcases run_spec setting c (compile_placed h) with ⟨entries, hentries, hr, hrun⟩ | ⟨-, hr, hrun⟩
  · refine ⟨_, _, hrun, hr, ?_⟩
    intro b hb
    obtain rfl := Option.some.inj hb
    have hsound := Matches.sound setting p hentries
    rw [(Ledger.bindings_extend_empty entries).1]
    refine ⟨hcounted c entries hentries, List.nil_append _, hsound.within, ?_⟩
    intro entry hentry
    rcases mem_of_mem_foldl_rename hentry with hentry | hentry
    · exact hsound.named entry hentry
    · simp [Ledger.empty] at hentry
  · exact ⟨none, .empty, hrun, hr, by simp⟩

/-- The branch that matches captures a method, a symbol under the same name as the method, and an
empty run. -/
theorem run_captures_alternatives :
    ∃ p b l, compile ⟨none, []⟩ alternatives = .ok p ∧
      run symbolSetting p symbolCall = .ok (some b) ∧
      matchNode symbolSetting p symbolCall .empty = .ok (true, l) ∧
      b.captures.map Capture.summary = [.inl "identifier", .inl "simple_symbol", .inr 0] ∧
      b.captures.length = p.captures ∧ l.slots = b.captures.map some ∧
      (∀ v ∈ b.captures, v.Within p.parts symbolCall) ∧
      ∀ entry ∈ b.named, entry.2 ∈ b.captures := by
  obtain ⟨p, b, hp, hr, hfound, -⟩ := exists_of_summary
    (show summary alternatives symbolSetting symbolCall = some
      ([.inl "identifier", .inl "simple_symbol", .inr 0], some (.inl "simple_symbol"))
      by decide +kernel)
  obtain ⟨result, l, hresult, hmatch, hcaptures⟩ := run_captures hp symbolSetting symbolCall
  obtain rfl := Except.ok.inj (hr.symm.trans hresult)
  exact ⟨p, b, l, hp, hr, hmatch, hfound, hcaptures b rfl⟩

end RubyLint.Pattern
