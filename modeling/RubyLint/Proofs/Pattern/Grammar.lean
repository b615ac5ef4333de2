import RubyLint.Pattern.Compile
import RubyLint.Proofs.Steps

/-!
# The grammar of patterns

A token sequence is a pattern if the grammar derives it.  Compilation decides just that: it succeeds
on the sequences that the grammar derives, and the pattern that it returns is the only one derived.
A rest marker is derived only where the grammar asks for an item of a node.
-/

namespace RubyLint.Pattern

mutual

/-- The patterns that the grammar derives from token sequences.  The flag says whether the sequence
is an item of a node. -/
inductive Derives (scope : Scope) : Bool → List Token → Pattern → Prop
  | node {inSequence : Bool} {opening head closing : Token} {inner : List Token}
      {items : List Pattern} (hopening : opening.kind = .opening .round) (hhead : head.kind = .word)
      (hkind : head.text = "_" ∨ scope.knows head.text = true)
      (hitems : DerivesAll scope true inner items)
      (hrest : (items.filter isRest).length ≤ 1) (hclosing : closing.kind = .closing .round) :
      Derives scope inSequence (opening :: head :: (inner ++ [closing]))
        (.node (scope.cut opening.offset closing.offset)
          (if head.text = "_" then none else some head.text) items)
  | choice {inSequence : Bool} {opening closing : Token} {inner : List Token}
      {branches : List Pattern} (hopening : opening.kind = .opening .curly)
      (hbranches : DerivesAll scope false inner branches) (hne : branches ≠ [])
      (heven : ∀ p ∈ branches, ∀ q ∈ branches, p.captures = q.captures)
      (hclosing : closing.kind = .closing .curly) :
      Derives scope inSequence (opening :: (inner ++ [closing]))
        (.choice (scope.cut opening.offset closing.offset) branches)
  | rest {t : Token} (ht : t.kind = .rest) : Derives scope true [t] (.rest t.text none)
  | capture {inSequence : Bool} {t : Token} {name : Option String} {ts : List Token}
      {body : Pattern}
      (ht : t.kind = .capture name) (hbody : Derives scope inSequence ts body) :
      Derives scope inSequence (t :: ts) (captured name body)
  | negation {inSequence : Bool} {t : Token} {ts : List Token} {body : Pattern}
      (ht : t.kind = .negation) (hbody : Derives scope false ts body) (hnone : body.captures = 0) :
      Derives scope inSequence (t :: ts) (.negation body)
  | string {inSequence : Bool} {t : Token} (ht : t.kind = .string) :
      Derives scope inSequence [t] (.literal t.text (stringValue t.text))
  | symbol {inSequence : Bool} {t : Token} (ht : t.kind = .symbol) :
      Derives scope inSequence [t] (.literal t.text (String.ofList (t.text.toList.drop 1)))
  | number {inSequence : Bool} {t : Token} (ht : t.kind = .number) :
      Derives scope inSequence [t] (.literal t.text t.text)
  | predicate {inSequence : Bool} {t : Token} (ht : t.kind = .predicate)
      (hknown : String.ofList (t.text.toList.drop 1) ∈ scope.predicates) :
      Derives scope inSequence [t] (.predicate (String.ofList (t.text.toList.drop 1)))
  | any {inSequence : Bool} {t : Token} (ht : t.kind = .word) (htext : t.text = "_") :
      Derives scope inSequence [t] .any
  | kind {inSequence : Bool} {t : Token} (ht : t.kind = .word) (htext : t.text ≠ "_")
      (hknown : scope.knows t.text = true) : Derives scope inSequence [t] (.kind t.text)

/-- The sequences of patterns that the grammar derives from token sequences. -/
inductive DerivesAll (scope : Scope) : Bool → List Token → List Pattern → Prop
  | nil {inSequence : Bool} : DerivesAll scope inSequence [] []
  | cons {inSequence : Bool} {ts rest : List Token} {p : Pattern} {ps : List Pattern}
      (hfirst : Derives scope inSequence ts p) (hrest : DerivesAll scope inSequence rest ps) :
      DerivesAll scope inSequence (ts ++ rest) (p :: ps)

end

variable {scope : Scope} {inSequence : Bool} {t : Token} {p : Pattern} {ts rest : List Token}

/-! ## What is compiled is derived -/

theorem atom?_derives (h : atom? scope inSequence t = some (.ok p)) :
    Derives scope inSequence [t] p := by
  rw [atom?] at h
  split at h
  next => simp at h
  next hkind =>
    split at h
    next hsequence =>
      obtain rfl := Except.ok.inj (Option.some.inj h)
      subst hsequence
      exact .rest hkind
    next => simp at h
  next hkind =>
    obtain rfl := Except.ok.inj (Option.some.inj h)
    exact .string hkind
  next hkind =>
    obtain rfl := Except.ok.inj (Option.some.inj h)
    exact .symbol hkind
  next hkind =>
    obtain rfl := Except.ok.inj (Option.some.inj h)
    exact .number hkind
  next hkind =>
    dsimp only at h
    split at h
    next hknown =>
      obtain rfl := Except.ok.inj (Option.some.inj h)
      exact .predicate hkind (by simpa using hknown)
    next => simp at h
  next hkind =>
    split at h
    next htext =>
      obtain rfl := Except.ok.inj (Option.some.inj h)
      exact .any hkind (eq_of_beq htext)
    next htext =>
      split at h
      next hknown =>
        obtain rfl := Except.ok.inj (Option.some.inj h)
        exact .kind hkind (by simpa using htext) hknown
      next => simp at h
  next => simp at h

theorem kind_of_atom?_eq_none (h : atom? scope inSequence t = none) :
    (∃ bracket, t.kind = .opening bracket) ∨ (∃ name, t.kind = .capture name) ∨
      t.kind = .negation := by
  rw [atom?] at h
  cases hkind : t.kind with
  | opening bracket => exact .inl ⟨bracket, rfl⟩
  | capture name => exact .inr (.inl ⟨name, rfl⟩)
  | negation => exact .inr (.inr rfl)
  | _ => simp [hkind] at h

theorem makeChoice_eq_ok {first last : Nat} {branches : List Pattern}
    (h : makeChoice scope first last branches = .ok p) :
    p = .choice (scope.cut first last) branches ∧ branches ≠ [] ∧
      ∀ p ∈ branches, ∀ q ∈ branches, p.captures = q.captures := by
  cases branches with
  | nil => nomatch h
  | cons p ps =>
      rw [makeChoice] at h
      split at h
      next hall =>
        obtain rfl := Except.ok.inj h
        have hfirst : ∀ q ∈ p :: ps, q.captures = p.captures := by
          simpa using hall
        exact ⟨rfl, by simp, fun q hq q' hq' => (hfirst q hq).trans (hfirst q' hq').symm⟩
      next => nomatch h

theorem makeNode_eq_ok {first last : Nat} {kind : String} {items : List Pattern}
    (h : makeNode scope first last kind items = .ok p) :
    p = .node (scope.cut first last) (if kind = "_" then none else some kind) items ∧
      (items.filter isRest).length ≤ 1 := by
  rw [makeNode] at h
  split at h
  next => nomatch h
  next hrest =>
    obtain rfl := Except.ok.inj h
    exact ⟨by simp, by omega⟩

mutual

theorem compileOne_derives (scope : Scope) : ∀ (depth : Nat) (inSequence : Bool) (ts : List Token)
    {p : Pattern} {rest : List Token}, compileOne scope depth inSequence ts = .ok (p, rest) →
      ∃ used, ts = used ++ rest ∧ Derives scope inSequence used p
  | 0, _, _, _, _, h => by simp [compileOne] at h
  | _ + 1, _, [], _, _, h => by simp [compileOne] at h
  | depth + 1, inSequence, t :: ts, p, later, h => by
      rw [compileOne.eq_def] at h
      dsimp only at h
      split at h
      next result hatom =>
        obtain ⟨q, rfl, heq⟩ := map_eq_ok h
        obtain ⟨rfl, rfl⟩ := Prod.mk.inj heq
        exact ⟨[t], rfl, atom?_derives hatom⟩
      next hatom =>
      split at h
      next name hkind =>
        split at h
        · nomatch h
        obtain ⟨⟨body, ts'⟩, hbody, h⟩ := bind_eq_ok h
        obtain ⟨rfl, rfl⟩ := Prod.mk.inj (Except.ok.inj h)
        obtain ⟨used, rfl, hderives⟩ := compileOne_derives scope depth inSequence ts hbody
        exact ⟨t :: used, rfl, .capture hkind hderives⟩
      next hkind =>
        obtain ⟨⟨body, ts'⟩, hbody, h⟩ := bind_eq_ok h
        split at h
        · obtain ⟨_, hthrow, _⟩ := bind_eq_ok h
          nomatch hthrow
        next hnone =>
          obtain ⟨rfl, rfl⟩ := Prod.mk.inj (Except.ok.inj h)
          obtain ⟨used, rfl, hderives⟩ := compileOne_derives scope depth false ts hbody
          exact ⟨t :: used, rfl, .negation hkind hderives (by simpa using hnone)⟩
      next hkind =>
        obtain ⟨⟨branches, last, ts'⟩, hbranches, h⟩ := bind_eq_ok h
        obtain ⟨q, hq, h⟩ := bind_eq_ok h
        obtain ⟨rfl, rfl⟩ := Prod.mk.inj (Except.ok.inj h)
        obtain ⟨inner, closing, rfl, hclosing, rfl, hinner⟩ :=
          compileUntil_derives scope depth .curly t.offset ts hbranches
        obtain ⟨rfl, hne, heven⟩ := makeChoice_eq_ok hq
        exact ⟨t :: (inner ++ [closing]), by simp, .choice hkind hinner hne heven hclosing⟩
      next hcapture hnegation hcurly =>
        split at h
        · nomatch h
        next head ts =>
        split at h
        · obtain ⟨_, hthrow, _⟩ := bind_eq_ok h
          nomatch hthrow
        next hhead =>
        split at h
        · obtain ⟨_, hthrow, _⟩ := bind_eq_ok h
          nomatch hthrow
        next hknown =>
        obtain ⟨⟨items, last, ts'⟩, hitems, h⟩ := bind_eq_ok h
        obtain ⟨q, hq, h⟩ := bind_eq_ok h
        obtain ⟨rfl, rfl⟩ := Prod.mk.inj (Except.ok.inj h)
        obtain ⟨inner, closing, rfl, hclosing, rfl, hinner⟩ :=
          compileUntil_derives scope depth .round t.offset ts hitems
        obtain ⟨rfl, hrest⟩ := makeNode_eq_ok hq
        have hopening : t.kind = .opening .round := by
          rcases kind_of_atom?_eq_none hatom with ⟨_ | _, hkind⟩ | ⟨name, hkind⟩ | hkind
          · exact hkind
          · exact absurd hkind hcurly
          · exact absurd hkind (hcapture name)
          · exact absurd hkind hnegation
        have hkind : head.text = "_" ∨ scope.knows head.text = true := by
          by_cases htext : head.text = "_"
          · exact .inl htext
          · exact .inr (by simpa [htext] using hknown)
        exact ⟨t :: head :: (inner ++ [closing]), by simp,
          .node hopening (by simpa using hhead) hkind hinner hrest hclosing⟩

theorem compileUntil_derives (scope : Scope) : ∀ (depth : Nat) (bracket : Bracket) (first : Nat)
    (ts : List Token) {items : List Pattern} {last : Nat} {rest : List Token},
    compileUntil scope depth bracket first ts = .ok (items, last, rest) →
      ∃ inner closing, ts = inner ++ closing :: rest ∧ closing.kind = .closing bracket ∧
        last = closing.offset ∧ DerivesAll scope (bracket == .round) inner items
  | 0, _, _, _, _, _, _, h => by simp [compileUntil] at h
  | _ + 1, _, _, [], _, _, _, h => by simp [compileUntil] at h
  | depth + 1, bracket, first, t :: ts, items, last, later, h => by
      rw [compileUntil] at h
      split at h
      next found hkind =>
        split at h
        next hfound =>
          obtain ⟨rfl, hend⟩ := Prod.mk.inj (Except.ok.inj h)
          obtain ⟨rfl, rfl⟩ := Prod.mk.inj hend
          exact ⟨[], t, rfl, hfound ▸ hkind, rfl, .nil⟩
        next => nomatch h
      next =>
        obtain ⟨⟨item, ts'⟩, hitem, h⟩ := bind_eq_ok h
        obtain ⟨⟨items', last', ts''⟩, hitems, h⟩ := bind_eq_ok h
        obtain ⟨rfl, hend⟩ := Prod.mk.inj (Except.ok.inj h)
        obtain ⟨rfl, rfl⟩ := Prod.mk.inj hend
        obtain ⟨used, hused, hfirst⟩ := compileOne_derives scope depth _ (t :: ts) hitem
        obtain ⟨inner, closing, rfl, hclosing, rfl, hrest⟩ :=
          compileUntil_derives scope depth bracket first ts' hitems
        exact ⟨used ++ inner, closing, by rw [hused, List.append_assoc], hclosing, rfl,
          .cons hfirst hrest⟩

end

/-! ## What is derived is compiled -/

variable {depth : Nat}

theorem Derives.exists_cons (h : Derives scope inSequence ts p) :
    ∃ t rest, ts = t :: rest ∧ ∀ bracket, t.kind ≠ .closing bracket := by
  cases h with
  | node hopening => exact ⟨_, _, rfl, by simp [hopening]⟩
  | choice hopening => exact ⟨_, _, rfl, by simp [hopening]⟩
  | rest ht | capture ht | negation ht | string ht | symbol ht | number ht | predicate ht | any ht
  | kind ht => exact ⟨_, _, rfl, by simp [ht]⟩

theorem compileOne_atom (h : atom? scope inSequence t = some (.ok p)) (rest : List Token) :
    compileOne scope (depth + 1) inSequence (t :: rest) = .ok (p, rest) := by
  rw [compileOne.eq_def]
  simp only [h]
  rfl

theorem compileUntil_closing {bracket : Bracket} (first : Nat) (ht : t.kind = .closing bracket)
    (rest : List Token) :
    compileUntil scope (depth + 1) bracket first (t :: rest) = .ok ([], t.offset, rest) := by
  rw [compileUntil, ht]
  simp

theorem compileUntil_item {bracket : Bracket} {first last : Nat} {items : List Pattern}
    {following : List Token} (ht : ∀ bracket, t.kind ≠ .closing bracket)
    (hitem : compileOne scope depth (bracket == .round) (t :: ts) = .ok (p, rest))
    (hitems : compileUntil scope depth bracket first rest = .ok (items, last, following)) :
    compileUntil scope (depth + 1) bracket first (t :: ts) = .ok (p :: items, last, following) := by
  rw [compileUntil]
  split
  next found hfound => exact absurd hfound (ht found)
  next => simp [hitem, hitems, bind, Except.bind, pure, Except.pure]

/-- A pattern without captures is compiled under a negation. -/
theorem compileOne_negation (ht : t.kind = .negation)
    (hbody : compileOne scope depth false ts = .ok (p, rest)) (hnone : p.captures = 0) :
    compileOne scope (depth + 1) inSequence (t :: ts) = .ok (.negation p, rest) := by
  rw [compileOne.eq_def]
  simp [atom?, ht, hbody, hnone, bind, Except.bind, pure, Except.pure]

theorem compileOne_capture {name : Option String} (ht : t.kind = .capture name) (hne : ts ≠ [])
    (hbody : compileOne scope depth inSequence ts = .ok (p, rest)) :
    compileOne scope (depth + 1) inSequence (t :: ts) = .ok (captured name p, rest) := by
  rw [compileOne.eq_def]
  simp [atom?, ht, hne, hbody, bind, Except.bind, pure, Except.pure]

theorem compileOne_choice {branches : List Pattern} {last : Nat} (ht : t.kind = .opening .curly)
    (hbranches : compileUntil scope depth .curly t.offset ts = .ok (branches, last, rest))
    (hne : branches ≠ []) (heven : ∀ p ∈ branches, ∀ q ∈ branches, p.captures = q.captures) :
    compileOne scope (depth + 1) inSequence (t :: ts) =
      .ok (.choice (scope.cut t.offset last) branches, rest) := by
  have hchoice : makeChoice scope t.offset last branches =
      .ok (.choice (scope.cut t.offset last) branches) := by
    cases branches with
    | nil => exact absurd rfl hne
    | cons p ps =>
        have hall : (ps.all fun q => q.captures == p.captures) = true := by
          rw [List.all_eq_true]
          intro q hq
          exact beq_iff_eq.2 (heven q (List.mem_cons_of_mem p hq) p List.mem_cons_self)
        rw [makeChoice, if_pos hall]
  rw [compileOne.eq_def]
  simp [atom?, ht, hbranches, hchoice, bind, Except.bind, pure, Except.pure]

theorem compileOne_node {head : Token} {items : List Pattern} {last : Nat}
    (ht : t.kind = .opening .round) (hhead : head.kind = .word)
    (hkind : head.text = "_" ∨ scope.knows head.text = true)
    (hitems : compileUntil scope depth .round t.offset ts = .ok (items, last, rest))
    (hrest : (items.filter isRest).length ≤ 1) :
    compileOne scope (depth + 1) inSequence (t :: head :: ts) =
      .ok (.node (scope.cut t.offset last) (if head.text = "_" then none else some head.text) items,
        rest) := by
  have hnode : makeNode scope t.offset last head.text items =
      .ok (.node (scope.cut t.offset last) (if head.text = "_" then none else some head.text)
        items) := by
    rw [makeNode, if_neg (by omega)]
    simp
  have hknown : (head.text != "_" && !scope.knows head.text) = false := by
    rcases hkind with hkind | hkind <;> simp [hkind]
  rw [compileOne.eq_def]
  simp [atom?, ht, hhead, hknown, hitems, hnode, bind, Except.bind, pure, Except.pure]

mutual

/-- Compilation goes one step deeper to enter an item and one to go on to the next; every item has a
token of its own, so two steps for each token are enough. -/
theorem Derives.compileOne_eq : ∀ {inSequence : Bool} {used : List Token} {p : Pattern},
    Derives scope inSequence used p → ∀ (depth : Nat) (later : List Token),
      2 * used.length ≤ depth + 1 →
        compileOne scope depth inSequence (used ++ later) = .ok (p, later)
  | _, _, _, .node hopening hhead hkind hitems hrest hclosing, depth + 1, later, hdepth => by
      simp only [List.length_cons, List.length_append, List.length_nil] at hdepth
      have hinner := fun first =>
        hitems.compileUntil_eq depth .round first _ later rfl hclosing (by omega)
      rw [List.cons_append, List.cons_append, List.append_assoc]
      exact compileOne_node hopening hhead hkind (hinner _) hrest
  | _, _, _, .choice hopening hbranches hne heven hclosing, depth + 1, later, hdepth => by
      simp only [List.length_cons, List.length_append, List.length_nil] at hdepth
      have hinner := fun first =>
        hbranches.compileUntil_eq depth .curly first _ later rfl hclosing (by omega)
      rw [List.cons_append, List.append_assoc]
      exact compileOne_choice hopening (hinner _) hne heven
  | _, _, _, .capture ht hbody, depth + 1, later, hdepth => by
      rw [List.length_cons] at hdepth
      obtain ⟨_, _, rfl, -⟩ := hbody.exists_cons
      exact compileOne_capture ht (by simp) (hbody.compileOne_eq depth later (by omega))
  | _, _, _, .negation ht hbody hnone, depth + 1, later, hdepth => by
      rw [List.length_cons] at hdepth
      exact compileOne_negation ht (hbody.compileOne_eq depth later (by omega)) hnone
  | _, _, _, .rest ht, depth + 1, later, _ => compileOne_atom (by simp [atom?, ht]) later
  | _, _, _, .string ht, depth + 1, later, _ => compileOne_atom (by simp [atom?, ht]) later
  | _, _, _, .symbol ht, depth + 1, later, _ => compileOne_atom (by simp [atom?, ht]) later
  | _, _, _, .number ht, depth + 1, later, _ => compileOne_atom (by simp [atom?, ht]) later
  | _, _, _, .predicate ht hknown, depth + 1, later, _ =>
      compileOne_atom (by simpa [atom?, ht] using hknown) later
  | _, _, _, .any ht htext, depth + 1, later, _ =>
      compileOne_atom (by simp [atom?, ht, htext]) later
  | _, _, _, .kind ht htext hknown, depth + 1, later, _ =>
      compileOne_atom (by simp [atom?, ht, htext, hknown]) later

theorem DerivesAll.compileUntil_eq :
    ∀ {inSequence : Bool} {inner : List Token} {items : List Pattern},
    DerivesAll scope inSequence inner items → ∀ (depth : Nat) (bracket : Bracket) (first : Nat)
      (closing : Token) (later : List Token), inSequence = (bracket == .round) →
      closing.kind = .closing bracket → 2 * inner.length + 1 ≤ depth →
      compileUntil scope depth bracket first (inner ++ closing :: later) =
        .ok (items, closing.offset, later)
  | _, _, _, .nil, depth + 1, bracket, first, closing, later, _, hclosing, _ =>
      compileUntil_closing first hclosing later
  | _, _, _, .cons hfirst hrest, depth + 1, bracket, first, closing, later, hbracket, hclosing,
    hdepth => by
      subst hbracket
      obtain ⟨t, ts, rfl, ht⟩ := hfirst.exists_cons
      simp only [List.length_append, List.length_cons] at hdepth
      have hone := hfirst.compileOne_eq depth
      have hall := hrest.compileUntil_eq depth bracket first closing later rfl hclosing (by omega)
      rw [List.append_assoc]
      exact compileUntil_item ht (hone _ (by simp only [List.length_cons]; omega)) hall

end

/-! ## Compilation decides the grammar -/

theorem compileTokens_eq_ok_iff : compileTokens scope ts = .ok p ↔ Derives scope false ts p := by
  constructor
  · intro h
    rw [compileTokens] at h
    split at h
    · nomatch h
    obtain ⟨⟨root, following⟩, hroot, h⟩ := bind_eq_ok h
    obtain ⟨used, hused, hderives⟩ := compileOne_derives scope _ false ts hroot
    cases following with
    | nil =>
        obtain rfl := Except.ok.inj h
        rwa [hused, List.append_nil]
    | cons t following => nomatch h
  · intro h
    obtain ⟨t, following, rfl, -⟩ := h.exists_cons
    have hroot := h.compileOne_eq (2 * (t :: following).length + 1) [] (by omega)
    rw [List.append_nil] at hroot
    rw [compileTokens, if_neg (by simp), hroot]
    rfl

end RubyLint.Pattern
