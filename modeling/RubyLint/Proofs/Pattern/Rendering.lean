import RubyLint.Proofs.Pattern.Compiled
import RubyLint.Proofs.Pattern.Lexemes

/-!
# Patterns written out

Every pattern can be written as a description: its tokens with a blank between them, the marks of
captures and negations right before what they belong to, and every literal between quotes.
Compiling such a description gives the pattern back.  Only the texts that a pattern keeps of its
description are new.
-/

namespace RubyLint.Pattern

/-! ## Rendering -/

/-- A text between brackets, apart from them. -/
def between (bracket : Bracket) (inner : List Char) : List Char :=
  bracket.opening.toList ++ ' ' :: (inner ++ bracket.closing.toList)

mutual

def rendered : Pattern → List Char
  | .any => ['_']
  | .kind name => name.toList
  | .literal _ value => inQuotes value.toList
  | .predicate name => '#' :: name.toList
  | .rest _ none => "...".toList
  | .rest _ (some name) => (captureMark name).toList ++ "...".toList
  | .capture name body => (captureMark name).toList ++ body.rendered
  | .negation body => ['!'] ++ body.rendered
  | .choice _ branches => between .curly (renderedAll branches)
  | .node _ head items => between .round ((head.getD "_").toList ++ ' ' :: renderedAll items)

/-- Patterns written out, with a blank behind each of them. -/
def renderedAll : List Pattern → List Char
  | [] => []
  | p :: ps => p.rendered ++ ' ' :: renderedAll ps

end

def render (p : Pattern) : String :=
  String.ofList p.rendered

/-! ## Patterns without their texts -/

mutual

/-- A pattern without the texts that it was written with. -/
def bare : Pattern → Pattern
  | .literal _ value => .literal "" value
  | .rest _ mark => .rest "" mark
  | .capture name body => .capture name body.bare
  | .negation body => .negation body.bare
  | .choice _ branches => .choice "" (bareAll branches)
  | .node _ head items => .node "" head (bareAll items)
  | p => p

def bareAll : List Pattern → List Pattern
  | [] => []
  | p :: ps => p.bare :: bareAll ps

end

theorem bareAll_eq_map (ps : List Pattern) : bareAll ps = ps.map bare := by
  induction ps with
  | nil => rfl
  | cons p ps ih => rw [bareAll, ih, List.map_cons]

@[simp] theorem isRest_bare (p : Pattern) : p.bare.isRest = p.isRest := by
  cases p <;> rfl

mutual

theorem captures_bare : ∀ p : Pattern, p.bare.captures = p.captures
  | .any | .kind _ | .literal _ _ | .predicate _ | .rest _ _ | .negation _ => rfl
  | .capture _ body => by rw [bare, captures, captures, captures_bare body]
  | .choice _ branches => capturesOfFirst_bareAll branches
  | .node _ _ items => capturesOfAll_bareAll items

theorem capturesOfFirst_bareAll : ∀ ps : List Pattern,
    capturesOfFirst (bareAll ps) = capturesOfFirst ps
  | [] => rfl
  | p :: _ => captures_bare p

theorem capturesOfAll_bareAll : ∀ ps : List Pattern, capturesOfAll (bareAll ps) = capturesOfAll ps
  | [] => rfl
  | p :: ps => by rw [bareAll, capturesOfAll, capturesOfAll, captures_bare, capturesOfAll_bareAll]

end

/-! ## What can be written -/

/-- Whether a kind can be named in a description: it is a name, not the one of every node, and it is
known. -/
def Vocabulary.names (vocabulary : Vocabulary) (kind : String) : Bool :=
  isName kind.toList && kind != "_" &&
    match vocabulary.kinds with
    | none => true
    | some kinds => kinds.contains kind

/-- Whether a capture has no name or one that can be written. -/
def goodMark (mark : Option String) : Bool :=
  mark.all fun name => isName name.toList

mutual

/-- Whether a pattern means something in a vocabulary: its names can be written, its kinds and
predicates are known, its negations capture nothing, and the branches of each choice capture equally
many values. -/
def meaningful (vocabulary : Vocabulary) : Pattern → Bool
  | .any => true
  | .kind name => vocabulary.names name
  | .literal _ _ => true
  | .predicate name => isMarkedName name.toList && vocabulary.predicates.contains name
  | .rest _ mark => mark.all goodMark
  | .capture name body => goodMark name && body.meaningful vocabulary
  | .negation body => body.captures == 0 && body.meaningful vocabulary
  | .choice _ branches => !branches.isEmpty &&
    (branches.all fun p => p.captures == capturesOfFirst branches) &&
      allMeaningful vocabulary branches
  | .node _ head items => head.all vocabulary.names && allMeaningful vocabulary items

/-- Whether all patterns of a sequence mean something in a vocabulary. -/
def allMeaningful (vocabulary : Vocabulary) : List Pattern → Bool
  | [] => true
  | p :: ps => p.meaningful vocabulary && allMeaningful vocabulary ps

end

variable {vocabulary : Vocabulary} {scope : Scope} {inSequence : Bool} {p body : Pattern}
variable {ps : List Pattern} {written : List Char}

/-! ## Reading what is written -/

/-- Some text is read as tokens of a pattern that differs from `p` in its texts only, if a blank or
nothing follows. -/
def Reads (scope : Scope) (inSequence : Bool) (written : List Char) (p : Pattern) : Prop :=
  ∀ offset tail, Ended tail → ∃ ts q, Lexes offset written ts tail ∧
    Derives scope inSequence ts q ∧ q.bare = p.bare

/-- Some text is read as tokens of a sequence of patterns, whatever follows. -/
def ReadsAll (scope : Scope) (inSequence : Bool) (written : List Char) (ps : List Pattern) : Prop :=
  ∀ offset tail, ∃ ts qs, Lexes offset written ts tail ∧
    DerivesAll scope inSequence ts qs ∧ bareAll qs = bareAll ps

theorem knows_of_names {kind : String} (h : scope.names kind = true) :
    isName kind.toList = true ∧ kind ≠ "_" ∧ scope.knows kind = true := by
  simp only [Vocabulary.names, Bool.and_eq_true, bne_iff_ne] at h
  obtain ⟨⟨hname, hne⟩, hknown⟩ := h
  exact ⟨hname, hne, hknown⟩

theorem reads_any : Reads scope inSequence ['_'] .any := fun offset _ htail =>
  ⟨_, _, lexes_word rfl htail offset, .any rfl rfl, rfl⟩

theorem reads_kind {name : String} (h : scope.names name = true) :
    Reads scope inSequence name.toList (.kind name) := by
  intro offset tail htail
  obtain ⟨hname, hne, hknown⟩ := knows_of_names h
  have hlexes := lexes_word hname htail offset
  rw [String.ofList_toList] at hlexes
  exact ⟨_, _, hlexes, .kind rfl hne hknown, rfl⟩

theorem reads_literal (source value : String) :
    Reads scope inSequence (inQuotes value.toList) (.literal source value) := by
  intro offset tail _
  refine ⟨_, _, lexes_inQuotes value.toList offset tail, .string rfl, ?_⟩
  rw [bare, bare, stringValue_inQuotes, String.ofList_toList]

theorem reads_predicate {name : String} (hname : isMarkedName name.toList = true)
    (hknown : name ∈ scope.predicates) :
    Reads scope inSequence ('#' :: name.toList) (.predicate name) := by
  intro offset tail htail
  have hlexes := lexes_predicate hname htail offset
  have htext : String.ofList ((String.ofList ('#' :: name.toList)).toList.drop 1) = name := by
    rw [String.toList_ofList, List.drop_succ_cons, List.drop_zero, String.ofList_toList]
  have hderives : Derives scope inSequence
      [⟨.predicate, String.ofList ('#' :: name.toList), offset⟩] _ :=
    .predicate rfl (by rwa [htext])
  rw [htext] at hderives
  exact ⟨_, _, hlexes, hderives, rfl⟩

theorem isRest_of_bare_eq {q : Pattern} (h : q.bare = p.bare) : q.isRest = p.isRest := by
  rw [← isRest_bare q, h, isRest_bare]

theorem captures_of_bare_eq {q : Pattern} (h : q.bare = p.bare) : q.captures = p.captures := by
  rw [← captures_bare q, h, captures_bare]

theorem isName_of_goodMark {mark : Option String} (h : goodMark mark = true) :
    ∀ name ∈ mark, isName name.toList = true := by
  rintro name rfl
  exact h

/-- A rest marker is read where it may stand, with the mark that captures its run. -/
theorem reads_rest {source : String} {mark : Option (Option String)}
    (hmark : mark.all goodMark = true) :
    Reads scope true (Pattern.rest source mark).rendered (.rest source mark) := by
  intro offset tail _
  cases mark with
  | none => exact ⟨_, _, lexes_rest offset tail, .rest rfl, rfl⟩
  | some name =>
      have hcapture : Lexes offset (captureMark name).toList
          [⟨.capture name, captureMark name, offset⟩] ("...".toList ++ tail) :=
        lexes_capture (isName_of_goodMark hmark) (fun _ => .inl rfl) offset
      exact ⟨_, _, hcapture.append (lexes_rest _ tail), .capture rfl (.rest rfl), rfl⟩

theorem reads_capture {name : Option String} (hname : goodMark name = true)
    (hbody : Reads scope inSequence written body) (hrest : body.isRest = false)
    (hplain : ∀ tail, Ended tail → Unnamed (written ++ tail)) :
    Reads scope inSequence ((captureMark name).toList ++ written) (.capture name body) := by
  intro offset tail htail
  have hmark := lexes_capture (isName_of_goodMark hname) (fun _ => hplain tail htail) offset
  obtain ⟨ts, q, hlexes, hderives, hq⟩ := hbody _ tail htail
  refine ⟨_, _, hmark.append hlexes, .capture rfl hderives, ?_⟩
  rw [← isRest_of_bare_eq hq] at hrest
  have hcaptured : captured name q = .capture name q := by
    cases q <;> first | rfl | nomatch hrest
  rw [hcaptured, bare, bare, hq]

theorem reads_negation (hbody : Reads scope false written body) (hnone : body.captures = 0) :
    Reads scope inSequence (['!'] ++ written) (.negation body) := by
  intro offset tail htail
  obtain ⟨ts, q, hlexes, hderives, hq⟩ := hbody _ tail htail
  refine ⟨_, _, (lexes_negation offset _).append hlexes, .negation rfl hderives ?_, ?_⟩
  · rw [captures_of_bare_eq hq, hnone]
  · rw [bare, bare, hq]

theorem readsAll_nil : ReadsAll scope inSequence [] [] := fun offset tail =>
  ⟨_, _, .nil offset tail, .nil, rfl⟩

theorem readsAll_cons {writtenAll : List Char} (hfirst : Reads scope inSequence written p)
    (hrest : ReadsAll scope inSequence writtenAll ps) :
    ReadsAll scope inSequence (written ++ ' ' :: writtenAll) (p :: ps) := by
  intro offset tail
  obtain ⟨ts, q, hlexes, hderives, hq⟩ := hfirst offset (' ' :: (writtenAll ++ tail)) rfl
  obtain ⟨ts', qs, hlexes', hderives', hqs⟩ := hrest (offset + written.length + 1) tail
  exact ⟨_, _, hlexes.append hlexes'.blank, .cons hderives hderives', by
    rw [bareAll, bareAll, hq, hqs]⟩

theorem lexes_between (bracket : Bracket) {offset : Nat} {ts : List Token} {tail : List Char}
    (h : Lexes (offset + 2) written ts (bracket.closing.toList ++ tail)) :
    Lexes offset (between bracket written)
      (⟨.opening bracket, bracket.opening, offset⟩ :: (ts ++
        [⟨.closing bracket, bracket.closing, offset + 2 + written.length⟩])) tail := by
  have hlength : bracket.opening.toList.length = 1 := by cases bracket <;> rfl
  have hinner := (h.append (lexes_closing bracket _ tail)).blank
  refine (lexes_opening bracket offset _).append ?_
  rwa [hlength]

theorem exists_of_bareAll_eq {q : Pattern} {qs : List Pattern} (h : bareAll qs = bareAll ps)
    (hq : q ∈ qs) : ∃ p ∈ ps, q.bare = p.bare := by
  rw [bareAll_eq_map, bareAll_eq_map] at h
  have hmem : q.bare ∈ ps.map bare := h ▸ List.mem_map_of_mem hq
  obtain ⟨p, hp, heq⟩ := List.mem_map.1 hmem
  exact ⟨p, hp, heq.symm⟩

theorem reads_choice {source : String} (hne : ps ≠ [])
    (heven : ∀ p ∈ ps, p.captures = capturesOfFirst ps)
    (hbranches : ReadsAll scope false written ps) :
    Reads scope inSequence (between .curly written) (.choice source ps) := by
  intro offset tail _
  obtain ⟨ts, qs, hlexes, hderives, hqs⟩ := hbranches (offset + 2) _
  have hcaptures : ∀ q ∈ qs, q.captures = capturesOfFirst ps := by
    intro q hq
    obtain ⟨p, hp, hbare⟩ := exists_of_bareAll_eq hqs hq
    rw [captures_of_bare_eq hbare, heven p hp]
  refine ⟨_, _, lexes_between .curly hlexes, .choice rfl hderives ?_ ?_ rfl, ?_⟩
  · rintro rfl
    cases ps with
    | nil => exact hne rfl
    | cons p ps => nomatch hqs
  · exact fun p hp q hq => (hcaptures p hp).trans (hcaptures q hq).symm
  · rw [bare, bare, hqs]

theorem length_filter_isRest (ps : List Pattern) :
    ((bareAll ps).filter isRest).length = (ps.filter isRest).length := by
  rw [bareAll_eq_map, List.filter_map, List.length_map]
  congr 2
  exact funext isRest_bare

theorem reads_node {source : String} {head : Option String}
    (hhead : ∀ kind ∈ head, scope.names kind = true) (hrest : (ps.filter isRest).length ≤ 1)
    (hitems : ReadsAll scope true written ps) :
    Reads scope inSequence (between .round ((head.getD "_").toList ++ ' ' :: written))
      (.node source head ps) := by
  intro offset tail _
  have hname : isName (head.getD "_").toList = true := by
    cases head with
    | none => rfl
    | some kind => exact (knows_of_names (hhead kind rfl)).1
  obtain ⟨ts, qs, hlexes, hderives, hqs⟩ :=
    hitems (offset + 2 + (head.getD "_").toList.length + 1) (Bracket.round.closing.toList ++ tail)
  have hword : Lexes (offset + 2) (head.getD "_").toList
      [⟨.word, String.ofList (head.getD "_").toList, offset + 2⟩]
      (' ' :: written ++ (Bracket.round.closing.toList ++ tail)) :=
    lexes_word hname (by rfl) (offset + 2)
  rw [String.ofList_toList] at hword
  have hinner := hword.append hlexes.blank
  have hcount : (qs.filter isRest).length ≤ 1 := by
    rwa [← length_filter_isRest, hqs, length_filter_isRest]
  refine ⟨_, _, lexes_between .round hinner, .node rfl rfl ?_ hderives hcount rfl, ?_⟩
  · cases head with
    | none => exact .inl rfl
    | some kind => exact .inr (knows_of_names (hhead kind rfl)).2.2
  · rw [bare, bare, hqs]
    cases head with
    | none => rfl
    | some kind =>
        have hne : kind ≠ "_" := (knows_of_names (hhead kind rfl)).2.1
        simp [hne]

/-! ## Where a capture has no name -/

/-- A written pattern does not look like the name of a capture. -/
theorem unnamed_rendered (hp : p.meaningful vocabulary = true) {tail : List Char}
    (htail : Ended tail) : Unnamed (p.rendered ++ tail) := by
  have hname : ∀ {name : List Char}, isName name = true → Unnamed (name ++ tail) := by
    intro name h
    right
    rw [nameLength_append h (isWord_of_ended htail), List.drop_left]
    cases tail with
    | nil => simp
    | cons c tail =>
        obtain rfl : c = ' ' := htail
        simp
  cases p with
  | any => exact hname rfl
  | kind name =>
      refine hname ?_
      simp only [meaningful, Vocabulary.names, Bool.and_eq_true] at hp
      exact hp.1.1
  | literal => exact .inl rfl
  | predicate => exact .inl rfl
  | rest source mark =>
      left
      rcases mark with _ | _ | name
      · rfl
      · rfl
      · rw [rendered, toList_captureMark]
        rfl
  | capture name body =>
      left
      cases name with
      | none => rfl
      | some name =>
          rw [rendered, toList_captureMark]
          rfl
  | negation => exact .inl rfl
  | choice => exact .inl rfl
  | node => exact .inl rfl

mutual

/-- A pattern that means something and has its rest markers in their places can be read back. -/
theorem reads_rendered (scope : Scope) : ∀ (p : Pattern) (inSequence : Bool),
    p.wellPlaced = true → p.meaningful scope.toVocabulary = true →
      Reads scope inSequence p.rendered p
  | .any, _, _, _ => reads_any
  | .kind _, _, _, h => reads_kind h
  | .literal _ _, _, _, _ => reads_literal _ _
  | .predicate name, _, _, h => by
      obtain ⟨hname, hknown⟩ := Bool.and_eq_true_iff.1 h
      exact reads_predicate hname (by simpa using hknown)
  | .rest _ _, _, hplaced, _ => nomatch hplaced
  | .capture name body, inSequence, hplaced, h => by
      obtain ⟨hname, hbody⟩ := Bool.and_eq_true_iff.1 h
      exact reads_capture hname (reads_rendered scope body inSequence hplaced hbody)
        (isRest_of_wellPlaced hplaced) fun tail htail => unnamed_rendered hbody htail
  | .negation body, _, hplaced, h => by
      obtain ⟨hnone, hbody⟩ := Bool.and_eq_true_iff.1 h
      exact reads_negation (reads_rendered scope body false hplaced hbody) (beq_iff_eq.1 hnone)
  | .choice _ branches, _, hplaced, h => by
      simp only [meaningful, Bool.and_eq_true, List.all_eq_true, beq_iff_eq] at h
      obtain ⟨⟨hne, heven⟩, hbranches⟩ := h
      exact reads_choice (by simpa using hne) heven
        (reads_branches scope branches hplaced hbranches)
  | .node _ head items, _, hplaced, h => by
      obtain ⟨hitems, hrest⟩ := Bool.and_eq_true_iff.1 hplaced
      obtain ⟨hhead, hmeaningful⟩ := Bool.and_eq_true_iff.1 h
      refine reads_node ?_ (of_decide_eq_true hrest) (reads_items scope items hitems hmeaningful)
      rintro kind rfl
      exact hhead

theorem reads_branches (scope : Scope) : ∀ ps : List Pattern, branchesPlaced ps = true →
    allMeaningful scope.toVocabulary ps = true → ReadsAll scope false (renderedAll ps) ps
  | [], _, _ => readsAll_nil
  | p :: ps, hplaced, h => by
      obtain ⟨hp, hps⟩ := Bool.and_eq_true_iff.1 hplaced
      obtain ⟨hfirst, hall⟩ := Bool.and_eq_true_iff.1 h
      exact readsAll_cons (reads_rendered scope p false hp hfirst)
        (reads_branches scope ps hps hall)

theorem reads_items (scope : Scope) : ∀ ps : List Pattern, itemsPlaced ps = true →
    allMeaningful scope.toVocabulary ps = true → ReadsAll scope true (renderedAll ps) ps
  | [], _, _ => readsAll_nil
  | p :: ps, hplaced, h => by
      obtain ⟨hp, hps⟩ := Bool.and_eq_true_iff.1 hplaced
      obtain ⟨hfirst, hall⟩ := Bool.and_eq_true_iff.1 h
      refine readsAll_cons ?_ (reads_items scope ps hps hall)
      rcases Bool.or_eq_true_iff.1 hp with hrest | hp
      · cases p with
        | rest => exact reads_rest hfirst
        | _ => nomatch hrest
      · exact reads_rendered scope p true hp hfirst

end

/-! ## Patterns that differ in their texts -/

mutual

theorem parts_bare : ∀ p : Pattern, p.bare.parts = p.parts.map bare
  | .any | .kind _ | .literal _ _ | .predicate _ | .rest _ _ => rfl
  | .capture _ body => by rw [bare, parts, parts, parts_bare body, List.map_cons, bare]
  | .negation body => by rw [bare, parts, parts, parts_bare body, List.map_cons, bare]
  | .choice _ branches => by
      rw [bare, parts, parts, partsOfAll_bareAll branches, List.map_cons, bare]
  | .node _ _ items => by rw [bare, parts, parts, partsOfAll_bareAll items, List.map_cons, bare]

theorem partsOfAll_bareAll : ∀ ps : List Pattern,
    partsOfAll (bareAll ps) = (partsOfAll ps).map bare
  | [] => rfl
  | p :: ps => by
      rw [bareAll, partsOfAll, partsOfAll, parts_bare, partsOfAll_bareAll, List.map_append]

end

/-- Two sequences are split alike around their rest markers, and differ in their texts only. -/
structure SplitAlike (items others : List Pattern) : Prop where
  front : (front items).map bare = (front others).map bare
  rest : (restOf? items).map bare = (restOf? others).map bare
  back : (back items).map bare = (back others).map bare

theorem splitAlike_of_bareAll_eq {items others : List Pattern}
    (h : bareAll items = bareAll others) : SplitAlike items others := by
  have hfixed : ((fun p : Pattern => !p.isRest) ∘ bare) = fun p => !p.isRest :=
    funext fun p => by rw [Function.comp, isRest_bare]
  have hrest : (isRest ∘ bare) = isRest := funext isRest_bare
  have hfront : ∀ ps, (front ps).map bare = front (bareAll ps) := by
    intro ps
    rw [bareAll_eq_map, front, front, List.takeWhile_map, hfixed]
  have hmarker : ∀ ps, (restOf? ps).map bare = restOf? (bareAll ps) := by
    intro ps
    rw [bareAll_eq_map, restOf?, restOf?, List.find?_map, hrest]
  have hback : ∀ ps, (back ps).map bare = back (bareAll ps) := by
    intro ps
    rw [bareAll_eq_map, back, back, List.dropWhile_map, hfixed, List.map_drop]
  exact ⟨by rw [hfront, h, hfront], by rw [hmarker, h, hmarker], by rw [hback, h, hback]⟩

/-- Every node in one pattern has its like in the other. -/
theorem splitAlike_of_bare_eq {q : Pattern} (h : q.bare = p.bare) {source : String}
    {head : Option String} {items : List Pattern} (hnode : .node source head items ∈ q.parts) :
    ∃ source' others, .node source' head others ∈ p.parts ∧ SplitAlike items others := by
  have hmem : (Pattern.node source head items).bare ∈ p.parts.map bare := by
    rw [← parts_bare, ← h, parts_bare]
    exact List.mem_map_of_mem hnode
  obtain ⟨other, hother, hbare⟩ := List.mem_map.1 hmem
  rw [bare] at hbare
  cases other with
  | node source' head' others =>
      obtain ⟨-, rfl, heq⟩ := Pattern.node.inj hbare
      exact ⟨source', others, hother, splitAlike_of_bareAll_eq heq.symm⟩
  | _ => nomatch hbare

/-- Compiling undoes rendering: a pattern that means something, with its rest markers in their
places, comes back with the same kinds, values, names and children, split around the same rest
markers, and with the same number of captures.  In particular every value comes back from between
its quotes. -/
theorem compile_render (vocabulary : Vocabulary) :
    (∀ p : Pattern, p.wellPlaced = true → p.meaningful vocabulary = true →
      ∃ q, compile vocabulary p.render = .ok q ∧ q.bare = p.bare ∧ q.captures = p.captures ∧
        ∀ source head items, .node source head items ∈ q.parts →
          ∃ source' others, .node source' head others ∈ p.parts ∧ SplitAlike items others) ∧
    ∀ value : String, ∃ source,
      compile vocabulary (String.ofList (inQuotes value.toList)) = .ok (.literal source value) := by
  have hrender : ∀ p : Pattern, p.wellPlaced = true → p.meaningful vocabulary = true →
      ∃ q, compile vocabulary p.render = .ok q ∧ q.bare = p.bare := by
    intro p hplaced hp
    obtain ⟨ts, q, hlexes, hderives, hq⟩ :=
      reads_rendered { vocabulary with description := p.render } p false hplaced hp 0 [] trivial
    have htokens : tokens p.render = .ok ts := by
      rw [Lexes, List.append_nil, tokensFrom] at hlexes
      rw [tokens, render, String.toList_ofList, hlexes]
      simp [Except.map]
    refine ⟨q, ?_, hq⟩
    rw [compile, htokens]
    exact compileTokens_eq_ok_iff.2 hderives
  refine ⟨fun p hplaced hp => ?_, fun value => ?_⟩
  · obtain ⟨q, hcompile, hq⟩ := hrender p hplaced hp
    exact ⟨q, hcompile, hq, captures_of_bare_eq hq, fun _ _ _ => splitAlike_of_bare_eq hq⟩
  · obtain ⟨q, hcompile, hq⟩ := hrender (.literal "" value) rfl rfl
    cases q with
    | literal source value' =>
        obtain ⟨-, rfl⟩ := Pattern.literal.inj hq
        exact ⟨source, hcompile⟩
    | _ => simp [bare] at hq

/-- A pattern of every kind, with a quote, a backslash and a newline in its literal. -/
def everyKind : Pattern :=
  .node "" (some "call") [.capture (some "name") (.literal "" "a\"\\\nb"),
    .rest "" (some none), .negation (.predicate "leaf?"),
    .choice "" [.capture none .any, .capture none (.node "" none [.kind "call"])]]

theorem compile_render_everyKind :
    let vocabulary : Vocabulary := ⟨some ["call"], ["leaf?"]⟩
    everyKind.render = "( call $name=\"a\\\"\\\\\nb\" $... !#leaf? \x7b $_ $( _ call ) \x7d )" ∧
    ∃ q, compile vocabulary everyKind.render = .ok q ∧ q.bare = everyKind.bare ∧
      q.captures = 3 := by
  intro vocabulary
  obtain ⟨q, hcompile, hq, hcaptures, -⟩ :=
    (compile_render vocabulary).1 everyKind (by decide) (by decide)
  exact ⟨by decide +kernel, q, hcompile, hq, hcaptures⟩

end RubyLint.Pattern
