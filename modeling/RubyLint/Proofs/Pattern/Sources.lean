import RubyLint.Proofs.Pattern.Compiled
import RubyLint.Proofs.Pattern.Excerpts

/-!
# Sources of patterns

The text that is kept with a part of a pattern means just that part.  A group keeps the excerpt of
the description between its brackets, a mark is put right in front of the text of what it belongs
to, and an atom keeps its token.  Compiled by itself, each of these texts gives the part back.
-/

namespace RubyLint.Pattern

variable {scope scope' : Scope} {vocabulary : Vocabulary} {inSequence : Bool} {first last t : Token}
variable {ts : List Token} {p q body : Pattern} {s : List Char} {offset source target : Nat}

/-! ## A text in different places -/

/-- A text stands at an offset of the description and is derived as a pattern there. -/
def Spells (scope : Scope) (offset : Nat) (s : List Char) (p : Pattern) : Prop :=
  s <+: scope.description.toList.drop offset ∧
    ∃ ts, tokensFrom offset s = .ok ts ∧ Derives scope false ts p

theorem tokens_eq_ok_iff {description : String} :
    tokens description = .ok ts ↔ tokensFrom 0 description.toList = .ok ts := by
  rw [tokens]
  cases tokensFrom 0 description.toList <;> simp

theorem compile_eq_ok_iff {description : String} :
    compile vocabulary description = .ok p ↔
      Spells { vocabulary with description } 0 description.toList p := by
  constructor
  · intro h
    obtain ⟨ts, hts, hcompile⟩ := bind_eq_ok h
    exact ⟨List.prefix_rfl, ts, tokens_eq_ok_iff.1 hts, compileTokens_eq_ok_iff.1 hcompile⟩
  · rintro ⟨-, ts, hts, hderives⟩
    rw [compile, tokens_eq_ok_iff.2 hts]
    exact compileTokens_eq_ok_iff.2 hderives

theorem cut_eq {first last : Nat} (hs : s <+: scope.description.toList.drop offset)
    (hfirst : offset ≤ first) (hlast : last < offset + s.length) :
    scope.cut first last =
      String.ofList ((s.drop (first - offset)).take (last + 1 - first)) := by
  rw [Scope.cut, List.prefix_iff_eq_take.1 hs, List.drop_take, List.take_take, List.drop_drop,
    Nat.add_sub_of_le hfirst, Nat.min_eq_left (by omega)]

/-- The vocabulary is the same, and so are the characters between any two of some tokens once these
are moved. -/
structure Carried (scope scope' : Scope) (source target : Nat) (ts : List Token) : Prop where
  vocabulary : scope'.toVocabulary = scope.toVocabulary
  cut : ∀ s ∈ ts, ∀ t ∈ ts,
    scope'.cut (s.moved source target).offset (t.moved source target).offset =
      scope.cut s.offset t.offset

theorem Carried.of_infix {inner : List Token} (h : Carried scope scope' source target ts)
    (hinner : inner <:+: ts) : Carried scope scope' source target inner :=
  ⟨h.vocabulary, fun s hs t ht => h.cut s (hinner.subset hs) t (hinner.subset ht)⟩

theorem Carried.knows (h : Carried scope scope' source target ts) (kind : String) :
    scope'.knows kind = scope.knows kind := by
  rw [Scope.knows, Scope.knows, h.vocabulary]

mutual

/-- A derivation looks at the description only to cut out the texts of groups, so it can be carried
over to a description that has the same characters there. -/
theorem Derives.moved : ∀ {inSequence : Bool} {ts : List Token} {p : Pattern},
    Derives scope inSequence ts p → Carried scope scope' source target ts →
      Derives scope' inSequence (ts.map (Token.moved source target)) p
  | _, _, _, .node hopening hhead hkind hitems hrest hclosing, h => by
      rw [← h.cut _ (by simp) _ (by simp)]
      simp only [List.map_cons, List.map_append, List.map_nil]
      rw [← h.knows] at hkind
      exact .node hopening hhead hkind (hitems.moved (h.of_infix ⟨[_, _], [_], rfl⟩)) hrest hclosing
  | _, _, _, .choice hopening hbranches hne heven hclosing, h => by
      rw [← h.cut _ (by simp) _ (by simp)]
      simp only [List.map_cons, List.map_append, List.map_nil]
      exact .choice hopening (hbranches.moved (h.of_infix ⟨[_], [_], rfl⟩)) hne heven hclosing
  | _, _, _, .capture ht hbody, h =>
      .capture ht (hbody.moved (h.of_infix (List.suffix_cons _ _).isInfix))
  | _, _, _, .negation ht hbody hnone, h =>
      .negation ht (hbody.moved (h.of_infix (List.suffix_cons _ _).isInfix)) hnone
  | _, _, _, .rest ht, _ => .rest ht
  | _, _, _, .string ht, _ => .string ht
  | _, _, _, .symbol ht, _ => .symbol ht
  | _, _, _, .number ht, _ => .number ht
  | _, _, _, .predicate ht hknown, h => .predicate ht (by rwa [h.vocabulary])
  | _, _, _, .any ht htext, _ => .any ht htext
  | _, _, _, .kind ht htext hknown, h => .kind ht htext (by rwa [h.knows])

theorem DerivesAll.moved : ∀ {inSequence : Bool} {ts : List Token} {ps : List Pattern},
    DerivesAll scope inSequence ts ps → Carried scope scope' source target ts →
      DerivesAll scope' inSequence (ts.map (Token.moved source target)) ps
  | _, _, _, .nil, _ => .nil
  | _, _, _, .cons hfirst hrest, h => by
      rw [List.map_append]
      exact .cons (hfirst.moved (h.of_infix (List.prefix_append _ _).isInfix))
        (hrest.moved (h.of_infix (List.suffix_append _ _).isInfix))

end

/-- What a text means depends neither on its place nor on what stands around it. -/
theorem Spells.moved (h : Spells scope offset s p)
    (hvocabulary : scope'.toVocabulary = scope.toVocabulary)
    (hs : s <+: scope'.description.toList.drop target) : Spells scope' target s p := by
  obtain ⟨hplace, ts, hts, hderives⟩ := h
  refine ⟨hs, _, tokensFrom_moved hts target, hderives.moved ⟨hvocabulary, fun a ha b hb => ?_⟩⟩
  have hfirst := le_offset_of_mem_tokensFrom hts a ha
  have hlast := le_offset_of_mem_tokensFrom hts b hb
  have hend := offset_of_mem_tokensFrom hts b hb
  rw [cut_eq hs (by simp [Token.moved]) (by simp only [Token.moved]; omega),
    cut_eq hplace hfirst hend]
  simp only [Token.moved]
  congr 2
  · omega
  · rw [Nat.add_sub_cancel]

/-! ## Excerpts of a description -/

def Occurs (scope : Scope) (ts : List Token) : Prop :=
  ∃ all, tokensFrom 0 scope.description.toList = .ok all ∧ ts <:+: all

/-- The part of the description from the start of a token to the end of another. -/
def Scope.excerpt (scope : Scope) (first last : Token) : List Char :=
  (scope.description.toList.drop first.offset).take
    (last.offset + last.text.length - first.offset)

namespace Occurs

theorem of_infix {inner : List Token} (h : Occurs scope ts) (hinner : inner <:+: ts) :
    Occurs scope inner := by
  obtain ⟨all, hall, hts⟩ := h
  exact ⟨all, hall, hinner.trans hts⟩

theorem tokensFrom_excerpt (h : Occurs scope ts) (hfirst : ts.head? = some first)
    (hlast : ts.getLast? = some last) :
    tokensFrom first.offset (scope.excerpt first last) = .ok ts := by
  obtain ⟨_, hall, before, after, rfl⟩ := h
  obtain ⟨rest, rfl⟩ := List.head?_eq_some_iff.1 hfirst
  obtain ⟨init, hinit⟩ := List.getLast?_eq_some_iff.1 hlast
  rw [List.append_assoc, List.cons_append] at hall
  have hdrop := tokensFrom_drop hall
  rw [Nat.sub_zero, ← List.cons_append, hinit, List.append_assoc] at hdrop
  rw [hinit]
  exact tokensFrom_take hdrop

/-- A part of the description that is derived as a pattern is so by itself. -/
theorem compile_excerpt (h : Occurs scope ts) (hderives : Derives scope false ts p)
    (hfirst : ts.head? = some first) (hlast : ts.getLast? = some last) :
    compile scope.toVocabulary (String.ofList (scope.excerpt first last)) = .ok p := by
  have hspells : Spells scope first.offset (scope.excerpt first last) p :=
    ⟨List.take_prefix _ _, ts, h.tokensFrom_excerpt hfirst hlast, hderives⟩
  rw [compile_eq_ok_iff, String.toList_ofList]
  refine hspells.moved rfl ?_
  rw [String.toList_ofList]
  exact List.prefix_rfl

theorem exists_lexeme (h : Occurs scope ts) (ht : t ∈ ts) :
    ∃ c rest n, scope.description.toList.drop t.offset = c :: rest ∧
      lexeme? c rest = some (.token t.kind, n) ∧ t.text = String.ofList (c :: rest.take n) := by
  obtain ⟨all, hall, hts⟩ := h
  obtain ⟨before, after, rfl⟩ := List.append_of_mem (hts.subset ht)
  have hdrop := tokensFrom_drop hall
  rw [Nat.sub_zero] at hdrop
  exact Pattern.exists_lexeme hdrop

theorem length_closing {bracket : Bracket} (h : Occurs scope ts) (ht : t ∈ ts)
    (hkind : t.kind = .closing bracket) : t.text.length = 1 := by
  obtain ⟨c, rest, n, -, hlexeme, htext⟩ := h.exists_lexeme ht
  rw [hkind] at hlexeme
  obtain rfl : n = 0 := lexeme?_shaped hlexeme
  rw [htext, String.length_ofList]
  rfl

theorem excerpt_self (h : Occurs scope ts) (ht : t ∈ ts) :
    String.ofList (scope.excerpt t t) = t.text := by
  obtain ⟨c, rest, n, hdrop, -, htext⟩ := h.exists_lexeme ht
  rw [Scope.excerpt, hdrop, Nat.add_sub_cancel_left, htext, String.length_ofList]
  congr 1
  exact (List.prefix_iff_eq_take.1 ((List.prefix_cons_inj c).2 (List.take_prefix n rest))).symm

/-- A group is compiled from the part of the description between its brackets. -/
theorem compile_group {bracket : Bracket} (h : Occurs scope ts)
    (hderives : Derives scope false ts p) (hfirst : ts.head? = some first)
    (hlast : ts.getLast? = some last) (hclosing : last.kind = .closing bracket) :
    compile scope.toVocabulary (scope.cut first.offset last.offset) = .ok p := by
  have hlength := h.length_closing (List.mem_of_getLast? hlast) hclosing
  have hcut : scope.cut first.offset last.offset = String.ofList (scope.excerpt first last) := by
    rw [Scope.cut, Scope.excerpt, hlength]
  rw [hcut]
  exact h.compile_excerpt hderives hfirst hlast

/-- A token is compiled from its own text. -/
theorem compile_token (h : Occurs scope [t]) (hderives : Derives scope false [t] p) :
    compile scope.toVocabulary t.text = .ok p := by
  rw [← h.excerpt_self List.mem_cons_self]
  exact h.compile_excerpt hderives rfl rfl

theorem isName_capture {name : Option String} (h : Occurs scope ts) (ht : t ∈ ts)
    (hkind : t.kind = .capture name) : ∀ word ∈ name, isName word.toList = true := by
  rintro word rfl
  obtain ⟨c, rest, n, -, hlexeme, -⟩ := h.exists_lexeme ht
  rw [hkind] at hlexeme
  exact lexeme?_shaped hlexeme

theorem text_predicate (h : Occurs scope ts) (ht : t ∈ ts) (hkind : t.kind = .predicate) :
    "#" ++ String.ofList (t.text.toList.drop 1) = t.text := by
  obtain ⟨c, rest, n, -, hlexeme, htext⟩ := h.exists_lexeme ht
  rw [hkind] at hlexeme
  obtain rfl : c = '#' := lexeme?_shaped hlexeme
  rw [htext]
  simp

end Occurs

/-! ## Marks in front of a text -/

/-- A mark and the text behind it are a pattern, if that text is one and the mark makes another one
of it. -/
theorem compile_behind {mark text : String} (h : compile vocabulary text = .ok body)
    (hmark : Lexes 0 mark.toList [t] text.toList)
    (hderives : ∀ {scope : Scope} {ts : List Token}, Derives scope false ts body →
      Derives scope false (t :: ts) p) :
    compile vocabulary (mark ++ text) = .ok p := by
  have hspells : Spells { vocabulary with description := mark ++ text } mark.toList.length
      text.toList body :=
    (compile_eq_ok_iff.1 h).moved rfl (by simp)
  obtain ⟨-, ts, hts, hbody⟩ := hspells
  refine compile_eq_ok_iff.2 ⟨List.prefix_rfl, t :: ts, ?_, hderives hbody⟩
  rw [String.toList_append, hmark, Nat.zero_add, hts]
  rfl

theorem compile_capture {name : Option String} {text : String}
    (hname : ∀ word ∈ name, isName word.toList = true) (h : compile vocabulary text = .ok body) :
    compile vocabulary (captureMark name ++ text) = .ok (captured name body) := by
  obtain ⟨-, ts, hts, -⟩ := compile_eq_ok_iff.1 h
  exact compile_behind h (lexes_capture hname (fun _ => unnamed_of_tokensFrom hts) 0)
    (.capture rfl ·)

theorem compile_negation {text : String} (h : compile vocabulary text = .ok body)
    (hnone : body.captures = 0) :
    compile vocabulary ("!" ++ text) = .ok (.negation body) :=
  compile_behind h (lexes_negation 0 _) (.negation rfl · hnone)

/-! ## The text of every part -/

/-- A pattern whose parts are all compiled from their texts, apart from rest markers, which are no
patterns by themselves. -/
def Sourced (vocabulary : Vocabulary) (p : Pattern) : Prop :=
  ∀ q ∈ p.parts, q.isRest = false → compile vocabulary q.source = .ok q

theorem mem_parts_self (p : Pattern) : p ∈ p.parts := by
  cases p <;> simp [parts]

theorem sourced_rest (source : String) (mark : Option (Option String)) :
    Sourced vocabulary (.rest source mark) := by
  intro q hq hrest
  obtain rfl := List.mem_singleton.1 hq
  cases hrest

theorem sourced_of_token (h : Occurs scope [t]) (hderives : Derives scope false [t] p)
    (hparts : p.parts = [p]) (hsource : p.source = t.text) :
    Sourced scope.toVocabulary p := by
  intro q hq _
  rw [hparts, List.mem_singleton] at hq
  rw [hq, hsource]
  exact h.compile_token hderives

theorem Sourced.captured {name : Option String} (h : Sourced vocabulary p)
    (hname : ∀ word ∈ name, isName word.toList = true) : Sourced vocabulary (captured name p) := by
  cases p with
  | rest source mark => exact sourced_rest _ _
  | _ =>
      exact List.forall_mem_cons.2
        ⟨fun _ => compile_capture hname (h _ (mem_parts_self _) rfl), h⟩

mutual

/-- By induction on the derivation, whose tokens stand side by side in the description: groups and
tokens are excerpts of it, and a mark is put in front of a text that has its meaning already. -/
theorem Derives.sourced : ∀ {inSequence : Bool} {ts : List Token} {p : Pattern},
    Derives scope inSequence ts p → Occurs scope ts → Sourced scope.toVocabulary p
  | _, _, _, .node hopening hhead hkind hitems hrest hclosing, h => by
      refine List.forall_mem_cons.2 ⟨fun _ => ?_, hitems.sourced (h.of_infix ⟨[_, _], [_], rfl⟩)⟩
      exact h.compile_group (.node hopening hhead hkind hitems hrest hclosing) rfl
        (List.getLast?_eq_some_iff.2 ⟨_ :: _ :: _, rfl⟩) hclosing
  | _, _, _, .choice hopening hbranches hne heven hclosing, h => by
      refine List.forall_mem_cons.2 ⟨fun _ => ?_, hbranches.sourced (h.of_infix ⟨[_], [_], rfl⟩)⟩
      exact h.compile_group (.choice hopening hbranches hne heven hclosing) rfl
        (List.getLast?_eq_some_iff.2 ⟨_ :: _, rfl⟩) hclosing
  | _, _, _, .capture ht hbody, h =>
      (hbody.sourced (h.of_infix (List.suffix_cons _ _).isInfix)).captured
        (h.isName_capture List.mem_cons_self ht)
  | _, _, _, .negation ht hbody hnone, h => by
      have hsourced := hbody.sourced (h.of_infix (List.suffix_cons _ _).isInfix)
      -- Behind a negation stands no item of a node, hence no rest marker.
      have hrest := isRest_of_wellPlaced hbody.placed.wellPlaced
      exact List.forall_mem_cons.2
        ⟨fun _ => compile_negation (hsourced _ (mem_parts_self _) hrest) hnone, hsourced⟩
  | _, _, _, .rest _, _ => sourced_rest _ _
  | _, _, _, .string ht, h => sourced_of_token h (.string ht) rfl rfl
  | _, _, _, .symbol ht, h => sourced_of_token h (.symbol ht) rfl rfl
  | _, _, _, .number ht, h => sourced_of_token h (.number ht) rfl rfl
  | _, _, _, .predicate ht hknown, h =>
      sourced_of_token h (.predicate ht hknown) rfl (h.text_predicate List.mem_cons_self ht)
  | _, _, _, .any ht htext, h => sourced_of_token h (.any ht htext) rfl htext.symm
  | _, _, _, .kind ht htext hknown, h => sourced_of_token h (.kind ht htext hknown) rfl rfl

theorem DerivesAll.sourced : ∀ {inSequence : Bool} {ts : List Token} {ps : List Pattern},
    DerivesAll scope inSequence ts ps → Occurs scope ts →
      ∀ q ∈ partsOfAll ps, q.isRest = false → compile scope.toVocabulary q.source = .ok q
  | _, _, _, .nil, _ => by simp [partsOfAll]
  | _, _, _, .cons hfirst hrest, h => by
      rw [partsOfAll, List.forall_mem_append]
      exact ⟨hfirst.sourced (h.of_infix (List.prefix_append _ _).isInfix),
        hrest.sourced (h.of_infix (List.suffix_append _ _).isInfix)⟩

end

/-- The text that a compiled pattern keeps for a part of it, other than a rest marker, is compiled
to just that part: the same kinds, values, names and items, split around the same rest markers, the
same captures, and the same texts inside. -/
theorem compile_source {description : String} (h : compile vocabulary description = .ok p)
    (hq : q ∈ p.parts) (hrest : q.isRest = false) : compile vocabulary q.source = .ok q := by
  obtain ⟨-, ts, hts, hderives⟩ := compile_eq_ok_iff.1 h
  exact hderives.sourced ⟨ts, hts, List.infix_rfl⟩ q hq hrest

/-- A captured choice and a captured rest marker, with blanks behind their marks. -/
def spaced : String :=
  "(call $ \x7b(_ ! nil ...)  \"a b\"\x7d $others= ...)"

/-- The blank behind the mark of the choice is left out of its text, those between its brackets are
not. -/
theorem compile_source_spaced :
    ∃ p q, compile ⟨none, []⟩ spaced = .ok p ∧ q ∈ p.parts ∧ q.isRest = false ∧
      q.source = "$\x7b(_ ! nil ...)  \"a b\"\x7d" ∧ compile ⟨none, []⟩ q.source = .ok q := by
  have hsummary : (do
      let p ← (compile ⟨none, []⟩ spaced).toOption
      let q ← p.parts[1]?
      return (q.isRest, q.source)) = some (false, "$\x7b(_ ! nil ...)  \"a b\"\x7d") := by
    decide +kernel
  obtain ⟨p, hp, hsummary⟩ := Option.bind_eq_some_iff.1 hsummary
  obtain ⟨q, hq, hsummary⟩ := Option.bind_eq_some_iff.1 hsummary
  obtain ⟨hrest, hsource⟩ := Prod.mk.inj (Option.some.inj hsummary)
  have hmem := List.mem_of_getElem? hq
  exact ⟨p, q, toOption_eq_some hp, hmem, hrest, hsource,
    compile_source (toOption_eq_some hp) hmem hrest⟩

end RubyLint.Pattern
