import RubyLint.Proofs.Pattern.Captures
import RubyLint.Proofs.Rules.Harmless

/-!
# Redefinitions in nested groups

A definition is reported if its name is already defined where it stands: before it in its own group,
or in a group around it before the group that leads to it.  The check carries the lines of these
definitions down through the groups, a copy into each; the survey of a group lists the statements
that it comes to, each with the statements that are visible there.
-/

namespace RubyLint.Redefinition

open Cursor

variable {μ : Type} {s : Source} {naming : Naming} {methods : List Value}
variable {c d g h x y : Cursor} {groups : List Cursor} {name : String}

/-! ## Outermost groups -/

/-- A group whose enclosing call, if there is one, is no group. -/
structure Outermost (s : Source) (c : Cursor) : Prop where
  group : Ruby.isExampleGroup s c = true
  outer : ∀ owner ∈ Ruby.enclosingCall? c, Ruby.isExampleGroup s owner = false

theorem outermost_iff : Outermost s c ↔ Ruby.isExampleGroup s c = true ∧
    ∀ owner ∈ Ruby.enclosingCall? c, Ruby.isExampleGroup s owner = false :=
  ⟨fun h => ⟨h.group, h.outer⟩, fun h => ⟨h.1, h.2⟩⟩

instance (s : Source) (c : Cursor) : Decidable (Outermost s c) :=
  decidable_of_iff _ outermost_iff.symm

/-- A visit checks the statements of its place if this is an outermost group, and does nothing
otherwise. -/
theorem visit_eq [Machine] (naming : Naming) (ctx : Context μ) (c : Cursor) :
    visit naming ctx c = if Outermost ctx.document.toSource c then
      .withValue ctx.memory ((ctx.option "Methods" .null).members.mapError .value) fun methods =>
        scan ctx naming methods (c.node.size + 1) ctx.memory [] (Ruby.blockStatements c)
      else .quiet ctx.memory := by
  rw [visit]
  cases hc : Ruby.isExampleGroup ctx.document.toSource c with
  | false => simp [outermost_iff, hc]
  | true =>
      cases howner : Ruby.enclosingCall? c with
      | none => simp [outermost_iff, hc, howner]
      | some owner =>
          cases hgroup : Ruby.isExampleGroup ctx.document.toSource owner <;>
            simp [outermost_iff, hc, howner, hgroup]

/-! ## Definitions -/

/-- The name that a statement defines.  A statement that opens a group defines nothing. -/
def definedName (s : Source) (naming : Naming) (methods : List Value) (x : Cursor) :
    Option String :=
  if Ruby.isExampleGroup s x then none else (naming s methods x).toOption.join

/-- A statement that is reached from a group through groups each of which is a statement of the one
before it. -/
def Leads (s : Source) (g : Cursor) : List Cursor → Cursor → Prop
  | [], x => x ∈ Ruby.blockStatements g
  | h :: rest, x => h ∈ Ruby.blockStatements g ∧ Ruby.isExampleGroup s h = true ∧ Leads s h rest x

def Before (g d x : Cursor) : Prop :=
  [d, x].Sublist (Ruby.blockStatements g)

/-- The statements that are visible at a statement to which groups lead: those before it in the last
group, and in each group around that those before the next. -/
def Visible (g : Cursor) : List Cursor → Cursor → Cursor → Prop
  | [], x, d => Before g d x
  | h :: rest, x, d => Before g d h ∨ Visible h rest x d

theorem Leads.below (hleads : Leads s g groups x) : Below g x := by
  induction groups generalizing g with
  | nil => exact Ruby.below_of_mem_blockStatements hleads
  | cons h rest ih => exact (Ruby.below_of_mem_blockStatements hleads.1).trans (ih hleads.2.2)

theorem Leads.size_lt (hleads : Leads s g groups x) : x.node.size < g.node.size := by
  cases groups with
  | nil => exact Ruby.size_lt_of_statement hleads
  | cons h rest =>
      exact Nat.lt_of_le_of_lt hleads.2.2.below.size_le (Ruby.size_lt_of_statement hleads.1)

/-- Only one way leads to a statement. -/
theorem Leads.unique {others : List Cursor} (hleads : Leads s g groups x)
    (hothers : Leads s g others x) : groups = others := by
  induction groups generalizing g others with
  | nil =>
      cases others with
      | nil => rfl
      | cons h rest =>
          have hlt := hothers.2.2.size_lt
          have heq := Ruby.statement_unique hleads hothers.1 .refl hothers.2.2.below
          exact absurd (heq ▸ hlt) (Nat.lt_irrefl _)
  | cons h rest ih =>
      cases others with
      | nil =>
          have hlt := hleads.2.2.size_lt
          have heq := Ruby.statement_unique hothers hleads.1 .refl hleads.2.2.below
          exact absurd (heq ▸ hlt) (Nat.lt_irrefl _)
      | cons h' rest' =>
          obtain rfl := Ruby.statement_unique hleads.1 hothers.1 hleads.2.2.below
            hothers.2.2.below
          exact congrArg (h :: ·) (ih hleads.2.2 hothers.2.2)

theorem before_iff {front back : List Cursor}
    (hsplit : Ruby.blockStatements g = front ++ x :: back) : Before g d x ↔ d ∈ front := by
  have hnodup := Ruby.nodup_statements g
  rw [hsplit] at hnodup
  have hx : x ∉ back := (List.nodup_cons.1 (List.nodup_append.1 hnodup).2.1).1
  rw [Before, hsplit]
  constructor
  · intro hsub
    obtain ⟨first, last, heq, hfirst, hlast⟩ := List.sublist_append_iff.1 hsub
    cases first with
    | nil =>
        obtain rfl : [d, x] = last := heq
        rcases List.sublist_cons_iff.1 hlast with hlast | ⟨rest, hrest, hlast⟩
        · exact absurd (hlast.subset (by simp)) hx
        · obtain ⟨-, rfl⟩ := List.cons.inj hrest
          exact absurd (hlast.subset List.mem_cons_self) hx
    | cons d' first =>
        obtain ⟨rfl, -⟩ := List.cons.inj heq
        exact hfirst.subset List.mem_cons_self
  · intro hd
    exact (List.singleton_sublist.2 hd).append (List.singleton_sublist.2 List.mem_cons_self)

/-! ## Lines -/

theorem mem_insertLine {line l : Nat} {lines : List Nat} :
    l ∈ insertLine line lines ↔ l = line ∨ l ∈ lines := by
  induction lines with
  | nil => simp [insertLine]
  | cons first rest ih =>
      rw [insertLine]
      split
      · simp
      split
      next heq => simp [heq]
      next => simp [ih, or_left_comm]

theorem pairwise_insertLine {line : Nat} {lines : List Nat} (hlines : lines.Pairwise (· < ·)) :
    (insertLine line lines).Pairwise (· < ·) := by
  induction lines with
  | nil => simp [insertLine]
  | cons first rest ih =>
      obtain ⟨hfirst, hrest⟩ := List.pairwise_cons.1 hlines
      rw [insertLine]
      split
      next hlt =>
        refine List.pairwise_cons.2 ⟨List.forall_mem_cons.2 ⟨hlt, fun l hl => ?_⟩, hlines⟩
        exact Nat.lt_trans hlt (hfirst l hl)
      split
      · exact hlines
      next hlt heq =>
        refine List.pairwise_cons.2 ⟨fun l hl => ?_, ih hrest⟩
        rcases mem_insertLine.1 hl with rfl | hl
        · omega
        · exact hfirst l hl

theorem linesOf_define (definitions : Definitions) (key name : String) (line : Nat) :
    linesOf (define definitions key line) name =
      if name = key then insertLine line (linesOf definitions key)
      else linesOf definitions name := by
  rw [linesOf, define, lookup_cons, lookup_filter_ne]
  split
  · rfl
  · rfl

/-- The definitions that some statements make, the last one first. -/
def definitionsOf (s : Source) (naming : Naming) (methods : List Value) : List Cursor → Definitions
  | [] => []
  | x :: seen =>
    match definedName s naming methods x with
    | none => definitionsOf s naming methods seen
    | some name => define (definitionsOf s naming methods seen) name (s.firstLine x.node)

theorem linesOf_definitionsOf (s : Source) (naming : Naming) (methods : List Value)
    (seen : List Cursor) (name : String) :
    (linesOf (definitionsOf s naming methods seen) name).Pairwise (· < ·) ∧
      ∀ line, line ∈ linesOf (definitionsOf s naming methods seen) name ↔
        ∃ d ∈ seen, definedName s naming methods d = some name ∧ s.firstLine d.node = line := by
  induction seen with
  | nil => simp [definitionsOf, linesOf]
  | cons x seen ih =>
      rw [definitionsOf]
      cases hx : definedName s naming methods x with
      | none => simpa [hx] using ih
      | some key =>
          simp only [linesOf_define]
          by_cases hkey : name = key
          · subst hkey
            simp only [if_true, mem_insertLine, ih.2, List.exists_mem_cons_iff, hx, true_and,
              eq_comm, and_true, implies_true, pairwise_insertLine ih.1]
          · simpa [hkey, hx, Ne.symm hkey] using ih

/-! ## Names are names of calls -/

/-- A pattern that matches nothing but calls, seen from its outermost nodes. -/
def matchesCalls : Pattern → Bool
  | .node _ head _ => head == some "call"
  | .choice _ branches => branches.all fun
      | .node _ head _ => head == some "call"
      | _ => false
  | _ => false

theorem isCall_of_matches {setting : Pattern.Setting} {p : Pattern} {entries : Pattern.Entries}
    (hp : matchesCalls p = true) (hmatches : Pattern.Matches setting p c entries) :
    Ruby.isCall c = true := by
  cases p with
  | node source head items =>
      have hhead : head = some "call" := by simpa [matchesCalls] using hp
      exact beq_iff_eq.2 (hmatches.1 "call" hhead)
  | choice source branches =>
      obtain ⟨q, hq, hmatches⟩ := Pattern.exists_branch hmatches
      have hbranch := List.all_eq_true.1 hp q hq
      cases q with
      | node source head items =>
          have hhead : head = some "call" := by simpa using hbranch
          exact beq_iff_eq.2 (hmatches.1 "call" hhead)
      | _ => simp at hbranch
  | _ => simp [matchesCalls] at hp

theorem isCall_of_captured {description : String} {values : List (Option String)}
    (hp : matchesCalls (grammarPattern description) = true)
    (hvalues : capturedValues s (grammarPattern description) c = .ok (some values)) :
    Ruby.isCall c = true := by
  rw [capturedValues] at hvalues
  rcases Pattern.run_spec ⟨s, fun _ _ => false⟩ c (grammarPattern_placed description) with
    ⟨entries, hentries, -, -⟩ | ⟨-, -, hrun⟩
  · exact isCall_of_matches hp hentries
  · rw [hrun] at hvalues
    cases hvalues

theorem matchesCalls_named :
    matchesCalls namedDefinition = true ∧ matchesCalls namedSubject = true ∧
      matchesCalls plainSubject = true := by
  decide +kernel

theorem isCall_of_letName (hname : letName s methods c = .ok (some name)) :
    Ruby.isCall c = true := by
  obtain ⟨values, hvalues, hname⟩ := bind_eq_ok hname
  cases values with
  | none => nomatch hname
  | some values => exact isCall_of_captured matchesCalls_named.1 hvalues

theorem isCall_of_subjectName (hname : subjectName s methods c = .ok (some name)) :
    Ruby.isCall c = true := by
  obtain ⟨values, hvalues, hname⟩ := bind_eq_ok hname
  cases values with
  | some values => exact isCall_of_captured matchesCalls_named.2.1 hvalues
  | none =>
      obtain ⟨values, hvalues, hname⟩ := bind_eq_ok hname
      cases values with
      | none => nomatch hname
      | some values => exact isCall_of_captured matchesCalls_named.2.2 hvalues

/-- The rules on redefinitions: what they are about, and how they name what a statement defines. -/
def variants [Machine] (μ : Type) : List (String × Naming × Rule μ) :=
  [("Let", letName, letRule), ("Subject", subjectName, subjectRule)]

/-- What the check relies on: every statement has a name or none, and what has one is a call. -/
structure Names (naming : Naming) : Prop where
  total : ∀ s methods c, ∃ r, naming s methods c = .ok r
  isCall : ∀ {s methods c name}, naming s methods c = .ok (some name) → Ruby.isCall c = true

theorem names_of_variant [Machine] {what : String} {rule : Rule μ}
    (hvariant : (what, naming, rule) ∈ variants μ) : Names naming := by
  simp only [variants, List.mem_cons, Prod.mk.injEq, List.not_mem_nil, or_false] at hvariant
  rcases hvariant with ⟨-, rfl, -⟩ | ⟨-, rfl, -⟩
  · exact ⟨letName_ok, isCall_of_letName⟩
  · exact ⟨subjectName_ok, isCall_of_subjectName⟩

theorem of_variant [Machine] {what : String} {rule : Rule μ}
    (hvariant : (what, naming, rule) ∈ variants μ) :
    rule.visit = visit naming ∧ rule.info.kinds = ["call"] ∧ rule.info.autocorrect = false := by
  simp only [variants, List.mem_cons, Prod.mk.injEq, List.not_mem_nil, or_false] at hvariant
  rcases hvariant with ⟨-, rfl, rfl⟩ | ⟨-, rfl, rfl⟩ <;> exact ⟨rfl, rfl, rfl⟩

theorem definedName_eq_none (hnames : Names naming) (hcall : Ruby.isCall x = false) :
    definedName s naming methods x = none := by
  rw [definedName]
  split
  · rfl
  · obtain ⟨r, hr⟩ := hnames.total s methods x
    cases r with
    | none => rw [hr]; rfl
    | some name =>
        have := hnames.isCall hr
        simp [hcall] at this

theorem definedName_eq {r : Option String} (hgroup : Ruby.isExampleGroup s x = false)
    (hr : naming s methods x = .ok r) : definedName s naming methods x = r := by
  rw [definedName, hgroup, if_neg (by simp), hr]
  cases r <;> rfl

/-! ## The survey of a group -/

/-- The statements that the check of some statements comes to, each with the statements that are
visible there, the last one first. -/
def survey (s : Source) (seen : List Cursor) : List Cursor → List (Cursor × List Cursor)
  | [] => []
  | x :: rest =>
    (x, seen) ::
      ((if Ruby.isExampleGroup s x then survey s seen (Ruby.blockStatements x) else []) ++
        survey s (x :: seen) rest)
termination_by statements => workload statements
decreasing_by
  · have := Ruby.workload_blockStatements x
    rw [Ruby.workload_cons]
    omega
  · have := Node.size_eq x.node
    rw [Ruby.workload_cons]
    omega

/-- What the check does at a statement. -/
def judge [Machine] (ctx : Context μ) (naming : Naming) (methods : List Value) (memory : μ)
    (entry : Cursor × List Cursor) : Outcome μ :=
  match definedName ctx.document.toSource naming methods entry.1 with
  | none => .quiet memory
  | some name =>
    let previous := linesOf (definitionsOf ctx.document.toSource naming methods entry.2) name
    if previous.isEmpty then .quiet memory
    else
      .withValue memory (message ctx name previous) fun text =>
        .report memory (ctx.offense (entry.1.node.start, entry.1.node.stop) text [] none .null)

theorem judge_of_none [Machine] {ctx : Context μ} (memory : μ) (seen : List Cursor)
    (hx : definedName ctx.document.toSource naming methods x = none) :
    judge ctx naming methods memory (x, seen) = .quiet memory ∧
      definitionsOf ctx.document.toSource naming methods (x :: seen) =
        definitionsOf ctx.document.toSource naming methods seen := by
  simp only [judge, definitionsOf, hx, and_self]

theorem checkStatement_eq [Machine] {ctx : Context μ} {seen : List Cursor} (hnames : Names naming)
    (memory : μ) (hgroup : Ruby.isExampleGroup ctx.document.toSource x = false) :
    checkStatement ctx naming methods memory
        (definitionsOf ctx.document.toSource naming methods seen) x =
      (judge ctx naming methods memory (x, seen),
        definitionsOf ctx.document.toSource naming methods (x :: seen)) := by
  obtain ⟨r, hr⟩ := hnames.total ctx.document.toSource methods x
  rw [checkStatement, hr, judge, definitionsOf, definedName_eq hgroup hr]
  cases r <;> rfl

/-- The check of some statements judges what their survey lists, one after the other. -/
theorem scan_eq_each [Machine] {ctx : Context μ} (hnames : Names naming) (depth : Nat) (memory : μ)
    (seen statements : List Cursor) (hdepth : workload statements < depth) :
    scan ctx naming methods depth memory
        (definitionsOf ctx.document.toSource naming methods seen) statements =
      Outcome.each memory (survey ctx.document.toSource seen statements)
        (judge ctx naming methods) := by
  induction depth generalizing memory seen statements with
  | zero => omega
  | succ depth ih =>
      cases statements with
      | nil =>
          rw [survey]
          rfl
      | cons x rest =>
          have hsize := Node.size_eq x.node
          have hinner := Ruby.workload_blockStatements x
          rw [Ruby.workload_cons] at hdepth
          have hrest := fun memory seen => ih memory seen rest (by omega)
          rw [scan, survey, Outcome.each_cons]
          cases hcall : Ruby.isCall x with
          | false =>
              have hgroup : Ruby.isExampleGroup ctx.document.toSource x = false := by
                simp [Ruby.isExampleGroup, hcall]
              obtain ⟨hjudge, hdefinitions⟩ :=
                judge_of_none memory seen (definedName_eq_none hnames hcall)
              rw [hgroup, hjudge, ← hdefinitions]
              exact hrest memory (x :: seen)
          | true =>
              cases hgroup : Ruby.isExampleGroup ctx.document.toSource x with
              | true =>
                  obtain ⟨hjudge, hdefinitions⟩ := judge_of_none memory seen
                    (show definedName ctx.document.toSource naming methods x = none by
                      rw [definedName, hgroup, if_pos rfl])
                  simp only [Bool.not_true, Bool.false_eq_true, if_false, if_true, hjudge,
                    Outcome.quiet_andThen, Outcome.each_append]
                  rw [ih memory seen (Ruby.blockStatements x) (by omega)]
                  congr 1
                  funext memory
                  rw [← hrest, hdefinitions]
              | false =>
                  simp only [Bool.not_true, Bool.false_eq_true, if_false,
                    checkStatement_eq hnames memory hgroup, List.nil_append, hrest]

/-- The survey goes through the places of the statements in pre-order. -/
theorem survey_sublist (s : Source) (seen statements : List Cursor) :
    ((survey s seen statements).map Prod.fst).Sublist (statements.flatMap preorder) := by
  fun_induction survey s seen statements with
  | case1 => exact List.Sublist.refl _
  | case2 seen x rest ihinner ihrest =>
      rw [List.map_cons, List.map_append, List.flatMap_cons, preorder_eq, List.cons_append]
      refine (List.Sublist.append ?_ ihrest).cons_cons x
      split
      · exact ihinner.trans (Ruby.blockStatements_sublist x)
      · exact List.nil_sublist _

/-- Groups lead to every statement of a survey, and what is visible there is what the survey
says. -/
theorem leads_of_mem_survey {front statements base seen : List Cursor}
    (hsplit : Ruby.blockStatements g = front ++ statements)
    (hmem : (x, seen) ∈ survey s (front.reverse ++ base) statements) :
    ∃ groups, Leads s g groups x ∧ ∀ d, d ∈ seen ↔ d ∈ base ∨ Visible g groups x d := by
  generalize hvisible : front.reverse ++ base = visible at hmem
  fun_induction survey s visible statements generalizing g front base with
  | case1 => simp at hmem
  | case2 visible y rest ihinner ihrest =>
      subst hvisible
      rcases List.mem_cons.1 hmem with heq | hmem
      · obtain ⟨rfl, rfl⟩ := Prod.mk.inj heq
        refine ⟨[], by simp [Leads, hsplit], fun d => ?_⟩
        rw [Visible, before_iff hsplit, List.mem_append, List.mem_reverse, or_comm]
      rcases List.mem_append.1 hmem with hmem | hmem
      · split at hmem
        next hgroup =>
          have hy : y ∈ Ruby.blockStatements g := by simp [hsplit]
          have hinner : Ruby.blockStatements y = [] ++ Ruby.blockStatements y := rfl
          obtain ⟨groups, hleads, hseen⟩ := ihinner hinner (List.nil_append _) hmem
          refine ⟨y :: groups, ⟨hy, hgroup, hleads⟩, fun d => ?_⟩
          rw [hseen, Visible, before_iff hsplit, List.mem_append, List.mem_reverse]
          tauto
        next => simp at hmem
      · have hrest : Ruby.blockStatements g = (front ++ [y]) ++ rest := by
          rw [hsplit, List.append_assoc, List.singleton_append]
        refine ihrest hrest ?_ hmem
        rw [List.reverse_append, List.reverse_singleton, List.singleton_append, List.cons_append]

theorem survey_step {statements : List Cursor} (hx : x ∈ statements) (seen : List Cursor) :
    ∃ seen', (x, seen') ∈ survey s seen statements ∧ (Ruby.isExampleGroup s x = true →
      survey s seen' (Ruby.blockStatements x) ⊆ survey s seen statements) := by
  induction statements generalizing seen with
  | nil => simp at hx
  | cons y rest ih =>
      rw [survey]
      rcases List.mem_cons.1 hx with rfl | hx
      · refine ⟨seen, List.mem_cons_self, fun hgroup => ?_⟩
        rw [if_pos hgroup]
        exact List.subset_cons_of_subset _ (List.subset_append_left _ _)
      · obtain ⟨seen', hmem, hinner⟩ := ih hx (y :: seen)
        refine ⟨seen', List.mem_cons_of_mem _ (List.mem_append_right _ hmem), fun hgroup => ?_⟩
        exact List.subset_cons_of_subset _
          (List.subset_append_of_subset_right _ (hinner hgroup))

/-- The survey comes to every statement to which groups lead. -/
theorem exists_mem_survey (hleads : Leads s g groups x) (base : List Cursor) :
    ∃ seen, (x, seen) ∈ survey s base (Ruby.blockStatements g) := by
  induction groups generalizing g base with
  | nil =>
      obtain ⟨seen, hmem, -⟩ := survey_step hleads base
      exact ⟨seen, hmem⟩
  | cons h rest ih =>
      obtain ⟨seen, -, hinner⟩ := survey_step hleads.1 base
      obtain ⟨seen', hmem⟩ := ih hleads.2.2 seen
      exact ⟨seen', hinner hleads.2.1 hmem⟩

/-! ## What is reported -/

/-- Whether a name is defined again where a survey comes to it. -/
def isDue (s : Source) (naming : Naming) (methods : List Value) (entry : Cursor × List Cursor) :
    Bool :=
  (definedName s naming methods entry.1).any fun name =>
    entry.2.any fun d => definedName s naming methods d == some name

theorem isDue_iff {seen : List Cursor} (hname : definedName s naming methods x = some name) :
    isDue s naming methods (x, seen) = true ↔
      ∃ d ∈ seen, definedName s naming methods d = some name := by
  simp [isDue, hname]

theorem exists_name_of_isDue {seen : List Cursor} (hdue : isDue s naming methods (x, seen) = true) :
    ∃ name, definedName s naming methods x = some name := by
  obtain ⟨name, hname, -⟩ := (Option.any_eq_true _ _).1 hdue
  exact ⟨name, hname⟩

/-- An offense that reports a statement which defines again what the statements seen before it
define. -/
structure Repeats (ctx : Context μ) (what : String) (naming : Naming) (methods : List Value)
    (entry : Cursor × List Cursor) (o : Offense) : Prop where
  rule : o.rule = ctx.info.id
  file : o.file = ctx.document.path
  range : o.start = entry.1.node.start ∧ o.stop = entry.1.node.stop
  message : ∀ name, definedName ctx.document.toSource naming methods entry.1 = some name →
    o.message = messageText what name
      (linesOf (definitionsOf ctx.document.toSource naming methods entry.2) name)

section

variable [Machine] {ctx : Context μ} {what : String} {entry : Cursor × List Cursor}

theorem judge_quiet (memory : μ)
    (hdue : isDue ctx.document.toSource naming methods entry = false) :
    judge ctx naming methods memory entry = .quiet memory := by
  obtain ⟨x, seen⟩ := entry
  cases hname : definedName ctx.document.toSource naming methods x with
  | none => exact (judge_of_none memory seen hname).1
  | some name =>
      have hlines :
          linesOf (definitionsOf ctx.document.toSource naming methods seen) name = [] := by
        rw [List.eq_nil_iff_forall_not_mem]
        intro line hline
        obtain ⟨d, hd, hdname, -⟩ :=
          ((linesOf_definitionsOf _ naming methods seen name).2 line).1 hline
        have := (isDue_iff hname).2 ⟨d, hd, hdname⟩
        simp [hdue] at this
      simp only [judge, hname, hlines, List.isEmpty_nil, if_true]

theorem judge_due
    (hmessage : ∀ name lines, message ctx name lines = .ok (messageText what name lines))
    (memory : μ) (hname : definedName ctx.document.toSource naming methods entry.1 = some name)
    (hdue : isDue ctx.document.toSource naming methods entry = true) :
    judge ctx naming methods memory entry =
      .report memory (ctx.offense (entry.1.node.start, entry.1.node.stop) (messageText what name
        (linesOf (definitionsOf ctx.document.toSource naming methods entry.2) name)) [] none
        .null) := by
  obtain ⟨x, seen⟩ := entry
  obtain ⟨d, hd, hdname⟩ := (isDue_iff hname).1 hdue
  have hline := ((linesOf_definitionsOf _ naming methods seen name).2 _).2 ⟨d, hd, hdname, rfl⟩
  have hne : (linesOf (definitionsOf ctx.document.toSource naming methods seen) name).isEmpty =
      false := by
    rw [List.isEmpty_eq_false_iff]
    exact List.ne_nil_of_mem hline
  simp only [judge, hname, hne, Bool.false_eq_true, if_false, hmessage, Outcome.withValue]

theorem judge_report
    (hmessage : ∀ name lines, message ctx name lines = .ok (messageText what name lines))
    (memory : μ) (hdue : isDue ctx.document.toSource naming methods entry = true)
    (hsolid : entry.1.node.start < entry.1.node.stop) :
    ∃ o, Repeats ctx what naming methods entry o ∧
      judge ctx naming methods memory entry = ⟨[o], memory, none⟩ := by
  obtain ⟨name, hname⟩ := exists_name_of_isDue hdue
  obtain ⟨o, ho, -⟩ := ctx.exists_offense (entry.1.node.start, entry.1.node.stop) [] none .null
    (messageText_ne_empty what name
      (linesOf (definitionsOf ctx.document.toSource naming methods entry.2) name))
    (by simp) (by simpa using hsolid)
  rw [judge_due hmessage memory hname hdue, ho]
  obtain rfl := Offense.eq_of_checked ho
  refine ⟨_, ⟨rfl, rfl, ⟨rfl, rfl⟩, fun other hother => ?_⟩, rfl⟩
  obtain rfl := Option.some.inj (hname.symm.trans hother)
  rfl

/-- What covers no byte cannot be reported. -/
theorem judge_fail
    (hmessage : ∀ name lines, message ctx name lines = .ok (messageText what name lines))
    (memory : μ) (hdue : isDue ctx.document.toSource naming methods entry = true)
    (hempty : entry.1.node.stop ≤ entry.1.node.start) :
    ∃ fault, judge ctx naming methods memory entry = .fail memory fault := by
  obtain ⟨name, hname⟩ := exists_name_of_isDue hdue
  rw [judge_due hmessage memory hname hdue]
  obtain ⟨fault, hfault⟩ := ctx.exists_offense_fault (entry.1.node.start, entry.1.node.stop)
    (messageText what name
      (linesOf (definitionsOf ctx.document.toSource naming methods entry.2) name)) [] none .null
    (Int.ofNat_le.2 hempty)
  exact ⟨.offense fault, by rw [hfault]; rfl⟩

theorem message_of_variant {rule : Rule μ} (hvariant : (what, naming, rule) ∈ variants μ)
    (hinfo : ctx.info = rule.info) (name : String) (lines : List Nat) :
    message ctx name lines = .ok (messageText what name lines) := by
  simp only [variants, List.mem_cons, Prod.mk.injEq, List.not_mem_nil, or_false] at hvariant
  rcases hvariant with ⟨rfl, -, rfl⟩ | ⟨rfl, -, rfl⟩
  · have hinfo : ctx.info = letInfo := hinfo
    exact message_eq "Let" (by decide) (by rw [hinfo, message_letInfo]) name lines
  · have hinfo : ctx.info = subjectInfo := hinfo
    exact message_eq "Subject" (by decide) (by rw [hinfo, message_subjectInfo]) name lines

/-- The visit of an outermost group judges what its survey lists. -/
theorem visit_eq_each {rule : Rule μ} (hvariant : (what, naming, rule) ∈ variants μ)
    (hgroup : Ruby.isExampleGroup ctx.document.toSource g = true)
    (houter : ∀ c ∈ Ruby.enclosingCall? g, Ruby.isExampleGroup ctx.document.toSource c = false)
    (hmethods : (ctx.option "Methods" .null).members = .ok methods) :
    rule.visit ctx g =
      Outcome.each ctx.memory (survey ctx.document.toSource [] (Ruby.blockStatements g))
        (judge ctx naming methods) := by
  have hscan : scan ctx naming methods (g.node.size + 1) ctx.memory [] (Ruby.blockStatements g) =
      Outcome.each ctx.memory (survey ctx.document.toSource [] (Ruby.blockStatements g))
        (judge ctx naming methods) :=
    scan_eq_each (names_of_variant hvariant) _ _ [] _
      (Nat.lt_succ_of_lt (Ruby.workload_blockStatements g))
  rw [(of_variant hvariant).1, visit_eq, if_pos ⟨hgroup, houter⟩, hmethods]
  exact hscan

end

/-- An offense that reports a statement below a group: it lists the lines of all definitions of the
name that are visible there, each line once and in increasing order. -/
structure Reports (ctx : Context μ) (what : String) (naming : Naming) (methods : List Value)
    (g x : Cursor) (o : Offense) : Prop where
  rule : o.rule = ctx.info.id
  file : o.file = ctx.document.path
  range : o.start = x.node.start ∧ o.stop = x.node.stop
  message : ∀ groups name, Leads ctx.document.toSource g groups x →
    definedName ctx.document.toSource naming methods x = some name →
      ∃ lines, o.message = messageText what name lines ∧ lines.Pairwise (· < ·) ∧
        ∀ line, line ∈ lines ↔ ∃ d, Visible g groups x d ∧
          definedName ctx.document.toSource naming methods d = some name ∧
          ctx.document.firstLine d.node = line

/-- The survey of a group, without what the statements of groups around it make visible. -/
theorem leads_of_mem {seen : List Cursor}
    (hmem : (x, seen) ∈ survey s [] (Ruby.blockStatements g)) :
    ∃ groups, Leads s g groups x ∧ ∀ d, d ∈ seen ↔ Visible g groups x d := by
  have hsplit : Ruby.blockStatements g = [] ++ Ruby.blockStatements g := rfl
  have hmem : (x, seen) ∈ survey s (([] : List Cursor).reverse ++ []) (Ruby.blockStatements g) :=
    hmem
  obtain ⟨groups, hleads, hseen⟩ := leads_of_mem_survey hsplit hmem
  exact ⟨groups, hleads, fun d => by simp [hseen]⟩

theorem Repeats.reports {ctx : Context μ} {what : String} {seen : List Cursor} {o : Offense}
    (hrepeats : Repeats ctx what naming methods (x, seen) o)
    (hmem : (x, seen) ∈ survey ctx.document.toSource [] (Ruby.blockStatements g)) :
    Reports ctx what naming methods g x o where
  rule := hrepeats.rule
  file := hrepeats.file
  range := hrepeats.range
  message groups name hleads hname := by
    obtain ⟨others, hothers, hseen⟩ := leads_of_mem hmem
    obtain rfl := hleads.unique hothers
    obtain ⟨hpairwise, hlines⟩ :=
      linesOf_definitionsOf ctx.document.toSource naming methods seen name
    refine ⟨_, hrepeats.message name hname, hpairwise, fun line => ?_⟩
    rw [hlines]
    exact exists_congr fun d => and_congr_left fun _ => hseen d

/-- The entries of the survey of a group at which a name is defined again. -/
def dueEntries (s : Source) (naming : Naming) (methods : List Value) (g : Cursor) :
    List (Cursor × List Cursor) :=
  (survey s [] (Ruby.blockStatements g)).filter (isDue s naming methods)

theorem dueEntries_sublist (s : Source) (naming : Naming) (methods : List Value) (g : Cursor) :
    ((dueEntries s naming methods g).map Prod.fst).Sublist g.nodes := by
  rw [nodes_eq_preorder, preorder_eq, dueEntries]
  calc
    List.Sublist _ ((survey s [] (Ruby.blockStatements g)).map Prod.fst) :=
      List.filter_sublist.map Prod.fst
    List.Sublist _ ((Ruby.blockStatements g).flatMap preorder) := survey_sublist _ _ _
    List.Sublist _ (g.children.flatMap preorder) := Ruby.blockStatements_sublist g
    List.Sublist _ (g :: g.children.flatMap preorder) := List.sublist_cons_self g _

theorem leads_of_mem_dueEntries (hx : x ∈ (dueEntries s naming methods g).map Prod.fst) :
    ∃ groups name, Leads s g groups x ∧ definedName s naming methods x = some name := by
  obtain ⟨⟨x, seen⟩, hentry, rfl⟩ := List.mem_map.1 hx
  obtain ⟨hmem, hdue⟩ := List.mem_filter.1 hentry
  obtain ⟨groups, hleads, -⟩ := leads_of_mem hmem
  obtain ⟨name, hname⟩ := exists_name_of_isDue hdue
  exact ⟨groups, name, hleads, hname⟩

/-- A definition is due if a visible statement defines the same. -/
theorem mem_dueEntries_iff (hleads : Leads s g groups x)
    (hname : definedName s naming methods x = some name) :
    x ∈ (dueEntries s naming methods g).map Prod.fst ↔
      ∃ d, Visible g groups x d ∧ definedName s naming methods d = some name := by
  have hvisible : ∀ seen, (x, seen) ∈ survey s [] (Ruby.blockStatements g) →
      (isDue s naming methods (x, seen) = true ↔
        ∃ d, Visible g groups x d ∧ definedName s naming methods d = some name) := by
    intro seen hmem
    obtain ⟨others, hothers, hseen⟩ := leads_of_mem hmem
    obtain rfl := hleads.unique hothers
    rw [isDue_iff hname]
    exact exists_congr fun d => and_congr_left fun _ => hseen d
  constructor
  · intro hx
    obtain ⟨⟨_, seen⟩, hentry, rfl⟩ := List.mem_map.1 hx
    obtain ⟨hmem, hdue⟩ := List.mem_filter.1 hentry
    exact (hvisible seen hmem).1 hdue
  · intro hd
    obtain ⟨seen, hmem⟩ := exists_mem_survey hleads []
    exact List.mem_map.2 ⟨(x, seen), List.mem_filter.2 ⟨hmem, (hvisible seen hmem).2 hd⟩, rfl⟩

/-- The check of a group reports what is due up to the first statement that covers no byte. -/
theorem each_judge_reports [Machine] {ctx : Context μ} {what : String}
    (hmessage : ∀ name lines, message ctx name lines = .ok (messageText what name lines))
    (memory : μ) (g : Cursor) :
    let outcome := Outcome.each memory (survey ctx.document.toSource [] (Ruby.blockStatements g))
      (judge ctx naming methods)
    let due := (dueEntries ctx.document.toSource naming methods g).map Prod.fst
    List.Forall₂ (Reports ctx what naming methods g)
        (due.takeWhile fun x => decide (x.node.start < x.node.stop)) outcome.offenses ∧
      (outcome.fault = none ↔ ∀ x ∈ due, x.node.start < x.node.stop) := by
  obtain ⟨hreports, hfault⟩ := Outcome.each_reports
    (survey ctx.document.toSource [] (Ruby.blockStatements g)) (judge ctx naming methods)
    (isDue ctx.document.toSource naming methods)
    (fun entry => decide (entry.1.node.start < entry.1.node.stop))
    (fun entry => Reports ctx what naming methods g entry.1) memory
    (fun memory entry _ hdue => judge_quiet memory hdue)
    (fun memory entry hmem hdue hsolid => by
      obtain ⟨o, ho, hjudge⟩ := judge_report hmessage memory hdue (of_decide_eq_true hsolid)
      exact ⟨o, ho.reports hmem, hjudge⟩)
    (fun memory entry _ hdue hempty =>
      judge_fail hmessage memory hdue (Nat.le_of_not_lt (of_decide_eq_false hempty)))
  constructor
  · rw [List.takeWhile_map, List.forall₂_map_left_iff]
    exact hreports
  · rw [hfault, List.forall_mem_map]
    constructor
    · intro h entry hentry
      obtain ⟨hmem, hdue⟩ := List.mem_filter.1 hentry
      exact of_decide_eq_true (h entry hmem hdue)
    · intro h entry hmem hdue
      exact decide_eq_true (h entry (List.mem_filter.2 ⟨hmem, hdue⟩))

/-- The visit of an outermost group finds due, in the order of the document and each once, the
statements below it that define what a visible statement already defines, and no others.  It reports
them up to the first that covers no byte, at which the visit fails. -/
theorem visit_redefinitions [Machine] {what : String} {rule : Rule μ}
    (hvariant : (what, naming, rule) ∈ variants μ) {ctx : Context μ} (hinfo : ctx.info = rule.info)
    (hgroup : Ruby.isExampleGroup ctx.document.toSource g = true)
    (houter : ∀ c ∈ Ruby.enclosingCall? g, Ruby.isExampleGroup ctx.document.toSource c = false)
    (hmethods : (ctx.option "Methods" .null).members = .ok methods) :
    ∃ due : List Cursor, due.Nodup ∧ due.Sublist g.nodes ∧
      (∀ x ∈ due, ∃ groups name, Leads ctx.document.toSource g groups x ∧
        definedName ctx.document.toSource naming methods x = some name) ∧
      (∀ groups x name, Leads ctx.document.toSource g groups x →
        definedName ctx.document.toSource naming methods x = some name →
          (x ∈ due ↔ ∃ d, Visible g groups x d ∧
            definedName ctx.document.toSource naming methods d = some name)) ∧
      List.Forall₂ (Reports ctx what naming methods g)
        (due.takeWhile fun x => decide (x.node.start < x.node.stop)) (rule.visit ctx g).offenses ∧
      ((rule.visit ctx g).fault = none ↔ ∀ x ∈ due, x.node.start < x.node.stop) := by
  have hsublist := dueEntries_sublist ctx.document.toSource naming methods g
  obtain ⟨hreports, hfault⟩ :=
    each_judge_reports (message_of_variant hvariant hinfo) ctx.memory g
  rw [← visit_eq_each hvariant hgroup houter hmethods] at hreports hfault
  exact ⟨_, g.nodup_nodes.sublist hsublist, hsublist, fun x hx => leads_of_mem_dueEntries hx,
    fun groups x name hleads hname => mem_dueEntries_iff hleads hname, hreports, hfault⟩

/-- A call with one symbol and an empty block, its method word of some length. -/
def definition (start length : Nat) : Node :=
  ⟨"call", start, start + length + 6, true, none,
    [⟨"identifier", start, start + length, true, some "method", []⟩,
      ⟨"argument_list", start + length, start + length + 4, true, some "arguments",
        [⟨"simple_symbol", start + length + 1, start + length + 3, true, none, []⟩]⟩,
      ⟨"block", start + length + 4, start + length + 6, true, some "block", []⟩]⟩

def contextGroup (start stop : Nat) (statements : List Node) : Node :=
  ⟨"call", start, stop, true, none,
    [⟨"identifier", start, start + 7, true, some "method", []⟩,
      ⟨"block", start + 7, stop, true, some "block", statements⟩]⟩

/-- A definition, and in a group inside it the same again. -/
def nested : Document :=
  { Source.ofText "a_spec.rb" "context\x7blet(:a)\x7b\x7d\ncontext\x7blet(:a)\x7b\x7d\x7d\x7d" with
    root := contextGroup 0 37 [definition 8 3, contextGroup 18 36 [definition 26 3]]
    faults := [] }

theorem members_letInfo (document : Document) (severity : Option String) (memory : μ) :
    ((Context.start document letInfo [] severity memory).option "Methods" .null).members =
      .ok (["let", "let!"].map .str) := by
  rw [← Value.members_words]
  simp [Context.start, Context.option, letInfo, Table.update, Table.lookup?, Table.get?,
    Value.sameKey_str_iff]

/-- The inner definition is reported at its own range with the line of the outer one. -/
theorem visit_redefinitions_nested :
    let ctx : Context Unit := .start nested letInfo [] none ()
    (letRule.visit ctx nested.top).offenses.map (fun o => (o.start, o.stop, o.message)) =
        [(26, 35, "Let `:a` is already defined in ancestor(s) block(s) at: 1.")] ∧
      ∃ due : List Cursor, due.Nodup ∧ (∀ x ∈ due, x.node.start < x.node.stop) ∧
        List.Forall₂ (Reports ctx "Let" letName (["let", "let!"].map .str) nested.top)
          (due.takeWhile fun x => decide (x.node.start < x.node.stop))
          (letRule.visit ctx nested.top).offenses := by
  intro ctx
  have hgroup : Ruby.isExampleGroup ctx.document.toSource nested.top = true := by decide +kernel
  have houter : ∀ c ∈ Ruby.enclosingCall? nested.top,
      Ruby.isExampleGroup ctx.document.toSource c = false := by
    rintro c ⟨⟩
  have hvariant : ("Let", letName, letRule) ∈ variants Unit := List.mem_cons_self
  have hrun : (letRule.visit ctx nested.top).fault = none ∧
      (letRule.visit ctx nested.top).offenses.map (fun o => (o.start, o.stop, o.message)) =
        [(26, 35, "Let `:a` is already defined in ancestor(s) block(s) at: 1.")] := by
    decide +kernel
  obtain ⟨due, hnodup, -, -, -, hreports, hfault⟩ :=
    visit_redefinitions hvariant rfl hgroup houter (members_letInfo nested none ())
  exact ⟨hrun.2, due, hnodup, hfault.1 hrun.1, hreports⟩

/-- A call all of whose parts are empty. -/
def hollowDefinition : Node :=
  ⟨"call", 8, 8, true, none,
    [⟨"identifier", 8, 8, true, some "method", []⟩,
      ⟨"argument_list", 8, 8, true, some "arguments", [⟨"simple_symbol", 8, 8, true, none, []⟩]⟩,
      ⟨"block", 8, 8, true, some "block", []⟩]⟩

def couple (text : String) (stop : Nat) (first second : Node) : Document :=
  { Source.ofText "a_spec.rb" text with
    root := contextGroup 0 stop [first, second]
    faults := [] }

/-- Nothing is reported in a group although its two statements define the same name. -/
def Silent (document : Document) (methods : List Value) (name : String) : Prop :=
  let ctx : Context Unit := .start document letInfo [(.str "Methods", .list methods)] none ()
  Ruby.isExampleGroup document.toSource document.top = true ∧
    ∃ d x, Ruby.blockStatements document.top = [d, x] ∧
      (letName document.toSource methods d).toOption = some (some name) ∧
      (letName document.toSource methods x).toOption = some (some name) ∧
      (letRule.visit ctx document.top).offenses = []

instance (document : Document) (methods : List Value) (name : String) :
    Decidable (Silent document methods name) :=
  let ctx : Context Unit := .start document letInfo [(.str "Methods", .list methods)] none ()
  decidable_of_iff (Ruby.isExampleGroup document.toSource document.top = true ∧
    (Ruby.blockStatements document.top).map
        (fun x => (letName document.toSource methods x).toOption) = [some name, some name] ∧
    (letRule.visit ctx document.top).offenses.isEmpty = true) <| by
  refine and_congr_right fun _ => ?_
  rw [List.isEmpty_iff]
  constructor
  · rintro ⟨hnames, hquiet⟩
    obtain ⟨d, rest, hstatements, hd, hrest⟩ := List.map_eq_cons_iff.1 hnames
    obtain ⟨x, rest, rfl, hx, hrest⟩ := List.map_eq_cons_iff.1 hrest
    obtain rfl := List.map_eq_nil_iff.1 hrest
    exact ⟨d, x, hstatements, hd, hx, hquiet⟩
  · rintro ⟨d, x, hstatements, hd, hx, hquiet⟩
    exact ⟨by simp [hstatements, hd, hx], hquiet⟩

/-- A definition goes unreported if the methods cannot be put into a set, if it covers no byte, or
if its method opens a group. -/
theorem visit_redefinitions_silent :
    Silent (couple "context\x7blet(:a)\x7b\x7dlet(:a)\x7b\x7d\x7d" 27 (definition 8 3)
        (definition 17 3)) [.str "let", .list []] "a" ∧
      Silent (couple "context\x7b\x7d" 9 hollowDefinition hollowDefinition) [.str ""] "" ∧
      Silent (couple "context\x7bcontext(:a)\x7b\x7dcontext(:a)\x7b\x7d\x7d" 35
        (definition 8 7) (definition 21 7)) [.str "context"] "a" := by
  decide +kernel

end RubyLint.Redefinition
