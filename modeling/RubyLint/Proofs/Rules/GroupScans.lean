import RubyLint.Proofs.Dispatch.Trace
import RubyLint.Proofs.Rules.Redefinition

/-!
# Scans of groups

Whether a group is left to a scan around it is decided on the way up from the group, and the scan
around it comes to the group on the way down.  Both agree, so no group is scanned twice, and none is
missed unless the visit that leads to it fails.  The scans are told by a log beside the outcome,
which leaves the outcome as it is.
-/

namespace RubyLint.Redefinition

open Cursor

variable {μ : Type} {s : Source} {naming : Naming} {methods : List Value}
variable {c g x top : Cursor}

/-! ## The log -/

/-- The scan of a group, and the group from whose scan it was begun; none if it was begun by the
visit of the group itself. -/
structure Scan where
  group : Cursor
  within : Option Cursor

abbrev Logged (μ : Type) := Outcome μ × List Scan

namespace Logged

/-- The log of one part of a call and then, unless it failed, of the next. -/
def andThen (first : Logged μ) (next : μ → Logged μ) : Logged μ :=
  (first.1.andThen fun memory => (next memory).1,
    first.2 ++ if first.1.fault.isSome then [] else (next first.1.memory).2)

def begun (scan : Scan) (logged : Logged μ) : Logged μ :=
  (logged.1, scan :: logged.2)

end Logged

def scanLogged [Machine] (ctx : Context μ) (naming : Naming) (methods : List Value) :
    Nat → Cursor → μ → Definitions → List Cursor → Logged μ
  | 0, _, memory, _, _ => (.quiet memory, [])
  | _ + 1, _, memory, _, [] => (.quiet memory, [])
  | depth + 1, group, memory, definitions, statement :: rest =>
    if !Ruby.isCall statement then
      scanLogged ctx naming methods depth group memory definitions rest
    else if Ruby.isExampleGroup ctx.document.toSource statement then
      (Logged.begun ⟨statement, some group⟩ (scanLogged ctx naming methods depth statement memory
        definitions (Ruby.blockStatements statement))).andThen
        fun memory => scanLogged ctx naming methods depth group memory definitions rest
    else
      let checked := checkStatement ctx naming methods memory definitions statement
      Logged.andThen (checked.1, []) fun memory =>
        scanLogged ctx naming methods depth group memory checked.2 rest

def visitLogged [Machine] (naming : Naming) (ctx : Context μ) (c : Cursor) : Logged μ :=
  if Outermost ctx.document.toSource c then
    match (ctx.option "Methods" .null).members with
    | .error fault => (.fail ctx.memory (.value fault), [])
    | .ok methods => .begun ⟨c, none⟩ (scanLogged ctx naming methods (c.node.size + 1) c ctx.memory
        [] (Ruby.blockStatements c))
  else (.quiet ctx.memory, [])

variable {ctx : Context μ}

theorem scanLogged_fst [Machine] (depth : Nat) (group : Cursor) (memory : μ)
    (definitions : Definitions) (statements : List Cursor) :
    (scanLogged ctx naming methods depth group memory definitions statements).1 =
      scan ctx naming methods depth memory definitions statements := by
  induction depth generalizing group memory definitions statements with
  | zero => rfl
  | succ depth ih =>
      cases statements with
      | nil => rfl
      | cons statement rest =>
          rw [scanLogged, scan]
          split
          · exact ih ..
          split
          · simp only [Logged.andThen, Logged.begun, ih]
          · simp only [Logged.andThen, ih]

/-- Keeping a log changes nothing about a visit. -/
theorem visitLogged_fst [Machine] (naming : Naming) (ctx : Context μ) (c : Cursor) :
    (visitLogged naming ctx c).1 = visit naming ctx c := by
  rw [visit_eq, visitLogged]
  split
  next =>
    cases (ctx.option "Methods" .null).members with
    | error fault => rfl
    | ok methods => exact scanLogged_fst ..
  next => rfl

/-! ## What a scan comes to -/

/-- A group that is reached from another one through groups, each a statement of the one before. -/
inductive Reaches (s : Source) (c : Cursor) : Cursor → Prop where
  | refl (hgroup : Ruby.isExampleGroup s c = true) : Reaches s c c
  | step {g x : Cursor} (hreaches : Reaches s c g) (hx : x ∈ Ruby.blockStatements g)
      (hgroup : Ruby.isExampleGroup s x = true) : Reaches s c x

theorem isCall_of_group (hgroup : Ruby.isExampleGroup s x = true) : Ruby.isCall x = true := by
  simp only [Ruby.isExampleGroup, Bool.and_eq_true] at hgroup
  exact hgroup.1.1.1

theorem Reaches.group (hreaches : Reaches s c g) : Ruby.isExampleGroup s g = true := by
  cases hreaches with
  | refl hgroup => exact hgroup
  | step _ _ hgroup => exact hgroup

theorem below_of_reaches (hreaches : Reaches s c g) : Below c g := by
  induction hreaches with
  | refl => exact .refl
  | step _ hx _ ih => exact ih.trans (Ruby.below_of_mem_blockStatements hx)

theorem Reaches.enclosing (hreaches : Reaches s c g) (hx : x ∈ Ruby.blockStatements g) :
    Ruby.enclosingCall? x = some g :=
  Ruby.enclosingCall?_of_mem (isCall_of_group hreaches.group) hx

/-- The group that is found above an outermost one is none. -/
theorem Outermost.not_statement {c' : Cursor} (houter : Outermost s c) (hreaches : Reaches s c' g) :
    c ∉ Ruby.blockStatements g := by
  intro hc
  have hgroup := houter.outer g (hreaches.enclosing hc)
  simp [hreaches.group] at hgroup

/-- A group is reached from one outermost group at most. -/
theorem Outermost.unique {c' : Cursor} (houter : Outermost s c) (houter' : Outermost s c')
    (hreaches : Reaches s c g) (hreaches' : Reaches s c' g) : c = c' := by
  induction hreaches with
  | refl =>
      cases hreaches' with
      | refl => rfl
      | step hreaches' hx => exact absurd hx (houter.not_statement hreaches')
  | step hreaches hx _ ih =>
      cases hreaches' with
      | refl => exact absurd hx (houter'.not_statement hreaches)
      | step hreaches' hx' =>
          have henclosing := (hreaches.enclosing hx).symm.trans (hreaches'.enclosing hx')
          obtain rfl := Option.some.inj henclosing
          exact ih hreaches'

/-- In a tree whose blocks are where they belong every group is reached from an outermost one. -/
theorem exists_outermost (hblocks : Ruby.Blocks top) (hroot : top.parent? = none)
    (hg : Below top g) (hgroup : Ruby.isExampleGroup s g = true) :
    ∃ c, Below top c ∧ Outermost s c ∧ Reaches s c g := by
  induction hsize : top.node.size - g.node.size using Nat.strongRecOn generalizing g with
  | ind size ih =>
      by_cases houter : Outermost s g
      · exact ⟨g, hg, houter, .refl hgroup⟩
      have howner : ∃ owner ∈ Ruby.enclosingCall? g, Ruby.isExampleGroup s owner = true := by
        simpa [outermost_iff, hgroup] using houter
      obtain ⟨owner, hencloses, hownergroup⟩ := howner
      obtain ⟨-, hbelow, hstatement⟩ :=
        hblocks.mem_of_enclosingCall? hroot hg (isCall_of_group hgroup) hencloses
      have hlt := Ruby.size_lt_of_statement hstatement
      have hle := hbelow.size_le
      obtain ⟨c, hc, houter, hreaches⟩ := ih _ (by omega) hbelow hownergroup rfl
      exact ⟨c, hc, houter, .step hreaches hstatement hgroup⟩

/-! ## What is logged -/

theorem Logged.mem_andThen {first : Logged μ} {next : μ → Logged μ} {scan : Scan}
    (hscan : scan ∈ (first.andThen next).2) : scan ∈ first.2 ∨ scan ∈ (next first.1.memory).2 := by
  rcases List.mem_append.1 hscan with hscan | hscan
  · exact .inl hscan
  · split at hscan
    · simp at hscan
    · exact .inr hscan

theorem Logged.andThen_of_ok {first : Logged μ} {next : μ → Logged μ}
    (hok : (first.andThen next).1.fault = none) :
    first.1.fault = none ∧ (next first.1.memory).1.fault = none ∧
      (first.andThen next).2 = first.2 ++ (next first.1.memory).2 := by
  obtain ⟨⟨offenses, memory, fault⟩, log⟩ := first
  cases fault with
  | some fault => nomatch hok
  | none => exact ⟨rfl, hok, by simp [Logged.andThen]⟩

/-- What the scan of a group logs are groups that the group reaches, each with the one whose
statement it is. -/
theorem scanLogged_sound [Machine] (depth : Nat) (group : Cursor) (memory : μ)
    (definitions : Definitions) (statements : List Cursor)
    (hreaches : Reaches ctx.document.toSource c group)
    (hstatements : statements ⊆ Ruby.blockStatements group) :
    ∀ scan ∈ (scanLogged ctx naming methods depth group memory definitions statements).2,
      ∃ owner, scan.within = some owner ∧ Reaches ctx.document.toSource c owner ∧
        scan.group ∈ Ruby.blockStatements owner ∧
        Ruby.isExampleGroup ctx.document.toSource scan.group = true := by
  induction depth generalizing group memory definitions statements with
  | zero => simp [scanLogged]
  | succ depth ih =>
      cases statements with
      | nil => simp [scanLogged]
      | cons statement rest =>
          obtain ⟨hstatement, hrest⟩ := List.cons_subset.1 hstatements
          intro scan hscan
          rw [scanLogged] at hscan
          split at hscan
          · exact ih group _ _ _ hreaches hrest scan hscan
          split at hscan
          next hgroup =>
            rcases Logged.mem_andThen hscan with hscan | hscan
            · rcases List.mem_cons.1 hscan with rfl | hscan
              · exact ⟨group, rfl, hreaches, hstatement, hgroup⟩
              · exact ih statement _ _ _ (.step hreaches hstatement hgroup)
                  (List.Subset.refl _) scan hscan
            · exact ih group _ _ _ hreaches hrest scan hscan
          · rcases Logged.mem_andThen hscan with hscan | hscan
            · simp at hscan
            · exact ih group _ _ _ hreaches hrest scan hscan

/-- The log goes through places in pre-order. -/
theorem scanLogged_sublist [Machine] (depth : Nat) (group : Cursor) (memory : μ)
    (definitions : Definitions) (statements : List Cursor) :
    ((scanLogged ctx naming methods depth group memory definitions statements).2.map
      Scan.group).Sublist (statements.flatMap preorder) := by
  induction depth generalizing group memory definitions statements with
  | zero => exact List.nil_sublist _
  | succ depth ih =>
      cases statements with
      | nil => exact List.nil_sublist _
      | cons statement rest =>
          have hlater : ∀ (first : Logged μ) (definitions : Definitions),
              ((first.andThen fun memory => scanLogged ctx naming methods depth group memory
                definitions rest).2.map Scan.group).Sublist
                (first.2.map Scan.group ++ rest.flatMap preorder) := by
            intro first definitions
            rw [Logged.andThen, List.map_append]
            refine List.Sublist.append_left ?_ _
            split
            · exact List.nil_sublist _
            · exact ih ..
          rw [scanLogged, List.flatMap_cons]
          split
          · exact (ih ..).trans (List.sublist_append_right _ _)
          split
          · refine (hlater _ _).trans (List.Sublist.append_right ?_ _)
            rw [Logged.begun, List.map_cons, preorder_eq]
            exact ((ih ..).trans (Ruby.blockStatements_sublist statement)).cons_cons statement
          · exact (hlater _ _).trans (List.sublist_append_right _ _)

/-- A log of scans that leaves out no group among the statements of a group that was scanned. -/
def Closed (s : Source) (log : List Scan) : Prop :=
  ∀ scan ∈ log, ∀ x ∈ Ruby.blockStatements scan.group, Ruby.isExampleGroup s x = true →
    x ∈ log.map Scan.group

theorem Closed.append {log more : List Scan} (hlog : Closed s log) (hmore : Closed s more) :
    Closed s (log ++ more) := by
  intro scan hscan x hx hgroup
  rw [List.map_append]
  rcases List.mem_append.1 hscan with hscan | hscan
  · exact List.mem_append_left _ (hlog scan hscan x hx hgroup)
  · exact List.mem_append_right _ (hmore scan hscan x hx hgroup)

theorem Closed.begun {log : List Scan} {scan : Scan} (hlog : Closed s log)
    (hscan : ∀ x ∈ Ruby.blockStatements scan.group, Ruby.isExampleGroup s x = true →
      x ∈ log.map Scan.group) : Closed s (scan :: log) := by
  intro other hother x hx hgroup
  rcases List.mem_cons.1 hother with rfl | hother
  · exact List.mem_cons_of_mem _ (hscan x hx hgroup)
  · exact List.mem_cons_of_mem _ (hlog other hother x hx hgroup)

/-- The scan of a group that does not fail comes to every group among its statements, and so do the
scans of these. -/
theorem scanLogged_complete [Machine] (depth : Nat) (group : Cursor) (memory : μ)
    (definitions : Definitions) (statements : List Cursor) (hdepth : workload statements < depth)
    (hok : (scanLogged ctx naming methods depth group memory definitions statements).1.fault =
      none) :
    (∀ x ∈ statements, Ruby.isExampleGroup ctx.document.toSource x = true →
      x ∈ (scanLogged ctx naming methods depth group memory definitions statements).2.map
        Scan.group) ∧
      Closed ctx.document.toSource
        (scanLogged ctx naming methods depth group memory definitions statements).2 := by
  induction depth generalizing group memory definitions statements with
  | zero => omega
  | succ depth ih =>
      cases statements with
      | nil => simp [scanLogged, Closed]
      | cons statement rest =>
          have hsize := Node.size_eq statement.node
          have hinner := Ruby.workload_blockStatements statement
          rw [Ruby.workload_cons] at hdepth
          rw [scanLogged] at hok ⊢
          split at hok
          next hcall =>
            obtain ⟨hall, hclosed⟩ := ih group _ _ rest (by omega) hok
            rw [if_pos hcall]
            refine ⟨List.forall_mem_cons.2 ⟨fun hgroup => ?_, hall⟩, hclosed⟩
            simp [isCall_of_group hgroup] at hcall
          next hcall =>
          rw [if_neg hcall]
          split at hok
          next hgroup =>
            rw [if_pos hgroup]
            obtain ⟨hfirst, hnext, hlog⟩ := Logged.andThen_of_ok hok
            obtain ⟨hstatements, hclosed⟩ := ih statement _ _ (Ruby.blockStatements statement)
              (by omega) hfirst
            obtain ⟨hall, hclosed'⟩ := ih group _ _ rest (by omega) hnext
            rw [hlog, List.map_append]
            refine ⟨List.forall_mem_cons.2 ⟨fun _ => ?_, fun x hx hxgroup => ?_⟩, ?_⟩
            · exact List.mem_append_left _ List.mem_cons_self
            · exact List.mem_append_right _ (hall x hx hxgroup)
            · exact (hclosed.begun hstatements).append hclosed'
          next hgroup =>
            rw [if_neg hgroup]
            generalize checkStatement ctx naming methods memory definitions statement = checked
              at hok ⊢
            obtain ⟨-, hnext, hlog⟩ := Logged.andThen_of_ok hok
            obtain ⟨hall, hclosed⟩ := ih group _ _ rest (by omega) hnext
            rw [hlog, List.nil_append]
            exact ⟨List.forall_mem_cons.2 ⟨fun h => absurd h hgroup, hall⟩, hclosed⟩

/-! ## One visit -/

/-- A visit begins scans if its place is an outermost group.  Each is of a group that is reached
from there, and was begun from the call that this group is a statement of, if that call is a
group. -/
theorem visitLogged_sound [Machine] {scan : Scan} (hscan : scan ∈ (visitLogged naming ctx c).2) :
    Outermost ctx.document.toSource c ∧ Reaches ctx.document.toSource c scan.group ∧
      scan.within =
        (Ruby.enclosingCall? scan.group).filter (Ruby.isExampleGroup ctx.document.toSource) := by
  rw [visitLogged] at hscan
  split at hscan
  next houter =>
    refine ⟨houter, ?_⟩
    cases hmethods : (ctx.option "Methods" .null).members with
    | error fault => simp [hmethods] at hscan
    | ok methods =>
        simp only [hmethods] at hscan
        rcases List.mem_cons.1 hscan with rfl | hscan
        · refine ⟨.refl houter.group, ?_⟩
          rw [eq_comm, Option.filter_eq_none_iff]
          exact fun owner howner => by simp [houter.outer owner howner]
        · obtain ⟨owner, hwithin, howner, hmem, hgroup⟩ :=
            scanLogged_sound _ c _ _ _ (.refl houter.group) (List.Subset.refl _) scan hscan
          refine ⟨.step howner hmem hgroup, ?_⟩
          rw [hwithin, howner.enclosing hmem, Option.filter_some, if_pos howner.group]
  next => simp at hscan

theorem visitLogged_sublist [Machine] (naming : Naming) (ctx : Context μ) (c : Cursor) :
    ((visitLogged naming ctx c).2.map Scan.group).Sublist c.preorder := by
  rw [visitLogged]
  split
  · cases (ctx.option "Methods" .null).members with
    | error fault => exact List.nil_sublist _
    | ok methods =>
        rw [preorder_eq]
        exact ((scanLogged_sublist ..).trans (Ruby.blockStatements_sublist c)).cons_cons c
  · exact List.nil_sublist _

/-- A visit of an outermost group that does not fail scans every group that is reached from
there. -/
theorem visitLogged_complete [Machine] (houter : Outermost ctx.document.toSource c)
    (hok : (visitLogged naming ctx c).1.fault = none)
    (hreaches : Reaches ctx.document.toSource c g) :
    g ∈ (visitLogged naming ctx c).2.map Scan.group := by
  rw [visitLogged, if_pos houter] at hok ⊢
  cases hmethods : (ctx.option "Methods" .null).members with
  | error fault =>
      rw [hmethods] at hok
      nomatch hok
  | ok methods =>
      rw [hmethods] at hok
      obtain ⟨hstatements, hclosed⟩ := scanLogged_complete _ c ctx.memory [] _
        (Nat.lt_succ_of_lt (Ruby.workload_blockStatements c)) hok
      have hclosed : Closed ctx.document.toSource (⟨c, none⟩ :: _) := hclosed.begun hstatements
      induction hreaches with
      | refl => exact List.mem_cons_self
      | step _ hx hgroup ih =>
          obtain ⟨scan, hscan, rfl⟩ := List.mem_map.1 ih
          exact hclosed scan hscan _ hx hgroup

theorem checkStatement_memory [Machine] (memory : μ) (definitions : Definitions)
    (statement : Cursor) :
    (checkStatement ctx naming methods memory definitions statement).1.memory = memory := by
  rw [checkStatement]
  cases naming ctx.document.toSource methods statement with
  | error fault => rfl
  | ok name =>
      cases name with
      | none => rfl
      | some name =>
          dsimp only
          split
          · rfl
          · exact Outcome.withValue_memory fun text => Outcome.report_memory _ _

theorem scan_memory [Machine] (depth : Nat) (memory : μ) (definitions : Definitions)
    (statements : List Cursor) :
    (scan ctx naming methods depth memory definitions statements).memory = memory := by
  induction depth generalizing memory definitions statements with
  | zero => rfl
  | succ depth ih =>
      cases statements with
      | nil => rfl
      | cons statement rest =>
          rw [scan]
          split
          · exact ih ..
          split
          · exact Outcome.andThen_memory (ih ..) (ih ..)
          · exact Outcome.andThen_memory (checkStatement_memory ..) (ih ..)

/-- A rule on redefinitions remembers nothing from a visit. -/
theorem visit_memory [Machine] (naming : Naming) (ctx : Context μ) (c : Cursor) :
    (visit naming ctx c).memory = ctx.memory := by
  rw [visit_eq]
  split
  · exact Outcome.withValue_memory fun methods => scan_memory ..
  · rfl

/-! ## A whole run -/

section

open Dispatcher

def callsOf (participants : List Participant) (document : Document) (p : Participant) : List Call :=
  (calls participants document).filter (·.participant.id == p.id)

def scansOf [Machine] (naming : Naming) (p : Participant) (calls : List Call) : List Scan :=
  calls.flatMap fun k => (visitLogged naming p.2 k.place).2

variable [Machine] {d : Dispatcher} {document : Document} {participants : List Participant}
variable {p : Participant} {what : String}
variable (hvariant : (what, naming, p.1) ∈ variants Memory) (h : d.Takes document participants)
variable (hp : p ∈ participants) (hids : (participants.map (·.id)).Nodup)

include hvariant hp hids in
theorem map_place_callsOf :
    (callsOf participants document p).map (·.place) = document.top.nodes.filter Ruby.isCall := by
  have hkinds := (of_variant hvariant).2.1
  rw [callsOf, map_place_calls hp hids (hkinds ▸ List.nodup_singleton "call"), hkinds]
  refine List.filter_congr fun c _ => ?_
  rw [List.contains_cons, List.contains_nil, Bool.or_false, Ruby.isCall]

include hvariant hp hids in
theorem mem_place_callsOf : c ∈ (callsOf participants document p).map (·.place) ↔
    Below document.top c ∧ Ruby.isCall c = true := by
  rw [map_place_callsOf hvariant hp hids, List.mem_filter, mem_nodes_iff]

include hvariant h hp hids in
theorem outcome_of_mem_callsOf {k : Call} (hk : k ∈ callsOf participants document p) :
    k.outcome = (visitLogged naming p.2 k.place).1 := by
  obtain ⟨hmem, hid⟩ := List.mem_filter.1 hk
  have hvisit := (of_variant hvariant).1
  rw [visitLogged_fst, ← hvisit]
  exact h.outcome_eq hp hids (fun ctx c => hvisit ▸ visit_memory naming ctx c) hmem
    (beq_iff_eq.1 hid)

include hvariant hp hids in
theorem nodup_scansOf :
    ((scansOf naming p (callsOf participants document p)).map Scan.group).Nodup := by
  have hplaces : (callsOf participants document p).Pairwise fun k k' => k.place ≠ k'.place := by
    rw [← List.pairwise_map, ← List.nodup_iff_pairwise_ne, map_place_callsOf hvariant hp hids]
    exact document.top.nodup_nodes.filter _
  rw [scansOf, List.map_flatMap, List.nodup_flatMap]
  constructor
  · exact fun k _ => k.place.nodup_preorder.sublist (visitLogged_sublist naming p.2 k.place)
  · refine hplaces.imp fun {k k'} hne g hg hg' => ?_
    obtain ⟨scan, hscan, rfl⟩ := List.mem_map.1 hg
    obtain ⟨scan', hscan', heq⟩ := List.mem_map.1 hg'
    obtain ⟨houter, hreaches, -⟩ := visitLogged_sound hscan
    obtain ⟨houter', hreaches', -⟩ := visitLogged_sound hscan'
    exact hne (houter.unique houter' hreaches (heq ▸ hreaches'))

include hvariant h hp hids in
theorem of_mem_scansOf {scan : Scan}
    (hscan : scan ∈ scansOf naming p (callsOf participants document p)) :
    scan.group ∈ document.top.nodes ∧
      Ruby.isExampleGroup document.toSource scan.group = true ∧
      scan.within =
        (Ruby.enclosingCall? scan.group).filter (Ruby.isExampleGroup document.toSource) := by
  obtain ⟨k, hk, hscan⟩ := List.mem_flatMap.1 hscan
  obtain ⟨-, hreaches, hwithin⟩ := visitLogged_sound hscan
  rw [(h.starts hp).1] at hreaches hwithin
  have hplace := (mem_place_callsOf hvariant hp hids).1 (List.mem_map_of_mem hk)
  exact ⟨mem_nodes_iff.2 (hplace.1.trans (below_of_reaches hreaches)), hreaches.group, hwithin⟩

include hvariant h hp hids in
/-- Every group is reached from a call that scans it unless it fails. -/
theorem exists_call_of_group (hblocks : Ruby.Blocks document.top) (hg : Below document.top g)
    (hgroup : Ruby.isExampleGroup document.toSource g = true) :
    ∃ k ∈ callsOf participants document p, Outermost document.toSource k.place ∧
      Reaches document.toSource k.place g ∧ (k.outcome.fault = none →
        g ∈ (scansOf naming p (callsOf participants document p)).map Scan.group) := by
  obtain ⟨c, hc, houter, hreaches⟩ := exists_outermost hblocks rfl hg hgroup
  obtain ⟨k, hk, rfl⟩ := List.mem_map.1
    ((mem_place_callsOf hvariant hp hids).2 ⟨hc, isCall_of_group houter.group⟩)
  refine ⟨k, hk, houter, hreaches, fun hok => ?_⟩
  rw [outcome_of_mem_callsOf hvariant h hp hids hk] at hok
  rw [← (h.starts hp).1] at houter hreaches
  obtain ⟨scan, hscan, rfl⟩ := List.mem_map.1 (visitLogged_complete houter hok hreaches)
  exact List.mem_map_of_mem (List.mem_flatMap.2 ⟨k, hk, hscan⟩)

include hvariant h hp in
/-- No visit fails if the methods can be put into a set and every call covers a byte. -/
theorem visit_harmless_of_solid (hmethods : (p.2.option "Methods" .null).members = .ok methods)
    (hsolid : ∀ x ∈ document.top.nodes, Ruby.isCall x = true → x.node.start < x.node.stop)
    (hc : Below document.top c) : (visit naming p.2 c).Harmless := by
  have hinfo := (h.starts hp).2.1
  refine visit_harmless (names_of_variant hvariant).total (fun name lines => ?_)
    (by rw [hinfo, (of_variant hvariant).2.2]) (fun x hx => hsolid x (mem_nodes_iff.2 hx))
    hmethods hc
  exact ⟨_, message_of_variant hvariant hinfo name lines, messageText_ne_empty what name lines⟩

/-- A run scans no group twice.  Each scan is of a group of the document and was begun by the visit
of the group itself, if the call that the group is a statement of is no group, and from that call
otherwise.  Every group is reached from an outermost one that is visited; it is scanned if that
visit does not fail, and no visit fails if the methods can be put into a set and every call covers a
byte.  For this, a call is among the statements of another one just if that is the call found above
it. -/
theorem calls_scans (hvariant : (what, naming, p.1) ∈ variants Memory)
    (h : d.Takes document participants) (hp : p ∈ participants)
    (hids : (participants.map (·.id)).Nodup) (hblocks : Ruby.Blocks document.top) :
    let s := document.toSource
    let places := document.top.nodes
    let visits := callsOf participants document p
    let scans := scansOf naming p visits
    visits.map (·.place) = places.filter Ruby.isCall ∧
      (∀ k ∈ visits, k.outcome = (visitLogged naming p.2 k.place).1) ∧
      (scans.map Scan.group).Nodup ∧
      (∀ scan ∈ scans, scan.group ∈ places ∧ Ruby.isExampleGroup s scan.group = true ∧
        scan.within = (Ruby.enclosingCall? scan.group).filter (Ruby.isExampleGroup s)) ∧
      (∀ g ∈ places, Ruby.isExampleGroup s g = true →
        ∃ k ∈ visits, Outermost s k.place ∧ Reaches s k.place g ∧
          (k.outcome.fault = none → g ∈ scans.map Scan.group)) ∧
      ((∃ methods, (p.2.option "Methods" .null).members = .ok methods) →
        (∀ x ∈ places, Ruby.isCall x = true → x.node.start < x.node.stop) →
          ∀ k ∈ visits, k.outcome.fault = none) ∧
      ∀ x ∈ places, ∀ c, Ruby.isCall x = true → Ruby.isCall c = true →
        (x ∈ Ruby.blockStatements c ↔ Ruby.enclosingCall? x = some c) := by
  refine ⟨map_place_callsOf hvariant hp hids,
    fun k hk => outcome_of_mem_callsOf hvariant h hp hids hk, nodup_scansOf hvariant hp hids,
    fun scan hscan => of_mem_scansOf hvariant h hp hids hscan, ?_, ?_, ?_⟩
  · intro g hg hgroup
    exact exists_call_of_group hvariant h hp hids hblocks (mem_nodes_iff.1 hg) hgroup
  · rintro ⟨methods, hmethods⟩ hsolid k hk
    have hplace := (mem_place_callsOf hvariant hp hids).1 (List.mem_map_of_mem hk)
    rw [outcome_of_mem_callsOf hvariant h hp hids hk, visitLogged_fst]
    exact (visit_harmless_of_solid hvariant h hp hmethods hsolid hplace.1).fault
  · intro x hx c hcall hc
    constructor
    · exact Ruby.enclosingCall?_of_mem hc
    · intro henclosing
      exact (hblocks.mem_of_enclosingCall? rfl (mem_nodes_iff.1 hx) hcall henclosing).2.2

end

section

open Dispatcher

/-- Of the two groups the outer one is scanned from its own visit, the inner one from there. -/
theorem calls_scans_nested :
    let p : Participant := (letRule, .start nested letInfo [] none {})
    let scans := scansOf letName p (callsOf [p] nested p)
    scans.map (fun scan => (scan.group.path, scan.within.map path)) =
        [([], none), ([1, 1], some [])] ∧
      (scans.map Scan.group).Nodup ∧
      ∀ g ∈ nested.top.nodes, Ruby.isExampleGroup nested.toSource g = true →
        g ∈ scans.map Scan.group := by
  intro p scans
  have hscans : scans.map (fun scan => (scan.group.path, scan.within.map path)) =
      [([], none), ([1, 1], some [])] := by decide +kernel
  have hvariant : ("Let", letName, p.1) ∈ variants Memory := List.mem_cons_self
  have htakes : Takes ⟨.ofEntries [⟨letRule, none⟩], none, none⟩ nested [p] :=
    ⟨rfl, fun q hq => ⟨[], by obtain rfl := List.mem_singleton.1 hq; rfl⟩⟩
  have hblocks : Ruby.Blocks nested.top := by decide +kernel
  have hsolid : ∀ x ∈ nested.top.nodes, Ruby.isCall x = true → x.node.start < x.node.stop := by
    decide +kernel
  obtain ⟨-, -, hnodup, -, hreached, hquiet, -⟩ := calls_scans hvariant htakes
    (List.mem_singleton.2 rfl) (List.nodup_singleton _) hblocks
  refine ⟨hscans, hnodup, fun g hg hgroup => ?_⟩
  obtain ⟨k, hk, -, -, hscanned⟩ := hreached g hg hgroup
  exact hscanned (hquiet ⟨_, members_letInfo nested none ({} : Memory)⟩ hsolid k hk)

/-- A group with two hollow statements before a group in which a definition is made twice. -/
def stranded : Document :=
  { Source.ofText "a_spec.rb" "context\x7bcontext\x7blet(:a)\x7b\x7dlet(:a)\x7b\x7d\x7d\x7d" with
    root := contextGroup 0 36 [hollowDefinition, hollowDefinition,
      contextGroup 8 35 [definition 16 3, definition 25 3]]
    faults := [] }

/-- Some group of a document is not scanned in a run of the rule on `let` with the given methods,
although the blocks of the document are where they belong. -/
def Misses (document : Document) (methods : List Value) : Prop :=
  let p : Participant :=
    (letRule, .start document letInfo [(.str "Methods", .list methods)] none {})
  Ruby.Blocks document.top ∧
    ∃ g ∈ document.top.nodes, Ruby.isExampleGroup document.toSource g = true ∧
      ∀ scan ∈ scansOf letName p (callsOf [p] document p), scan.group.samePlace g = false

instance (document : Document) (methods : List Value) : Decidable (Misses document methods) :=
  inferInstanceAs (Decidable (_ ∧ _))

/-- A group is missed if the methods cannot be put into a set, or if a redefinition before it covers
no byte. -/
theorem calls_scans_missed :
    Misses nested [.str "let", .list []] ∧ Misses stranded [.str "", .str "let"] := by
  decide +kernel

end

end RubyLint.Redefinition
