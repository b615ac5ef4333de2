import Mathlib.Data.List.Basic
import Mathlib.Logic.Function.Basic
import RubyLint.Dispatch
import RubyLint.Proofs.Lookup
import RubyLint.Proofs.Steps
import RubyLint.Proofs.Tree.Preorder

/-!
# The calls of an investigation

An investigation is the list of its calls: which rule was called at which place, and what came of
it.  The calls follow the walk over the document, at each place in the order of registration, and a
rule finds in its memory exactly what its own last call left there.  Offenses and failures of the
investigation are those of its calls, in that order.
-/

namespace RubyLint.Dispatcher

/-- A rule and the context in which it starts on a document. -/
abbrev Participant := Rule Memory × Context Memory

def Participant.id (p : Participant) : String :=
  p.1.info.id

/-- The outcome of calling a participant at a place, given what it remembers. -/
def Participant.call (p : Participant) (memory : Memory) (c : Cursor) : Outcome Memory :=
  p.1.visit { p.2 with memory } c

/-- A call of a rule at a place, and what came of it. -/
structure Call where
  participant : Participant
  place : Cursor
  outcome : Outcome Memory

def Call.failure? (document : Document) (k : Call) : Option Failure :=
  k.outcome.fault.map fun fault =>
    ⟨k.participant.id, document.path, k.place.node.start,
      (document.lines.position k.place.node.start).1,
      (document.lines.position k.place.node.start).2, fault.summary⟩

/-- The calls due at some places: at each the participants in order, as often as they name the
kind of the node. -/
def schedule (participants : List Participant) (places : List Cursor) :
    List (Participant × Cursor) :=
  places.flatMap fun c => participants.flatMap fun p =>
    List.replicate (p.1.info.kinds.count c.node.kind) (p, c)

def trace (memory : String → Memory) : List (Participant × Cursor) → List Call
  | [] => []
  | (p, c) :: rest =>
    let outcome := p.call (memory p.id) c
    ⟨p, c, outcome⟩ :: trace (Function.update memory p.id outcome.memory) rest

def contexts (participants : List Participant) (memory : String → Memory) :
    List (String × Context Memory) :=
  participants.map fun p => (p.id, { p.2 with memory := memory p.id })

variable {d : Dispatcher} {document : Document} {participants : List Participant}
  {memory : String → Memory}
variable {p : Participant} {c : Cursor} {s : Session}

theorem lookup_contexts (hp : p ∈ participants) (hids : (participants.map (·.id)).Nodup)
    (memory : String → Memory) :
    (contexts participants memory).lookup p.id = some { p.2 with memory := memory p.id } := by
  induction participants with
  | nil => simp at hp
  | cons q rest ih =>
      rw [List.map_cons, List.nodup_cons] at hids
      rcases List.mem_cons.1 hp with rfl | hp
      · simp [contexts]
      · have hne : (p.id == q.id) = false := by
          rw [beq_eq_false_iff_ne]
          intro heq
          exact hids.1 (heq ▸ List.mem_map_of_mem hp)
        rw [contexts, List.map_cons, List.lookup_cons, hne]
        exact ih hp hids.2

theorem remember_contexts (h : s.contexts = contexts participants memory) (id : String)
    (left : Memory) :
    (s.remember id left).contexts = contexts participants (Function.update memory id left) := by
  simp only [Session.remember, h, contexts, List.map_map]
  refine List.map_congr_left fun p _ => ?_
  by_cases heq : p.id = id
  · simp [heq]
  · simp [heq]

/-- One call of the session is one call of the trace. -/
theorem call_spec (document : Document) (c : Cursor) (hp : p ∈ participants)
    (hids : (participants.map (·.id)).Nodup)
    (h : s.contexts = contexts participants memory) :
    (s.call document p.id c.node fun ctx => p.1.visit ctx c).contexts =
        contexts participants (Function.update memory p.id (p.call (memory p.id) c).memory) ∧
      (s.call document p.id c.node fun ctx => p.1.visit ctx c).offenses =
        s.offenses ++ (p.call (memory p.id) c).offenses ∧
      (s.call document p.id c.node fun ctx => p.1.visit ctx c).failures =
        s.failures ++ (Call.failure? document ⟨p, c, p.call (memory p.id) c⟩).toList := by
  have hlookup := lookup_contexts hp hids memory
  rw [← h] at hlookup
  rw [Session.call, hlookup]
  have hcall : p.1.visit { p.2 with memory := memory p.id } c = p.call (memory p.id) c := rfl
  dsimp only
  rw [hcall]
  generalize p.call (memory p.id) c = outcome
  have hcontexts := remember_contexts h p.id outcome.memory
  cases hfault : outcome.fault with
  | none => exact ⟨hcontexts, rfl, by simp [Session.remember, Call.failure?, hfault]⟩
  | some fault =>
      refine ⟨hcontexts, rfl, ?_⟩
      simp [Session.fail, Session.remember, Call.failure?, hfault]

/-- A session that makes the calls due goes through the trace. -/
theorem foldl_call_spec (document : Document) (due : List (Participant × Cursor))
    (hdue : ∀ k ∈ due, k.1 ∈ participants)
    (hids : (participants.map (·.id)).Nodup) (h : s.contexts = contexts participants memory) :
    let next := due.foldl
      (fun s k => s.call document k.1.id k.2.node fun ctx => k.1.1.visit ctx k.2) s
    next.offenses = s.offenses ++ (trace memory due).flatMap (·.outcome.offenses) ∧
      next.failures = s.failures ++ (trace memory due).filterMap (Call.failure? document) := by
  induction due generalizing s memory with
  | nil => simp [trace]
  | cons k rest ih =>
      obtain ⟨hcontexts, hoffenses, hfailures⟩ :=
        call_spec document k.2 (hdue k List.mem_cons_self) hids h
      obtain ⟨hrest, hrest'⟩ := ih (fun k' hk' => hdue k' (List.mem_cons_of_mem k hk')) hcontexts
      refine ⟨?_, ?_⟩
      · rw [List.foldl_cons, hrest, hoffenses, trace]
        simp
      · rw [List.foldl_cons, hrest', hfailures, trace, List.filterMap_cons]
        cases Call.failure? document ⟨k.1, k.2, k.1.call (memory k.1.id) k.2⟩ <;> simp

theorem foldl_visit_eq (places : List Cursor) (s : Session) :
    places.foldl (Session.visit (.ofRules (participants.map (·.1))) document) s =
      (schedule participants places).foldl
        (fun s k => s.call document k.1.id k.2.node fun ctx => k.1.1.visit ctx k.2) s := by
  rw [schedule, List.foldl_flatMap]
  congr 1
  funext s c
  have hlistening : (Listeners.ofRules (participants.map (·.1))).atKind c.node.kind =
      (participants.flatMap fun p =>
        List.replicate (p.1.info.kinds.count c.node.kind) (p, c)).map (·.1.1) := by
    simp [Listeners.atKind_ofRules, List.flatMap_map, List.map_flatMap]
  rw [Session.visit, hlistening, List.foldl_map]
  refine List.foldl_ext _ _ _ fun s k hk => ?_
  obtain ⟨p, -, hk⟩ := List.mem_flatMap.1 hk
  rw [List.eq_of_mem_replicate hk]
  rfl

/-! ## The calls of a whole run -/

/-- The participants of a run: the rules of a dispatcher, each with its context on a document. -/
structure Takes (d : Dispatcher) (document : Document) (participants : List Participant) :
    Prop where
  rules : participants.map (·.1) = d.rules
  contexts : ∀ p ∈ participants, ∃ logs, context d.config document p.1 = .ok (p.2, logs)

def calls (participants : List Participant) (document : Document) : List Call :=
  trace (fun _ => {}) (schedule participants document.top.nodes)

/-- A context is that of its rule at the start of the document. -/
theorem context_eq_ok {μ : Type} [Inhabited μ] {config : Option Config} {rule : Rule μ}
    {ctx : Context μ} {logs : List Log} (h : context config document rule = .ok (ctx, logs)) :
    ∃ options severity, ctx = .start document rule.info options severity default := by
  cases config with
  | none =>
      obtain ⟨rfl, -⟩ := Prod.mk.inj (Except.ok.inj h)
      exact ⟨_, _, rfl⟩
  | some config =>
      obtain ⟨options, -, h⟩ := bind_eq_ok h
      obtain ⟨⟨severity, found⟩, -, h⟩ := bind_eq_ok h
      obtain ⟨rfl, -⟩ := Prod.mk.inj (Except.ok.inj h)
      exact ⟨_, _, rfl⟩

theorem context_memory {μ : Type} [Inhabited μ] {config : Option Config} {rule : Rule μ}
    {ctx : Context μ} {logs : List Log} (h : context config document rule = .ok (ctx, logs)) :
    ctx.memory = default := by
  obtain ⟨options, severity, rfl⟩ := context_eq_ok h
  rfl

theorem context_info {μ : Type} [Inhabited μ] {config : Option Config} {rule : Rule μ}
    {ctx : Context μ} {logs : List Log} (h : context config document rule = .ok (ctx, logs)) :
    ctx.info = rule.info := by
  obtain ⟨options, severity, rfl⟩ := context_eq_ok h
  rfl

/-- The contexts of all rules are found one after the other. -/
theorem mapM_context (config : Option Config) (hcontexts : ∀ p ∈ participants,
    ∃ logs, context config document p.1 = .ok (p.2, logs)) :
    ∃ entries, (participants.map (·.1)).mapM (fun rule => do
        return (rule.info.id, ← context config document rule)) = Except.ok entries ∧
      entries.map (fun entry => (entry.1, entry.2.1)) = contexts participants fun _ => {} := by
  induction participants with
  | nil => exact ⟨[], rfl, rfl⟩
  | cons p rest ih =>
      obtain ⟨logs, hp⟩ := hcontexts p List.mem_cons_self
      obtain ⟨entries, hentries, heq⟩ := ih fun q hq => hcontexts q (List.mem_cons_of_mem p hq)
      refine ⟨(p.1.info.id, p.2, logs) :: entries, ?_, ?_⟩
      · simp only [bind, Except.bind, pure, Except.pure] at hentries
        simp [hp, hentries, bind, Except.bind, pure, Except.pure]
      · have hmemory : p.2.memory = {} := context_memory hp
        rw [List.map_cons, heq, contexts, contexts, List.map_cons]
        simp [Participant.id, ← hmemory]

/-- A run that came to an end had its participants. -/
theorem exists_takes {i : Investigation} (h : d.investigate document = .ok i) :
    ∃ participants, Takes d document participants := by
  obtain ⟨session, hstart, -⟩ := bind_eq_ok h
  obtain ⟨entries, hentries, -⟩ := bind_eq_ok hstart
  replace hentries := mapM_eq_ok hentries
  generalize hrules : d.rules = rules at hentries
  suffices ∃ participants : List Participant, participants.map (·.1) = rules ∧
      ∀ p ∈ participants, ∃ logs, context d.config document p.1 = .ok (p.2, logs) by
    obtain ⟨participants, hmap, hcontexts⟩ := this
    exact ⟨participants, ⟨hmap.trans hrules.symm, hcontexts⟩⟩
  clear hrules
  induction hentries with
  | nil => exact ⟨[], rfl, by simp⟩
  | @cons rule entry rest entries hrule _ ih =>
      obtain ⟨participants, rfl, hcontexts⟩ := ih
      obtain ⟨⟨ctx, logs⟩, hctx, -⟩ := bind_eq_ok hrule
      exact ⟨(rule, ctx) :: participants, rfl, List.forall_mem_cons.2 ⟨⟨logs, hctx⟩, hcontexts⟩⟩

theorem Takes.start (h : Takes d document participants) :
    ∃ logs,
      d.start document = .ok ⟨Dispatcher.contexts participants fun _ => {}, [], [], logs⟩ := by
  obtain ⟨entries, hentries, heq⟩ := mapM_context d.config h.contexts
  rw [h.rules] at hentries
  refine ⟨entries.flatMap fun entry => entry.2.2, ?_⟩
  simp only [bind, Except.bind, pure, Except.pure] at hentries
  simp only [Dispatcher.start, bind, Except.bind, pure, Except.pure, hentries, heq]

theorem foldl_finish {rules : List (Rule Memory)} (hfinish : ∀ rule ∈ rules, rule.finish = none)
    (s : Session) : rules.foldl (Session.finish document) s = s := by
  induction rules generalizing s with
  | nil => rfl
  | cons rule rest ih =>
      have hrule : Session.finish document s rule = s := by
        rw [Session.finish, hfinish rule List.mem_cons_self]
      rw [List.foldl_cons, hrule]
      exact ih (fun r hr => hfinish r (List.mem_cons_of_mem rule hr)) s

theorem mem_schedule {places : List Cursor} {k : Participant × Cursor} :
    k ∈ schedule participants places ↔
      k.2 ∈ places ∧ k.1 ∈ participants ∧ k.2.node.kind ∈ k.1.1.info.kinds := by
  obtain ⟨p, c⟩ := k
  simp only [schedule, List.mem_flatMap, List.mem_replicate, Prod.mk.injEq, ne_eq,
    List.count_eq_zero, not_not]
  constructor
  · rintro ⟨c', hc', p', hp', hkind, rfl, rfl⟩
    exact ⟨hc', hp', hkind⟩
  · rintro ⟨hc, hp, hkind⟩
    exact ⟨c, hc, p, hp, hkind, rfl, rfl⟩

/-- A participant that names each kind once is called at most once at each place. -/
theorem countP_schedule_le (hids : (participants.map (·.id)).Nodup)
    (honce : ∀ p ∈ participants, ∀ kind, p.1.info.kinds.count kind ≤ 1) (id : String)
    (places : List Cursor) :
    (schedule participants places).countP (fun k => k.1.id == id) ≤ places.length := by
  have hplace : ∀ c : Cursor, (participants.flatMap fun p =>
      List.replicate (p.1.info.kinds.count c.node.kind) (p, c)).countP (fun k => k.1.id == id) ≤
        1 := by
    intro c
    induction participants with
    | nil => simp
    | cons p rest ih =>
        rw [List.map_cons, List.nodup_cons] at hids
        have hrest := ih hids.2 fun q hq => honce q (List.mem_cons_of_mem p hq)
        rw [List.flatMap_cons, List.countP_append, List.countP_replicate]
        by_cases heq : p.id = id
        · have hnone : (rest.flatMap fun p =>
              List.replicate (p.1.info.kinds.count c.node.kind) (p, c)).countP
                (fun k => k.1.id == id) = 0 := by
            rw [List.countP_eq_zero]
            intro k hk
            obtain ⟨q, hq, hk⟩ := List.mem_flatMap.1 hk
            obtain rfl := List.eq_of_mem_replicate hk
            rw [beq_iff_eq]
            intro hid
            exact hids.1 (heq.trans hid.symm ▸ List.mem_map_of_mem hq)
          have hp := honce p List.mem_cons_self c.node.kind
          simp only [heq, beq_self_eq_true, if_true]
          omega
        · simp only [beq_iff_eq, heq, if_false]
          omega
  induction places with
  | nil => simp [schedule]
  | cons c rest ih =>
      have hc := hplace c
      rw [schedule, List.flatMap_cons, List.countP_append, ← schedule, List.length_cons]
      omega

theorem map_trace (memory : String → Memory) (due : List (Participant × Cursor)) :
    (trace memory due).map (fun k => (k.participant, k.place)) = due := by
  induction due generalizing memory with
  | nil => rfl
  | cons k rest ih => rw [trace, List.map_cons, ih]

/-- Participants that name each kind once are called once at most at each place of a run. -/
theorem calls_pairwise (hids : (participants.map (·.id)).Nodup)
    (honce : ∀ p ∈ participants, ∀ kind, p.1.info.kinds.count kind ≤ 1) :
    (calls participants document).Pairwise fun k k' =>
      k.participant.id = k'.participant.id → k.place ≠ k'.place := by
  suffices (schedule participants document.top.nodes).Pairwise fun k k' =>
      k.1.id = k'.1.id → k.2 ≠ k'.2 by
    rw [← map_trace (fun _ => {}) (schedule participants document.top.nodes),
      List.pairwise_map] at this
    exact this
  rw [schedule, List.pairwise_flatMap]
  constructor
  · intro c _
    rw [List.pairwise_flatMap]
    constructor
    · intro p hp
      have hcount := honce p hp c.node.kind
      rw [List.pairwise_replicate]
      exact .inl (by omega)
    · rw [List.nodup_iff_pairwise_ne, List.pairwise_map] at hids
      apply hids.imp
      intro p q hne k hk k' hk' hid
      rw [List.eq_of_mem_replicate hk, List.eq_of_mem_replicate hk'] at hid
      exact absurd hid hne
  · apply document.top.nodup_nodes.imp
    intro c c' hne k hk k' hk' _
    obtain ⟨p, -, hk⟩ := List.mem_flatMap.1 hk
    obtain ⟨p', -, hk'⟩ := List.mem_flatMap.1 hk'
    rw [List.eq_of_mem_replicate hk, List.eq_of_mem_replicate hk']
    exact hne

/-- Rules that ask for nothing at the end of a document report and fail by their calls alone. -/
theorem Takes.investigate (h : Takes d document participants)
    (htable : d.table = .ofRules d.rules)
    (hids : (participants.map (·.id)).Nodup) (hfinish : ∀ rule ∈ d.rules, rule.finish = none) :
    ∃ i, d.investigate document = .ok i ∧
      i.offenses = (calls participants document).flatMap (·.outcome.offenses) ∧
      i.failures = (calls participants document).filterMap (Call.failure? document) := by
  obtain ⟨logs, hstart⟩ := h.start
  have hdue : ∀ k ∈ schedule participants document.top.nodes, k.1 ∈ participants :=
    fun k hk => (mem_schedule.1 hk).2.1
  obtain ⟨hoffenses, hfailures⟩ := foldl_call_spec document _ hdue hids
    (show (Session.mk (Dispatcher.contexts participants fun _ => {}) [] [] logs).contexts =
      Dispatcher.contexts participants fun _ => {} from rfl)
  rw [← foldl_visit_eq, h.rules] at hoffenses hfailures
  generalize hwalked :
    document.top.nodes.foldl (Session.visit (.ofRules d.rules) document) _ = walked
    at hoffenses hfailures
  refine ⟨⟨walked.offenses, walked.failures, d.registry.ids.mapIdx fun i id => (id, (i : Int)),
    walked.logs⟩, ?_, ?_, ?_⟩
  · simp only [Dispatcher.investigate, htable, hstart, bind, Except.bind, pure,
      Except.pure, foldl_finish hfinish, hwalked]
  · simpa [calls] using hoffenses
  · simpa [calls] using hfailures

/-! ## What holds of every call -/

theorem failures_eq_nil_iff {calls : List Call} :
    calls.filterMap (Call.failure? document) = [] ↔ ∀ k ∈ calls, k.outcome.fault = none := by
  simp [List.filterMap_eq_nil_iff, Call.failure?]

theorem trace_invariant {Inv : List (Participant × Cursor) → (String → Memory) → Prop}
    {made due : List (Participant × Cursor)} (hinit : Inv made memory)
    (hstep : ∀ before k after, made ++ due = before ++ k :: after → ∀ memory, Inv before memory →
      Inv (before ++ [k]) (Function.update memory k.1.id (k.1.call (memory k.1.id) k.2).memory))
    {k : Call} (hk : k ∈ trace memory due) :
    ∃ before after memory, made ++ due = before ++ (k.participant, k.place) :: after ∧
      Inv before memory ∧ k.outcome = k.participant.call (memory k.participant.id) k.place := by
  induction due generalizing made memory with
  | nil => simp [trace] at hk
  | cons next rest ih =>
      rw [trace] at hk
      rcases List.mem_cons.1 hk with rfl | hk
      · exact ⟨made, rest, memory, rfl, hinit, rfl⟩
      · have hshift : made ++ next :: rest = (made ++ [next]) ++ rest := by simp
        rw [hshift] at hstep ⊢
        exact ih (hstep made next rest (by simp) memory hinit) hstep hk

/-- An invariant of the calls made so far and of the memories they left holds at every call, if
every call due keeps it. -/
theorem calls_invariant (Inv : List (Participant × Cursor) → (String → Memory) → Prop)
    (hinit : Inv [] fun _ => {})
    (hstep : ∀ before k after, schedule participants document.top.nodes = before ++ k :: after →
      ∀ memory, Inv before memory →
        Inv (before ++ [k]) (Function.update memory k.1.id (k.1.call (memory k.1.id) k.2).memory))
    {k : Call} (hk : k ∈ calls participants document) :
    ∃ before after memory,
      schedule participants document.top.nodes = before ++ (k.participant, k.place) :: after ∧
        Inv before memory ∧ k.outcome = k.participant.call (memory k.participant.id) k.place :=
  trace_invariant hinit hstep hk

/-- A participant that was not called before remembers what it did at the start. -/
theorem mem_trace_of_fresh (p : Participant) (c : Cursor) {before : List (Participant × Cursor)}
    (h : ∀ k ∈ before, k.1.id ≠ p.id) (after : List (Participant × Cursor))
    (memory : String → Memory) :
    ⟨p, c, p.call (memory p.id) c⟩ ∈ trace memory (before ++ (p, c) :: after) := by
  induction before generalizing memory with
  | nil => exact List.mem_cons_self
  | cons k rest ih =>
      have hk := h k List.mem_cons_self
      have hmem := ih (fun k' hk' => h k' (List.mem_cons_of_mem k hk'))
        (Function.update memory k.1.id (k.1.call (memory k.1.id) k.2).memory)
      rw [Function.update_of_ne hk.symm] at hmem
      exact List.mem_cons_of_mem _ hmem

theorem exists_mem_trace {due : List (Participant × Cursor)} {next : Participant × Cursor}
    (h : next ∈ due) (memory : String → Memory) :
    ∃ k ∈ trace memory due, k.participant = next.1 ∧ k.place = next.2 ∧
      ∃ left, k.outcome = next.1.call left next.2 := by
  induction due generalizing memory with
  | nil => simp at h
  | cons first rest ih =>
      rw [trace]
      rcases List.mem_cons.1 h with rfl | h
      · exact ⟨_, List.mem_cons_self, rfl, rfl, _, rfl⟩
      · obtain ⟨k, hk, hspec⟩ := ih h _
        exact ⟨k, List.mem_cons_of_mem _ hk, hspec⟩

/-- A call of a run is made by a participant at a place of the document whose kind it names. -/
theorem of_mem_calls {k : Call} (hk : k ∈ calls participants document) :
    k.participant ∈ participants ∧ k.place ∈ document.top.nodes ∧
      k.place.node.kind ∈ k.participant.1.info.kinds ∧
      ∃ left, k.outcome = k.participant.call left k.place := by
  obtain ⟨before, after, memory, hdue, -, houtcome⟩ :=
    calls_invariant (fun _ _ => True) trivial (fun _ _ _ _ _ _ => trivial) hk
  have hmem : (k.participant, k.place) ∈ schedule participants document.top.nodes :=
    hdue ▸ List.mem_append_right _ List.mem_cons_self
  obtain ⟨hplace, hp, hkind⟩ := mem_schedule.1 hmem
  exact ⟨hp, hplace, hkind, memory k.participant.id, houtcome⟩

/-- Every participant is called at every place of the document whose kind it names. -/
theorem exists_mem_calls (hp : p ∈ participants) (hc : c ∈ document.top.nodes)
    (hkind : c.node.kind ∈ p.1.info.kinds) :
    ∃ k ∈ calls participants document, ∃ left, k.outcome = p.call left c := by
  have hdue : (p, c) ∈ schedule participants document.top.nodes :=
    mem_schedule.2 ⟨hc, hp, hkind⟩
  obtain ⟨k, hk, -, -, hcall⟩ := exists_mem_trace hdue fun _ => {}
  exact ⟨k, hk, hcall⟩

/-! ## The calls of one participant -/

theorem filter_schedule (hp : p ∈ participants) (hids : (participants.map (·.id)).Nodup)
    (places : List Cursor) : (schedule participants places).filter (·.1.id == p.id) =
      places.flatMap fun c => List.replicate (p.1.info.kinds.count c.node.kind) (p, c) := by
  rw [schedule, List.filter_flatMap]
  refine List.flatMap_congr fun c _ => filter_flatMap_name (fun q k hk => ?_) hids hp
  rw [List.eq_of_mem_replicate hk]

/-- A participant that names each kind once is called at the places of these kinds, in the order of
the walk. -/
theorem map_place_calls (hp : p ∈ participants) (hids : (participants.map (·.id)).Nodup)
    (hkinds : p.1.info.kinds.Nodup) :
    ((calls participants document).filter (·.participant.id == p.id)).map (·.place) =
      document.top.nodes.filter fun c => p.1.info.kinds.contains c.node.kind := by
  have hcalls : ((calls participants document).filter (·.participant.id == p.id)).map
      (fun k => (k.participant, k.place)) =
        (schedule participants document.top.nodes).filter (·.1.id == p.id) := by
    rw [← map_trace (fun _ => {}) (schedule participants document.top.nodes), List.filter_map]
    rfl
  have hplaces := congrArg (List.map Prod.snd) (hcalls.trans (filter_schedule hp hids _))
  rw [List.map_map, List.map_flatMap] at hplaces
  calc
    _ = document.top.nodes.flatMap fun c =>
        (List.replicate (p.1.info.kinds.count c.node.kind) (p, c)).map Prod.snd := hplaces
    _ = document.top.nodes.flatMap fun c =>
        (Option.guard (fun c => p.1.info.kinds.contains c.node.kind) c).toList := by
      refine List.flatMap_congr fun c _ => ?_
      rw [List.map_replicate, hkinds.count]
      by_cases hkind : c.node.kind ∈ p.1.info.kinds <;> simp [hkind]
    _ = _ := by rw [← List.filterMap_eq_flatMap_toList, List.filterMap_eq_filter]

/-- A participant starts on the document as its own rule, and remembers nothing. -/
theorem Takes.starts (h : Takes d document participants) (hp : p ∈ participants) :
    p.2.document = document ∧ p.2.info = p.1.info ∧ p.2.memory = {} := by
  obtain ⟨logs, hcontext⟩ := h.contexts p hp
  obtain ⟨options, severity, hstart⟩ := context_eq_ok hcontext
  rw [hstart]
  exact ⟨rfl, rfl, rfl⟩

/-- A participant that remembers nothing finds the context in which it started at each call. -/
theorem Takes.outcome_eq (h : Takes d document participants) (hp : p ∈ participants)
    (hids : (participants.map (·.id)).Nodup)
    (hforgets : ∀ ctx c, (p.1.visit ctx c).memory = ctx.memory) {k : Call}
    (hk : k ∈ calls participants document) (hid : k.participant.id = p.id) :
    k.outcome = p.1.visit p.2 k.place := by
  have hmemory := (h.starts hp).2.2
  have hcall : ∀ c, p.call {} c = p.1.visit p.2 c := by
    intro c
    rw [Participant.call, ← hmemory]
  have hunique : ∀ q ∈ participants, q.id = p.id → q = p := fun q hq heq =>
    List.inj_on_of_nodup_map hids hq hp heq
  have hstep : ∀ before k after,
      schedule participants document.top.nodes = before ++ k :: after → ∀ memory : String → Memory,
        memory p.id = {} → Function.update memory k.1.id
          (k.1.call (memory k.1.id) k.2).memory p.id = {} := by
    intro before k after hdue memory hinv
    by_cases heq : k.1.id = p.id
    · have hmem : k ∈ schedule participants document.top.nodes :=
        hdue ▸ List.mem_append_right _ List.mem_cons_self
      obtain rfl := hunique k.1 (mem_schedule.1 hmem).2.1 heq
      rw [Function.update_self, hinv, hcall, hforgets, hmemory]
    · rw [Function.update_of_ne (Ne.symm heq), hinv]
  obtain ⟨-, -, memory, -, hinv, houtcome⟩ :=
    calls_invariant (fun _ memory => memory p.id = {}) rfl hstep hk
  obtain ⟨hmem, -⟩ := of_mem_calls hk
  rw [houtcome, hunique _ hmem hid, hinv, hcall]

end RubyLint.Dispatcher
