import Mathlib
import RubyLint.Proofs.Dispatch.Trace
import RubyLint.Proofs.Rules.Harmless
import RubyLint.Proofs.Rules.Layout
import RubyLint.Rules.Shipped

/-!
# The shipped rules together

On a tree of the right shape and under a typed configuration the shipped rules fail only where an
indentation is too wide to be written, and whatever they report can be corrected at once.
-/

namespace RubyLint.Shipped

open Cursor Ruby Layout Dispatcher

def rules [Machine] : List (Rule Memory) :=
  [ChainBreaks.rule, WrapArguments.rule, NestedContext.rule, Redefinition.letRule,
    Redefinition.subjectRule]

def layoutIds : List String :=
  [ChainBreaks.info.id, WrapArguments.info.id]

theorem registry_rules [Machine] : Registry.shipped.rules = rules := by
  have hname : Catalog.shippedName.startsWith "." = false := by cbv
  have hpackage : Catalog.find? Catalog.shipped Catalog.shippedName =
      some ⟨Catalog.shippedName, [],
        Catalog.shippedParts.map fun part => Catalog.partName part.1⟩ :=
    rfl
  have hoffers : Registry.offersOf Catalog.shipped ⟨Catalog.shippedName, [],
      Catalog.shippedParts.map fun part => Catalog.partName part.1⟩ = rules.map .fresh := rfl
  rw [Registry.shipped, Registry.standard, Registry.discover, Registry.takePackage, hname, hpackage]
  simp only [hoffers]
  rfl

theorem rules_ids [Machine] : rules.map (·.info.id) = [ChainBreaks.info.id, WrapArguments.info.id,
    NestedContext.info.id, Redefinition.letInfo.id, Redefinition.subjectInfo.id] := rfl

theorem rules_nodup [Machine] : (rules.map (·.info.id)).Nodup := by
  rw [rules_ids]
  decide

theorem rules_finish [Machine] : ∀ rule ∈ rules, rule.finish = none := by
  simp only [rules, List.forall_mem_cons]
  exact ⟨rfl, rfl, rfl, rfl, rfl, by simp⟩

theorem rules_kinds [Machine] : ∀ rule ∈ rules, rule.info.kinds = ["call"] := by
  simp only [rules, List.forall_mem_cons]
  exact ⟨rfl, rfl, rfl, rfl, rfl, by simp⟩

variable {width : Nat} {document : Document} {top c : Cursor} {p : Participant}

theorem typed_width (hwidth : 2 ≤ width) : TypedEntry width (.str "IndentationWidth", .int 2) := by
  refine ⟨fun _ => ⟨2, rfl, hwidth⟩, fun name hname heq => ?_⟩
  obtain rfl := Value.str.inj heq
  exact absurd hname (by decide)

theorem typed_words {name : String} (hname : name ≠ "IndentationWidth") (words : List String) :
    TypedEntry width (.str name, .list (words.map .str)) :=
  ⟨fun heq => absurd (Value.str.inj heq) hname, fun _ _ _ => ⟨words, rfl⟩⟩

/-- The defaults of the shipped rules are typed. -/
theorem rules_defaults [Machine] (hwidth : 2 ≤ width) :
    ∀ rule ∈ rules, ∀ e ∈ rule.info.options, TypedEntry width e := by
  intro rule hrule
  simp only [rules, List.mem_cons, List.not_mem_nil, or_false] at hrule
  rcases hrule with rfl | rfl | rfl | rfl | rfl
  · exact List.forall_mem_cons.2 ⟨typed_width hwidth, List.forall_mem_cons.2
      ⟨typed_words (by decide) ChainBreaks.operatorMethods, by simp⟩⟩
  · exact List.forall_mem_cons.2 ⟨typed_width hwidth, List.forall_mem_cons.2
      ⟨typed_words (by decide) [], by simp⟩⟩
  · exact List.forall_mem_cons.2 ⟨typed_words (by decide) ["when", "with", "without"], by simp⟩
  · exact List.forall_mem_cons.2 ⟨typed_words (by decide) ["let", "let!"], by simp⟩
  · exact List.forall_mem_cons.2 ⟨typed_words (by decide) ["subject", "subject!"], by simp⟩

/-! ## What a call does -/

/-- What is promised of a call of a shipped rule: only a layout rule fails, over an indentation that
is too wide, and corrections are layout edits. -/
structure Sound (top : Cursor) (rule : String) (o : Outcome Memory) : Prop where
  fault : ∀ f, o.fault = some f → rule ∈ layoutIds ∧ ∃ v ∈ Value.widthFaults, f = .value v
  edits : ∀ x ∈ o.offenses, ∀ e ∈ x.edits, LayoutEdit top e

theorem sound_quiet (rule : String) (memory : Memory) : Sound top rule (.quiet memory) :=
  ⟨by simp [Outcome.quiet], by simp [Outcome.quiet]⟩

theorem sound_of_harmless {rule : String} {o : Outcome Memory} (h : o.Harmless) :
    Sound top rule o :=
  ⟨by simp [h.fault], fun x hx e he => by simp [h.edits x hx] at he⟩

theorem sound_fail {rule : String} {memory : Memory} {v : ValueFault} (hrule : rule ∈ layoutIds)
    (hv : v ∈ Value.widthFaults) : Sound top rule (.fail memory (.value v)) := by
  refine ⟨fun f hf => ⟨hrule, v, hv, ?_⟩, by simp [Outcome.fail]⟩
  simpa [Outcome.fail] using hf.symm

/-- The tree of a document that the shipped rules can work on. -/
structure Ready (top : Cursor) : Prop extends Shaped top where
  solid : ∀ c, Below top c → isCall c = true → c.node.start < c.node.stop

instance (top : Cursor) : Decidable (Ready top) :=
  decidable_of_iff (Shaped top ∧ ∀ c, Below top c → isCall c = true → c.node.start < c.node.stop)
    ⟨fun h => ⟨h.1, h.2⟩, fun h => ⟨h.1, h.2⟩⟩

theorem chainSetup {ctx : Context Memory} (hctx : ctx.Ready width document ChainBreaks.info)
    (hwidth : 2 ≤ width) :
    ∃ w operators, ChainBreaks.Setup ctx document w operators ∧ w.natAbs ≤ width := by
  obtain ⟨w, hw, hbound⟩ := hctx.width_option hwidth
  obtain ⟨words, -, hwords⟩ := hctx.words_option "OperatorMethods" (by decide)
  exact ⟨w, _, ⟨hctx.document, hctx.info, hw, hwords⟩, hbound⟩

theorem wrapSetup {ctx : Context Memory} (hctx : ctx.Ready width document WrapArguments.info)
    (hwidth : 2 ≤ width) :
    ∃ w allowed, WrapArguments.Setup ctx document w allowed ∧ w.natAbs ≤ width := by
  obtain ⟨w, hw, hbound⟩ := hctx.width_option hwidth
  obtain ⟨words, -, hwords⟩ := hctx.words_option "AllowedMethods" (by decide)
  exact ⟨w, _, ⟨hctx.document, hctx.info, hw, hwords⟩, hbound⟩

/-- The context of a participant is ready whatever the rule remembers. -/
theorem ready_memory (hctx : p.2.Ready width document p.1.info) (memory : Memory) :
    ({ p.2 with memory } : Context Memory).Ready width document p.1.info :=
  ⟨hctx.document, hctx.info, hctx.options⟩

section

variable [Machine] {ctx : Context Memory} (hwidth : 2 ≤ width) (htop : Ready top) (hc : Below top c)
  (hcall : isCall c = true)

include hwidth htop hc hcall

theorem chain_sound (hctx : ctx.Ready width document ChainBreaks.info) :
    Sound top ChainBreaks.info.id (ChainBreaks.visit ctx c) := by
  obtain ⟨w, operators, hsetup, -⟩ := chainSetup hctx hwidth
  rcases ChainBreaks.visit_cases hsetup hcall (fun x hx => htop.calls x (hc.trans hx))
    (htop.orderly.below hc) with
    ⟨-, hvisit⟩ | ⟨-, -, ⟨v, hv, hvisit⟩ | ⟨os, blanks, -, hvisit, hsound, -⟩⟩
  · exact hvisit ▸ sound_quiet _ _
  · exact hvisit ▸ sound_fail (by decide) (Value.blanks_int_error hv)
  · rw [hvisit]
    refine ⟨by simp, fun x hx e he => ?_⟩
    obtain ⟨link, hlink, op, hop, hedits⟩ := hsound x hx
    rw [hedits, List.mem_singleton] at he
    have hchain := ChainBreaks.mem_links_iff.1 (List.mem_filter.1 hlink).1
    exact he ▸ .edge _ (.part (hc.trans hchain.descends) (hchain.isCall hcall) (by decide) hop)
      (.inl rfl)

theorem wrap_sound (hctx : ctx.Ready width document WrapArguments.info) :
    Sound top WrapArguments.info.id (WrapArguments.visit ctx c) := by
  obtain ⟨w, allowed, hsetup, -⟩ := wrapSetup hctx hwidth
  rcases WrapArguments.visit_cases hsetup (htop.calls c hc hcall) (htop.orderly.below hc) with
    ⟨-, hvisit⟩ |
    ⟨first, last, list, n, hdue, -, ⟨v, hv, hvisit⟩ | ⟨o, blanks, -, hedits, hvisit⟩⟩
  · exact hvisit ▸ sound_quiet _ _
  · exact hvisit ▸ sound_fail (by decide) (Value.blanks_int_error hv)
  · rw [hvisit]
    refine ⟨by simp, fun x hx e he => ?_⟩
    obtain rfl := List.mem_singleton.1 hx
    exact wrap_edits hc hcall hdue e (hedits ▸ he)

/-- Every call of a shipped rule is sound. -/
theorem call_sound (hrule : p.1 ∈ rules) (hctx : p.2.Ready width document p.1.info)
    (memory : Memory) : Sound top p.id (p.call memory c) := by
  have hready := ready_memory hctx memory
  have hshape := htop.calls c hc hcall
  have horderly := htop.orderly.below hc
  obtain ⟨rule, ctx⟩ := p
  simp only [rules, List.mem_cons, List.not_mem_nil, or_false] at hrule
  rcases hrule with rfl | rfl | rfl | rfl | rfl
  · exact chain_sound hwidth htop hc hcall hready
  · exact wrap_sound hwidth htop hc hcall hready
  · exact sound_of_harmless (NestedContext.visit_harmless hready (fun _ => hshape) horderly)
  · exact sound_of_harmless (Redefinition.letRule_harmless hready htop.solid hc)
  · exact sound_of_harmless (Redefinition.subjectRule_harmless hready htop.solid hc)

end

/-! ## Narrow indentations -/

theorem blanks_fit [Machine] {n : Int} {size : Nat} (hlow : -(size : Int) ≤ n) (hhigh : n ≤ size)
    (hsize : (size : Int) < Machine.memoryBound) : ∃ text, (Value.int n).blanks = .ok text := by
  have hbound := Machine.memoryBound_le
  exact ⟨_, Value.blanks_int_ok (by omega) (by omega)⟩

section

variable [Machine] {ctx : Context Memory} (hwidth : 2 ≤ width) (htop : Ready top) (hc : Below top c)
  (hcall : isCall c = true)

include hwidth htop hc hcall

theorem chain_fits (hctx : ctx.Ready width document ChainBreaks.info)
    (hsize : ((document.data.length + width : Nat) : Int) < Machine.memoryBound) :
    (ChainBreaks.visit ctx c).fault = none := by
  obtain ⟨w, operators, hsetup, hw⟩ := chainSetup hctx hwidth
  rcases ChainBreaks.visit_cases hsetup hcall (fun x hx => htop.calls x (hc.trans hx))
    (htop.orderly.below hc) with
    ⟨-, hvisit⟩ | ⟨-, -, ⟨v, hv, hvisit⟩ | ⟨os, blanks, -, hvisit, -⟩⟩
  · rw [hvisit]
    rfl
  · have hbase : ChainBreaks.base document.toSource c ≤ document.data.length :=
      lineIndentation_le _ _
    obtain ⟨text, htext⟩ := blanks_fit (n := ChainBreaks.base document.toSource c + w)
      (by omega) (by omega) hsize
    rw [htext] at hv
    nomatch hv
  · rw [hvisit]

variable (hlines : document.lines = LineIndex.ofBytes document.data)
  (hstop : top.node.stop ≤ document.data.length)

include hlines hstop

/-- A call of the wrapping rule moves an argument by one more indentation at most, and succeeds if
that still fits. -/
theorem wrap_step {count : Nat} (hctx : ctx.Ready width document WrapArguments.info)
    (hmoved : ∀ m ∈ ctx.memory.moved, Landed document.toSource width count m) :
    (∀ m ∈ (WrapArguments.visit ctx c).memory.moved,
        Landed document.toSource width (count + 1) m) ∧
      (((document.data.length + (count + 1) * width : Nat) : Int) < Machine.memoryBound →
        (WrapArguments.visit ctx c).fault = none) := by
  obtain ⟨w, allowed, hsetup, hw⟩ := wrapSetup hctx hwidth
  have hlater : ∀ m ∈ ctx.memory.moved, Landed document.toSource width (count + 1) m :=
    fun m hm => (hmoved m hm).mono (Nat.le_succ count)
  have hinside := htop.orderly.inside hc
  have hforward := (htop.orderly.below hc).forward
  rcases WrapArguments.visit_cases hsetup (htop.calls c hc hcall) (htop.orderly.below hc) with
    ⟨-, hvisit⟩ |
    ⟨first, last, list, n, hdue, rfl, ⟨v, hv, hvisit⟩ | ⟨o, blanks, -, -, hvisit⟩⟩
  · rw [hvisit]
    exact ⟨hlater, fun _ => rfl⟩
  · rw [hvisit]
    refine ⟨hlater, fun hsize => ?_⟩
    obtain ⟨hlow, hhigh⟩ := columnAfter_bounds hlines hmoved (n := c.node) (by omega)
    have hsucc : (count + 1) * width = count * width + width := Nat.succ_mul count width
    obtain ⟨text, htext⟩ := blanks_fit
      (n := WrapArguments.columnAfter document.toSource ctx.memory.moved c.node + w)
      (by omega) (by omega) hsize
    rw [htext] at hv
    nomatch hv
  · rw [hvisit]
    refine ⟨List.forall_mem_cons.2 ⟨?_, hlater⟩, fun _ => rfl⟩
    have hmem := List.mem_of_head? hdue.isFirst
    have hbelow : Below c first := .step (.of_mem_children (argumentList?_mem hdue.isList))
      (arguments_mem hdue.isList hmem)
    have hfirst := (htop.orderly.below hc).inside hbelow
    have hfirstForward := (htop.orderly.below (hc.trans hbelow)).forward
    exact landing_landed hlines hmoved (by omega) (by omega) hw

end

/-! ## Whole runs -/

section

variable [Machine] {participants : List Participant} (hrules : participants.map (·.1) = rules)
  (hready : ∀ p ∈ participants, p.2.Ready width document p.1.info) (hwidth : 2 ≤ width)
  (htop : Ready document.top)

include hrules

theorem participant_rule (hp : p ∈ participants) : p.1 ∈ rules :=
  hrules ▸ List.mem_map_of_mem hp

theorem participants_nodup : (participants.map (·.id)).Nodup := by
  have hids : participants.map (·.id) = rules.map (·.info.id) := by
    rw [← hrules, List.map_map]
    rfl
  exact hids ▸ rules_nodup

/-- The calls due are made at calls of the document, by its participants. -/
theorem due_call {k : Participant × Cursor}
    (hk : k ∈ schedule participants document.top.nodes) :
    k.1 ∈ participants ∧ Below document.top k.2 ∧ isCall k.2 = true := by
  obtain ⟨hplace, hp, hkind⟩ := mem_schedule.1 hk
  rw [rules_kinds _ (participant_rule hrules hp), List.mem_singleton] at hkind
  exact ⟨hp, mem_nodes_iff.1 hplace, by simp [isCall, hkind]⟩

include hready hwidth htop

theorem calls_sound {k : Call} (hk : k ∈ calls participants document) :
    Sound document.top k.participant.id k.outcome := by
  obtain ⟨before, after, memory, hdue, -, houtcome⟩ :=
    calls_invariant (fun _ _ => True) trivial (fun _ _ _ _ _ _ => trivial) hk
  obtain ⟨hp, hplace, hcall⟩ := due_call hrules (hdue ▸ List.mem_append_right _ List.mem_cons_self)
  rw [houtcome]
  exact call_sound hwidth htop hplace hcall (participant_rule hrules hp) (hready _ hp) _

variable (hlines : document.lines = LineIndex.ofBytes document.data)
  (hstop : document.top.node.stop ≤ document.data.length)

include hlines hstop

/-- With each call of the wrapping rule arguments land at most one indentation further. -/
theorem landed_step {k : Participant × Cursor} {memory : String → Memory} {count : Nat}
    (hk : k ∈ schedule participants document.top.nodes)
    (hmoved : ∀ m ∈ (memory WrapArguments.info.id).moved, Landed document.toSource width count m) :
    ∀ m ∈ (Function.update memory k.1.id (k.1.call (memory k.1.id) k.2).memory
      WrapArguments.info.id).moved,
        Landed document.toSource width
          (count + if k.1.id == WrapArguments.info.id then 1 else 0) m := by
  obtain ⟨hp, hplace, hcall⟩ := due_call hrules hk
  obtain ⟨⟨rule, ctx⟩, c⟩ := k
  have hready := ready_memory (hready _ hp) (memory WrapArguments.info.id)
  have hrule := participant_rule hrules hp
  simp only [rules, List.mem_cons, List.not_mem_nil, or_false] at hrule
  rcases hrule with rfl | rfl | rfl | rfl | rfl
  · exact hmoved
  · rw [show Participant.id (WrapArguments.rule, ctx) = WrapArguments.info.id from rfl,
      Function.update_self]
    exact (wrap_step hwidth htop hplace hcall hlines hstop hready hmoved).1
  · exact hmoved
  · exact hmoved
  · exact hmoved

/-- If all indentations that a tree may need fit, no call fails. -/
theorem calls_fit (hsize : ((document.data.length + document.top.node.size * width : Nat) : Int) <
      Machine.memoryBound) {k : Call} (hk : k ∈ calls participants document) :
    k.outcome.fault = none := by
  let wraps : Participant × Cursor → Bool := fun k => k.1.id == WrapArguments.info.id
  obtain ⟨before, after, memory, hdue, hmoved, houtcome⟩ := calls_invariant
    (fun before memory => ∀ m ∈ (memory WrapArguments.info.id).moved,
      Landed document.toSource width (before.countP wraps) m) (by simp)
    (fun before k after hdue memory hmoved => by
      rw [List.countP_append, List.countP_singleton]
      exact landed_step hrules hready hwidth htop hlines hstop
        (hdue ▸ List.mem_append_right _ List.mem_cons_self) hmoved) hk
  obtain ⟨hp, hplace, hcall⟩ := due_call hrules (hdue ▸ List.mem_append_right _ List.mem_cons_self)
  have honce := countP_schedule_le (participants_nodup hrules)
    (fun p hp kind => by
      rw [rules_kinds _ (participant_rule hrules hp)]
      exact List.count_le_length) WrapArguments.info.id document.top.nodes
  rw [hdue, List.countP_append, List.countP_cons, length_nodes] at honce
  have hready := ready_memory (hready _ hp) (memory k.participant.id)
  have hrule := participant_rule hrules hp
  have hnodes : 1 ≤ document.top.node.size := by
    rw [Node.size_eq]
    omega
  rw [houtcome]
  obtain ⟨⟨rule, ctx⟩, place, outcome⟩ := k
  simp only [rules, List.mem_cons, List.not_mem_nil, or_false] at hrule
  rcases hrule with rfl | rfl | rfl | rfl | rfl
  · have hfit := Nat.mul_le_mul_right width hnodes
    exact chain_fits hwidth htop hplace hcall hready (by omega)
  · have hmore : before.countP wraps + 1 ≤ document.top.node.size := by
      simp only [show Participant.id (WrapArguments.rule, ctx) = WrapArguments.info.id from rfl,
        beq_self_eq_true, if_true] at honce
      exact Nat.le_trans (by simp only [wraps]; omega) honce
    have hfit := Nat.mul_le_mul_right width hmore
    exact (wrap_step hwidth htop hplace hcall hlines hstop hready hmoved).2 (by omega)
  · exact (NestedContext.visit_harmless hready (fun _ => htop.calls _ hplace hcall)
      (htop.orderly.below hplace)).fault
  · exact (Redefinition.letRule_harmless hready htop.solid hplace).fault
  · exact (Redefinition.subjectRule_harmless hready htop.solid hplace).fault

end

/-- Under a typed configuration the shipped rules run, and what comes of them is what came of their
calls. -/
theorem exists_run [Machine] {config : Option Config} (hwidth : 2 ≤ width)
    (hconfig : ∀ id ∈ Registry.shipped.ids, ∀ c ∈ config, c.Typed width id) (document : Document) :
    ∃ participants i, participants.map (·.1) = rules ∧
      (∀ p ∈ participants, p.2.Ready width document p.1.info ∧
        ∃ logs, context config document p.1 = .ok (p.2, logs)) ∧
      Dispatcher.investigate ⟨Registry.shipped, config, none⟩ document = .ok i ∧
      i.offenses = (calls participants document).flatMap (·.outcome.offenses) ∧
      i.failures = (calls participants document).filterMap (Call.failure? document) := by
  have hids : Registry.shipped.ids = rules.map (·.info.id) := by
    rw [← registry_rules, Registry.rules, List.map_map]
    rfl
  obtain ⟨participants, hrules, hparticipants⟩ := exists_participants config document
    (fun rule hrule => hconfig rule.info.id (hids ▸ List.mem_map_of_mem hrule))
    (rules_defaults hwidth)
  have htakes : Takes ⟨Registry.shipped, config, none⟩ document participants :=
    ⟨hrules.trans registry_rules.symm, fun p hp => (hparticipants p hp).2⟩
  obtain ⟨i, hrun⟩ := htakes.investigate rfl (participants_nodup hrules)
    fun rule hrule => rules_finish rule (registry_rules ▸ hrule)
  exact ⟨participants, i, hrules, hparticipants, hrun⟩

/-- The shipped rules compose.  On every text with a tree of the right shape and under every typed
configuration the investigation comes to an end; the only failures it records are those of layout
rules whose indentation is too wide to be written; it records none if all indentations that the tree
may need fit; and correcting what it reports never meets an edit that leaves the text or overlaps
another one. -/
theorem investigate_composes [Machine] (path text : String) (root : Node) (document : Document)
    (config : Option Config) (width : Nat)
    (hattach : Document.attach path text root = .ok document) (htop : Ready document.top)
    (hconfig : ∀ id ∈ Registry.shipped.ids, ∀ c ∈ config, c.Typed width id) :
    ∃ i, Dispatcher.investigate ⟨Registry.shipped, config, none⟩ document = .ok i ∧
      (∀ f ∈ i.failures, f.rule ∈ layoutIds ∧
        ∃ v ∈ Value.widthFaults, f.error = (RuleFault.value v).summary) ∧
      ((((Utf8.encode text).length + root.size * max 2 width : Nat) : Int) < Machine.memoryBound →
        i.failures = []) ∧
      ∀ ranks fault, Correction.ofFindings ranks text i.findings ≠ .error (.edit fault) := by
  obtain ⟨rfl, hstop⟩ := Document.attach_eq_ok hattach
  set document : Document := ⟨Source.ofText path text, root, []⟩ with hdocument
  have hwidth : 2 ≤ max 2 width := Nat.le_max_left _ _
  obtain ⟨participants, i, hrules, hparticipants, hi, hoffenses, hfailures⟩ :=
    exists_run hwidth (fun id hid c hc => (hconfig id hid c hc).mono (Nat.le_max_right 2 width))
      document
  have hready := fun p hp => (hparticipants p hp).1
  have hsound := fun {k} hk => calls_sound hrules hready hwidth htop (k := k) hk
  have hedits : ∀ f ∈ i.findings, ∀ e ∈ f.offense.edits, LayoutEdit document.top e := by
    intro f hf e he
    obtain ⟨n, hn, rfl⟩ := List.mem_mapIdx.1 hf
    have hmem : i.offenses[n] ∈ (calls participants document).flatMap (·.outcome.offenses) :=
      hoffenses ▸ List.getElem_mem hn
    obtain ⟨k, hk, ho⟩ := List.mem_flatMap.1 hmem
    exact (hsound hk).edits _ ho e he
  refine ⟨i, hi, ?_, ?_, ?_⟩
  · intro f hf
    rw [hfailures] at hf
    obtain ⟨k, hk, hf⟩ := List.mem_filterMap.1 hf
    obtain ⟨fault, hfault, rfl⟩ := Option.map_eq_some_iff.1 hf
    obtain ⟨hid, v, hv, rfl⟩ := (hsound hk).fault fault hfault
    exact ⟨hid, v, hv, rfl⟩
  · intro hsize
    rw [hfailures, failures_eq_nil_iff]
    exact fun k hk => calls_fit hrules hready hwidth htop rfl hstop hsize hk
  · intro ranks fault
    refine Correction.ofFindings_ne_edit (Correction.arrange_toApply text ranks ?_ ?_) fault
    · exact fun f hf e he => (hedits f hf e he).not_misplaced htop.toShaped hstop
    · exact fun f hf a ha g hg b hb =>
        (hedits f hf a ha).not_overlap (hedits g hg b hb) htop.toShaped

/-- A call without parentheses whose arguments span two lines. -/
def spread : Node :=
  ⟨"call", 0, 9, true, none, [⟨"identifier", 0, 3, true, some "method", []⟩,
    ⟨"argument_list", 4, 9, true, some "arguments", [⟨"identifier", 4, 5, true, none, []⟩,
      ⟨",", 5, 6, false, none, []⟩, ⟨"identifier", 8, 9, true, none, []⟩]⟩]⟩

def spreadText : String :=
  "foo a,\n b"

/-- The call is wrapped without a failure under the standard configuration. -/
theorem investigate_spread :
    ∃ i, Dispatcher.investigate ⟨Registry.shipped, none, none⟩
        ⟨Source.ofText "a.rb" spreadText, spread, []⟩ = .ok i ∧ i.failures = [] ∧
      ∀ ranks fault, Correction.ofFindings ranks spreadText i.findings ≠ .error (.edit fault) := by
  obtain ⟨i, hi, -, hfailures, hedits⟩ := investigate_composes "a.rb" spreadText spread
    _ none 2 rfl (by decide) (by simp)
  exact ⟨i, hi, hfailures (by decide), hedits⟩

def widthConfig (w : Int) : Config where
  options := .map [(.str WrapArguments.info.id, .map [(.str "IndentationWidth", .int w)])]

theorem widthConfig_typed (w : Int) (id : String) : (widthConfig w).Typed w.natAbs id := by
  refine ⟨⟨[], rfl⟩, _, rfl, fun v hv => ?_⟩
  have hmem := Table.mem_of_lookup? hv
  obtain ⟨-, rfl⟩ := Prod.mk.inj (List.mem_singleton.1 hmem)
  refine ⟨_, rfl, List.forall_mem_cons.2
    ⟨⟨fun _ => ⟨w, rfl, Nat.le_refl _⟩, fun name hname heq => ?_⟩, by simp⟩⟩
  obtain rfl := Value.str.inj heq
  exact absurd hname (by decide)

def wideConfig : Config :=
  widthConfig 9223372036854775808

/-- Under it the call is not wrapped: the indentation is too wide, and the failure is recorded. -/
theorem investigate_wide :
    ∃ document i, Document.attach "a.rb" spreadText spread = .ok document ∧ Ready document.top ∧
      (∀ id ∈ Registry.shipped.ids, wideConfig.Typed 9223372036854775808 id) ∧
      Dispatcher.investigate ⟨Registry.shipped, some wideConfig, none⟩ document = .ok i ∧
      i.failures ≠ [] := by
  set document : Document := ⟨Source.ofText "a.rb" spreadText, spread, []⟩ with hdocument
  have hattach : Document.attach "a.rb" spreadText spread = .ok document := rfl
  have htop : Ready document.top := by decide
  have htyped : ∀ id ∈ Registry.shipped.ids, wideConfig.Typed 9223372036854775808 id :=
    fun id _ => widthConfig_typed 9223372036854775808 id
  have hconfig : ∀ id ∈ Registry.shipped.ids, ∀ c ∈ some wideConfig,
      c.Typed 9223372036854775808 id := fun id hid c hc => Option.some.inj hc ▸ htyped id hid
  obtain ⟨participants, i, hrules, hparticipants, hi, -, hfailures⟩ :=
    exists_run (by decide) hconfig document
  refine ⟨document, i, hattach, htop, htyped, hi, ?_⟩
  obtain ⟨⟨rule, ctx⟩, rest, rfl, rfl, hrest⟩ := List.map_eq_cons_iff.1 hrules
  obtain ⟨⟨rule, ctx'⟩, rest, rfl, rfl, -⟩ := List.map_eq_cons_iff.1 hrest
  obtain ⟨-, logs, hcontext⟩ := hparticipants (WrapArguments.rule, ctx') (by simp)
  have hctx : context (some wideConfig) document WrapArguments.rule =
      .ok (⟨document, WrapArguments.info, [(.str "IndentationWidth", .int 9223372036854775808),
        (.str "AllowedMethods", .list [])], "warn", {}⟩, []) := by
    cbv
  obtain ⟨rfl, -⟩ := Prod.mk.inj (Except.ok.inj (hctx.symm.trans hcontext))
  have hdue : ∃ first last list,
      WrapArguments.Due document.toSource [] document.top first last list :=
    ⟨_, _, _, rfl, rfl, rfl, by decide, by decide, by decide,
      (hasHeredoc_eq_false_iff rfl).2 (by decide), by decide⟩
  obtain ⟨first, last, list, hdue⟩ := hdue
  set ctx' : Context Memory := ⟨document, WrapArguments.info,
    [(.str "IndentationWidth", .int 9223372036854775808), (.str "AllowedMethods", .list [])],
    "warn", {}⟩
  have hallowed : (ctx'.option "AllowedMethods" .null).members = .ok [] := by cbv
  have hwidth : ctx'.option "IndentationWidth" (.int 2) = .int 9223372036854775808 := by cbv
  have hblanks : (Value.int (WrapArguments.columnAfter document.toSource [] document.top.node +
      9223372036854775808)).blanks = .error .hugeRepeat := by cbv
  have hvisit := (WrapArguments.visit_due hallowed hdue).trans
    (WrapArguments.report_fail hwidth hblanks)
  have hschedule : ∃ after, schedule ((ChainBreaks.rule, ctx) :: (WrapArguments.rule, ctx') :: rest)
      document.top.nodes = [((ChainBreaks.rule, ctx), document.top)] ++
        ((WrapArguments.rule, ctx'), document.top) :: after := by
    rw [schedule, nodes, walk]
    exact ⟨_, rfl⟩
  obtain ⟨after, hschedule⟩ := hschedule
  have hfresh : ∀ k ∈ ([((ChainBreaks.rule, ctx), document.top)] : List (Participant × Cursor)),
      k.1.id ≠ Participant.id (WrapArguments.rule, ctx') := by
    intro k hk
    obtain rfl := List.mem_singleton.1 hk
    exact (by decide : ChainBreaks.info.id ≠ WrapArguments.info.id)
  have hcall := mem_trace_of_fresh (WrapArguments.rule, ctx') document.top hfresh after fun _ => {}
  rw [← hschedule] at hcall
  rw [hfailures, ne_eq, failures_eq_nil_iff]
  intro hnone
  have hfault := hnone _ hcall
  rw [show Participant.call (WrapArguments.rule, ctx') {} document.top = _ from hvisit] at hfault
  cases hfault

end RubyLint.Shipped
