import Mathlib.Data.List.TakeWhile
import RubyLint.Proofs.Dispatch.Trace
import RubyLint.Proofs.Rules.ChainBreaks

/-!
# Chains

Every call with a receiver belongs to one chain.  Whether a call is part of a larger chain is found
out from its parent, and which calls a chain consists of by walking from receiver to receiver; where
a node has one child at most in each role, the two agree.  So the chains that a run of the rule
examines have no link in common, and no link is left out.
-/

namespace RubyLint

/-- At most one child plays each role. -/
def Node.RolesOnce (n : Node) : Prop :=
  n.children.Pairwise fun a b => ∀ role ∈ a.field, role ≠ "" → b.field ≠ some role

instance (n : Node) : Decidable n.RolesOnce :=
  inferInstanceAs (Decidable (List.Pairwise _ _))

namespace ChainBreaks

open Cursor Ruby Dispatcher

variable {document : Document} {ctx : Context Memory} {operators : List Value}
variable {s : Source} {c e e' link r top x : Cursor}

/-! ## The walk along a chain -/

/-- A walk from receiver to receiver: from a call over the links of a chain to its root. -/
structure Walk (c : Cursor) (links : List Cursor) (root : Cursor) : Prop where
  starts : links.head? = some c
  steps : (links ++ [root]).IsChain fun a b => receiver? a = some b
  /-- The root is the receiver of the last link. -/
  reached : ∃ link, links.getLast? = some link ∧ receiver? link = some root
  /-- The walk goes on as long as it comes to a call that has a receiver and no block. -/
  stops : isCall root = false ∨ hasBlock root = true ∨ receiver? root = none

theorem Walk.single (hreceiver : receiver? c = some r)
    (hstops : isCall r = false ∨ hasBlock r = true ∨ receiver? r = none) : Walk c [c] r where
  starts := rfl
  steps := List.isChain_cons_cons.2 ⟨hreceiver, List.IsChain.singleton r⟩
  reached := ⟨c, rfl, hreceiver⟩
  stops := hstops

theorem Walk.cons {links : List Cursor} {root : Cursor} (h : Walk r links root)
    (hreceiver : receiver? c = some r) : Walk c (c :: links) root := by
  obtain ⟨rest, rfl⟩ := List.head?_eq_some_iff.1 h.starts
  obtain ⟨link, hlast, hroot⟩ := h.reached
  refine ⟨rfl, ?_, ⟨link, ?_, hroot⟩, h.stops⟩
  · exact List.isChain_cons_cons.2 ⟨hreceiver, h.steps⟩
  · rw [List.getLast?_cons_cons, hlast]

/-- The spine of a call with a receiver is the walk along its chain. -/
theorem walk_spine (h : (receiver? c).isSome) : Walk c (spine c).1 (spine c).2 := by
  induction c using spine_induction with
  | bare c hreceiver => simp [hreceiver] at h
  | closed c r hreceiver hclosed =>
      rw [spine_of_closed hreceiver hclosed]
      rw [Bool.or_eq_true, Bool.not_eq_true'] at hclosed
      exact .single hreceiver (hclosed.imp_right .inl)
  | next c r hreceiver hcall hblock ih =>
      rw [spine_of_open hreceiver hcall hblock]
      cases hsome : receiver? r with
      | none =>
          rw [spine_of_none hsome]
          exact .single hreceiver (.inr (.inr hsome))
      | some inner => exact (ih (by simp [hsome])).cons hreceiver

/-- No link comes twice on a walk. -/
theorem nodup_spine (c : Cursor) : (spine c).1.Nodup := by
  induction c using spine_induction with
  | bare c hreceiver =>
      rw [spine_of_none hreceiver]
      exact .nil
  | closed c r hreceiver hclosed =>
      rw [spine_of_closed hreceiver hclosed]
      exact List.nodup_singleton c
  | next c r hreceiver hcall hblock ih =>
      rw [spine_of_open hreceiver hcall hblock, List.nodup_cons]
      refine ⟨fun hmem => ?_, ih⟩
      have hlt := size_lt_of_role? hreceiver
      have hle := (mem_links_iff.1 hmem).descends.size_le
      omega

/-! ## The outer ends of chains -/

/-- A call with a receiver that is not part of a larger chain. -/
structure IsOuter (c : Cursor) : Prop where
  isCall : Ruby.isCall c = true
  sent : (receiver? c).isSome
  outer : partOfLargerChain c = false

instance (c : Cursor) : Decidable (IsOuter c) :=
  decidable_of_iff (_ ∧ _ ∧ _) ⟨fun h => ⟨h.1, h.2.1, h.2.2⟩, fun h => ⟨h.1, h.2, h.3⟩⟩

/-- A child in a role that no other child plays is the one found in that role. -/
theorem role?_eq_some {role : String} (hroles : c.node.RolesOnce) (hx : x ∈ c.children)
    (hfield : x.node.field = some role) (hrole : role ≠ "") : c.role? role = some x := by
  cases hfound : c.role? role with
  | none =>
      have hnone := List.find?_eq_none.1 hfound x hx
      simp [Node.playsRole, hfield, hrole] at hnone
  | some y =>
      have hy := role?_mem hfound
      have hfieldY := role?_field hfound
      rcases index_lt_or_eq_or_lt hx hy with hlt | rfl | hgt
      · exact absurd hfieldY (rel_of_index_lt hroles hx hy hlt role hfield hrole)
      · rfl
      · exact absurd hfield (rel_of_index_lt hroles hy hx hgt role hfieldY hrole)

/-- A call that is part of a larger chain is what its parent goes on to. -/
theorem receiver_of_part (hroles : c.node.RolesOnce) (hx : x ∈ c.children)
    (hpart : partOfLargerChain x = true) :
    Ruby.isCall c = true ∧ receiver? c = some x ∧ hasBlock x = false := by
  rw [partOfLargerChain, parent?_of_mem_children hx] at hpart
  simp only [Bool.and_eq_true, beq_iff_eq, Bool.not_eq_true'] at hpart
  obtain ⟨⟨hcall, hfield⟩, hblock⟩ := hpart
  exact ⟨hcall, role?_eq_some hroles hx hfield (by decide), hblock⟩

theorem Link.concat (h : Link e c) (hreceiver : receiver? c = some x)
    (hcall : Ruby.isCall x = true) (hblock : hasBlock x = false) (hsent : (receiver? x).isSome) :
    Link e x := by
  induction h with
  | here => exact .next hreceiver hcall hblock (.here hsent)
  | next hfirst hcall' hblock' _ ih => exact .next hfirst hcall' hblock' (ih hreceiver)

section

variable (hroot : top.parent? = none) (hroles : ∀ x, Below top x → x.node.RolesOnce)

include hroot hroles in
/-- Every call with a receiver is a link of a chain, which is found by going outwards. -/
theorem exists_outer (hc : Below top c) (hcall : Ruby.isCall c = true)
    (hsent : (receiver? c).isSome) : ∃ e, Below top e ∧ IsOuter e ∧ Link e c := by
  induction hc with
  | refl =>
      have houter : partOfLargerChain top = false := by rw [partOfLargerChain, hroot]
      exact ⟨top, .refl, ⟨hcall, hsent, houter⟩, .here hsent⟩
  | @step p c hp hmem ih =>
      cases hpart : partOfLargerChain c with
      | false => exact ⟨c, .step hp hmem, ⟨hcall, hsent, hpart⟩, .here hsent⟩
      | true =>
          obtain ⟨hcallP, hreceiver, hblock⟩ := receiver_of_part (hroles p hp) hmem hpart
          obtain ⟨e, he, houter, hlink⟩ := ih hcallP (by simp [hreceiver])
          exact ⟨e, he, houter, hlink.concat hreceiver hcall hblock hsent⟩

/-- Only one chain has a given link. -/
theorem IsOuter.unique (he : IsOuter e) (he' : IsOuter e') (hlink : Link e c)
    (hlink' : Link e' c) : e = e' := by
  have hsame : ∀ {a b : Cursor}, IsOuter a → IsOuter b → Link a c → Link b c → Below a b →
      a = b := by
    intro a b ha hb hac hbc hab
    rcases (hac.between hab hbc.descends).1.eq_or_part ha.isCall with heq | hpart
    · exact heq.symm
    · rw [hb.outer] at hpart
      nomatch hpart
  rcases hlink.descends.comparable hlink'.descends with hab | hba
  · exact hsame he he' hlink hlink' hab
  · exact (hsame he' he hlink' hlink hba).symm

/-- The links that a call of the rule examines: those of the chain that it is the outer end of. -/
def examined (c : Cursor) : List Cursor :=
  if IsOuter c then (spine c).1 else []

theorem mem_examined_iff : link ∈ examined c ↔ IsOuter c ∧ Link c link := by
  rw [examined]
  split
  next houter => simp [houter, mem_links_iff]
  next houter => simp [houter]

/-- Where the rule is not called there is nothing to examine. -/
theorem flatMap_examined (places : List Cursor) :
    (places.filter Ruby.isCall).flatMap examined = places.flatMap examined := by
  induction places with
  | nil => rfl
  | cons c rest ih =>
      cases hcall : Ruby.isCall c with
      | true => rw [List.filter_cons_of_pos hcall, List.flatMap_cons, List.flatMap_cons, ih]
      | false =>
          have hempty : examined c = [] := if_neg fun h => by simp [h.isCall] at hcall
          rw [List.filter_cons_of_neg (by simp [hcall]), List.flatMap_cons, hempty, ih,
            List.nil_append]

include hroot hroles in
/-- The chains of a tree have no link in common, and each call with a receiver is a link of one. -/
theorem examined_perm :
    (top.nodes.flatMap examined).Perm
      (top.nodes.filter fun c => Ruby.isCall c && (receiver? c).isSome) := by
  rw [List.perm_ext_iff_of_nodup ?_ (top.nodup_nodes.filter _)]
  · intro link
    simp only [List.mem_flatMap, List.mem_filter, mem_nodes_iff, mem_examined_iff,
      Bool.and_eq_true]
    constructor
    · rintro ⟨e, he, houter, hlink⟩
      obtain ⟨r, hr⟩ := hlink.receiver
      exact ⟨he.trans hlink.descends, hlink.isCall houter.isCall, by simp [hr]⟩
    · rintro ⟨hlink, hcall, hsent⟩
      exact exists_outer hroot hroles hlink hcall hsent
  · rw [List.nodup_flatMap]
    constructor
    · intro c _
      rw [examined]
      split
      · exact nodup_spine c
      · exact .nil
    · apply top.nodup_nodes.imp
      intro e e' hne link hlink hlink'
      obtain ⟨he, hlink⟩ := mem_examined_iff.1 hlink
      obtain ⟨he', hlink'⟩ := mem_examined_iff.1 hlink'
      exact hne (he.unique he' hlink hlink')

end

/-! ## Reports -/

/-- An offense that is reported of a link: it covers the operator and the method of the link. -/
structure Names (link : Cursor) (o : Offense) : Prop where
  rule : o.rule = info.id
  range : offenseRange link = .ok (o.start, o.stop)

/-- A report of a link names it, or fails. -/
theorem report_names [Machine] (hinfo : ctx.info = info) (indent : Value) (link : Cursor) :
    (∃ o, Names link o ∧ ∀ memory, report ctx indent memory link = ⟨[o], memory, none⟩) ∨
      ∃ fault, ∀ memory, report ctx indent memory link = .fail memory fault := by
  cases hrange : offenseRange link with
  | error fault => exact .inr ⟨fault, fun memory => by rw [report, hrange]; rfl⟩
  | ok range =>
      cases hedits : (breakBefore link indent).mapError RuleFault.value with
      | error fault => exact .inr ⟨fault, fun memory => by rw [report, hrange, hedits]; rfl⟩
      | ok edits =>
          have hreport : ∀ memory, report ctx indent memory link =
              .report memory (ctx.offense range ctx.info.message edits none .null) := by
            intro memory
            rw [report, hrange, hedits]
            rfl
          cases ho : ctx.offense range ctx.info.message edits none .null with
          | error fault =>
              exact .inr ⟨.offense fault, fun memory => by rw [hreport, ho]; rfl⟩
          | ok o =>
              refine .inl ⟨o, ?_, fun memory => by rw [hreport, ho]; rfl⟩
              obtain rfl := Offense.eq_of_checked ho
              exact ⟨congrArg RuleInfo.id hinfo, hrange⟩

/-- The reports of some links name them one after the other, up to the first that fails. -/
theorem each_names [Machine] (hinfo : ctx.info = info) (indent : Value) (memory : Memory)
    (links : List Cursor) : ∃ reported : List Cursor, reported.Sublist links ∧
      List.Forall₂ Names reported (Outcome.each memory links (report ctx indent)).offenses ∧
      ((Outcome.each memory links (report ctx indent)).fault = none → reported = links) := by
  let solid : Cursor → Bool := fun link => (report ctx indent memory link).fault.isNone
  obtain ⟨hnames, hfault⟩ := Outcome.each_reports links (report ctx indent) (fun _ => true) solid
    Names memory (fun _ _ _ h => Bool.noConfusion h)
    (fun left link _ _ hsolid => by
      rcases report_names hinfo indent link with ⟨o, ho, hreport⟩ | ⟨fault, hreport⟩
      · exact ⟨o, ho, hreport left⟩
      · simp [solid, hreport memory, Outcome.fail] at hsolid)
    (fun left link _ _ hsolid => by
      rcases report_names hinfo indent link with ⟨o, -, hreport⟩ | ⟨fault, hreport⟩
      · simp [solid, hreport memory] at hsolid
      · exact ⟨fault, hreport left⟩)
  rw [List.filter_true] at hnames
  refine ⟨links.takeWhile solid, List.takeWhile_sublist _, hnames, fun hok => ?_⟩
  exact List.takeWhile_eq_self_iff.2 fun link hlink => hfault.1 hok link hlink rfl

/-- A call of the rule reports links that it examines, each once at most.  If it does not fail, it
reports all links that stay on the line of their receiver in a chain that spans several lines. -/
theorem visit_names [Machine] (hinfo : ctx.info = info) (hcall : Ruby.isCall c = true) :
    ∃ reported : List Cursor, reported.Sublist (examined c) ∧
      List.Forall₂ Names reported (visit ctx c).offenses ∧
      ∀ operators, (ctx.option "OperatorMethods" .null).members = .ok operators →
        Spread ctx.document.toSource c → (visit ctx c).fault = none →
          reported = flagged ctx.document.toSource operators c := by
  by_cases hspread : Spread ctx.document.toSource c
  · have houter : IsOuter c := ⟨hcall, hspread.receiver, hspread.outer⟩
    have hopen : ((receiver? c).isNone || partOfLargerChain c) = false := by
      rw [hspread.outer, Bool.or_false, Option.isNone_eq_false_iff]
      exact hspread.receiver
    have hlines : (ctx.document.lastLine (spine c).2.node ==
        sendLastLine ctx.document.toSource c) = false := by simpa using hspread.spread
    rw [examined, if_pos houter, visit]
    simp only [hopen, hlines, Bool.false_eq_true, if_false]
    generalize hindent : Except.mapError RuleFault.value _ = indent
    cases indent with
    | error fault =>
        refine ⟨[], List.nil_sublist _, .nil, fun _ _ _ hok => ?_⟩
        simp [Outcome.withValue, Outcome.fail] at hok
    | ok indent =>
        cases hmembers : (ctx.option "OperatorMethods" .null).members with
        | error fault =>
            refine ⟨[], List.nil_sublist _, .nil, fun _ hok => ?_⟩
            simp at hok
        | ok operators =>
            obtain ⟨reported, hsub, hnames, hall⟩ := each_names hinfo indent ctx.memory
              (flagged ctx.document.toSource operators c)
            refine ⟨reported, hsub.trans List.filter_sublist, hnames, ?_⟩
            intro operators' hmembers' _ hok
            obtain rfl := Except.ok.inj hmembers'
            exact hall hok
  · rw [visit_quiet hspread]
    exact ⟨[], List.nil_sublist _, .nil, fun _ _ hspread' => absurd hspread' hspread⟩

/-- The rule remembers nothing from a call. -/
theorem visit_memory [Machine] (ctx : Context Memory) (c : Cursor) :
    (visit ctx c).memory = ctx.memory := by
  rw [visit]
  dsimp only
  split
  · rfl
  split
  · rfl
  refine Outcome.withValue_memory fun indent => Outcome.withValue_memory fun operators => ?_
  refine Outcome.each_memory fun memory link _ => ?_
  exact Outcome.withValue_memory fun range => Outcome.withValue_memory fun edits =>
    Outcome.report_memory memory _

/-! ## A whole run -/

section

variable {d : Dispatcher} {participants : List Participant} {p : Participant}

/-- The calls of a run in a given participant report links of the chains they examine, one after the
other. -/
theorem flatMap_names [Machine] {visits : List Call} {ctx : Context Memory}
    (hinfo : ctx.info = info)
    (hvisits : ∀ k ∈ visits, Ruby.isCall k.place = true ∧ k.outcome = visit ctx k.place) :
    ∃ reported : List Cursor,
      reported.Sublist (visits.flatMap fun k => examined k.place) ∧
      List.Forall₂ Names reported (visits.flatMap (·.outcome.offenses)) ∧
      ∀ operators, (ctx.option "OperatorMethods" .null).members = .ok operators →
        ∀ k ∈ visits, Spread ctx.document.toSource k.place → k.outcome.fault = none →
          flagged ctx.document.toSource operators k.place ⊆ reported := by
  induction visits with
  | nil => exact ⟨[], .slnil, .nil, fun _ _ k hk => absurd hk List.not_mem_nil⟩
  | cons k rest ih =>
      obtain ⟨hk, hrest⟩ := List.forall_mem_cons.1 hvisits
      obtain ⟨later, hlater, hnames, hall⟩ := ih hrest
      obtain ⟨now, hnow, hnames', hall'⟩ := visit_names hinfo hk.1
      rw [← hk.2] at hnames' hall'
      refine ⟨now ++ later, hnow.append hlater, List.rel_append hnames' hnames, ?_⟩
      intro operators hoperators
      refine List.forall_mem_cons.2 ⟨fun hspread hok => ?_, fun k' hk' hspread hok => ?_⟩
      · rw [← hall' operators hoperators hspread hok]
        exact List.subset_append_left now later
      · intro link hlink
        exact List.mem_append_right now (hall operators hoperators k' hk' hspread hok hlink)

/-- A run examines every call with a receiver, in one chain: the walk from just one outer end comes
to it.  A walk ends at a root which is the receiver of its last link.  What is reported are links
of the examined chains, none of them twice.  A call that does not fail reports every link that stays
on the line of its receiver in a chain that spans several lines, and no call fails if the options
are a number and a set of operators, the calls of the tree have their shape, and the indentation
can be written. -/
theorem chains_partition [Machine] (hrule : p.1 = rule) (h : d.Takes document participants)
    (hp : p ∈ participants) (hids : (participants.map (·.id)).Nodup)
    (hroles : ∀ c ∈ document.top.nodes, c.node.RolesOnce) :
    let s := document.toSource
    let places := document.top.nodes
    let visits := (calls participants document).filter (·.participant.id == p.id)
    (∀ c ∈ places, (receiver? c).isSome → Walk c (spine c).1 (spine c).2) ∧
      (∀ c ∈ places, Ruby.isCall c = true → (receiver? c).isSome →
        ∃! e, e ∈ places ∧ IsOuter e ∧ c ∈ (spine e).1) ∧
      visits.map (·.place) = places.filter Ruby.isCall ∧
      (∀ k ∈ visits, k.outcome = visit p.2 k.place) ∧
      (visits.flatMap fun k => examined k.place).Perm
        (places.filter fun c => Ruby.isCall c && (receiver? c).isSome) ∧
      (∃ reported : List Cursor, reported.Nodup ∧
        reported.Sublist (visits.flatMap fun k => examined k.place) ∧
        List.Forall₂ Names reported (visits.flatMap (·.outcome.offenses)) ∧
        ∀ operators, (p.2.option "OperatorMethods" .null).members = .ok operators →
          ∀ k ∈ visits, Spread s k.place → k.outcome.fault = none →
            flagged s operators k.place ⊆ reported) ∧
      ∀ w operators, Setup p.2 document w operators → Shaped document.top →
        ∀ k ∈ visits, (∃ blanks, (Value.int (base s k.place + w)).blanks = .ok blanks) →
          k.outcome.fault = none := by
  intro s places visits
  have hkinds : p.1.info.kinds = ["call"] := by rw [hrule]; rfl
  have hplaces : visits.map (·.place) = places.filter Ruby.isCall := by
    rw [map_place_calls hp hids (hkinds ▸ List.nodup_singleton "call"), hkinds]
    refine List.filter_congr fun c _ => ?_
    rw [List.contains_cons, List.contains_nil, Bool.or_false, Ruby.isCall]
  have hvisit : ∀ k ∈ visits, k.outcome = visit p.2 k.place := by
    intro k hk
    obtain ⟨hmem, hid⟩ := List.mem_filter.1 hk
    rw [h.outcome_eq hp hids (by rw [hrule]; exact visit_memory) hmem (beq_iff_eq.1 hid), hrule]
    rfl
  have hmem : ∀ k ∈ visits, k.place ∈ places ∧ Ruby.isCall k.place = true := by
    intro k hk
    have hplace : k.place ∈ visits.map (·.place) := List.mem_map_of_mem hk
    rwa [hplaces, List.mem_filter] at hplace
  have hbelow : ∀ x, Below document.top x → x.node.RolesOnce :=
    fun x hx => hroles x (mem_nodes_iff.2 hx)
  have hexamined : visits.flatMap (fun k => examined k.place) = places.flatMap examined := by
    rw [← List.flatMap_map, hplaces, flatMap_examined]
  have hperm := examined_perm rfl hbelow
  rw [← hexamined] at hperm
  have hinfo : p.2.info = info := by rw [(h.starts hp).2.1, hrule]; rfl
  refine ⟨fun c _ hsent => walk_spine hsent, fun c hc hcall hsent => ?_, hplaces, hvisit, hperm, ?_,
    ?_⟩
  · obtain ⟨e, he, houter, hlink⟩ := exists_outer rfl hbelow (mem_nodes_iff.1 hc) hcall hsent
    refine ⟨e, ⟨mem_nodes_iff.2 he, houter, mem_links_iff.2 hlink⟩, ?_⟩
    rintro e' ⟨-, houter', hlink'⟩
    exact houter'.unique houter (mem_links_iff.1 hlink') hlink
  · obtain ⟨reported, hsub, hnames, hall⟩ := flatMap_names hinfo
      fun k (hk : k ∈ visits) => ⟨(hmem k hk).2, hvisit k hk⟩
    rw [(h.starts hp).1] at hall
    have hnodup := hperm.nodup_iff.2 (document.top.nodup_nodes.filter _)
    exact ⟨reported, hnodup.sublist hsub, hsub, hnames, hall⟩
  · rintro w operators hsetup hshaped k hk ⟨blanks, hblanks⟩
    have hplace := mem_nodes_iff.1 (hmem k hk).1
    rw [hvisit k hk]
    rcases visit_cases hsetup (hmem k hk).2 (fun x hx => hshaped.calls x (hplace.trans hx))
      (hshaped.orderly.below hplace) with ⟨-, hquiet⟩ | ⟨-, -, ⟨fault, hfault, -⟩ | hreports⟩
    · rw [hquiet]; rfl
    · cases hblanks.symm.trans hfault
    · obtain ⟨os, blanks', -, heq, -⟩ := hreports
      rw [heq]

def token (kind : String) (start stop : Nat) (role : Option String) : Node :=
  ⟨kind, start, stop, true, role, []⟩

def send (receiver : Node) (operator stop : Nat) (role : Option String) (rest : List Node) : Node :=
  ⟨"call", receiver.start, stop, true, role, [receiver,
    token "." operator (operator + 1) (some "operator"),
    token "identifier" (operator + 1) (operator + 2) (some "method")] ++ rest⟩

/-- A chain that a block closes, on it another one with a third one among its arguments. -/
def closed : Document :=
  let innermost := send (token "identifier" 0 1 (some "receiver")) 1 3 (some "receiver") []
  let inner := send innermost 3 7 (some "receiver") [token "block" 5 7 (some "block")]
  let argument := send (token "identifier" 10 11 (some "receiver")) 11 13 none []
  let called := send inner 7 14 (some "receiver")
    [⟨"argument_list", 9, 14, true, some "arguments", [argument]⟩]
  { Source.ofText "closed.rb" "x.a.b\x7b\x7d.c(y.d).e\n.f" with
    root := send (send called 14 16 (some "receiver") []) 17 19 none []
    faults := [] }

/-- The block parts the chain of two calls from the chain of three, whose first two are reported. -/
theorem chains_partition_closed :
    let p : Participant := (rule, .start closed info [] none {})
    let visits := (calls [p] closed).filter (·.participant.id == p.id)
    visits.map (fun k => (examined k.place).map path) =
        [[[], [0], [0, 0]], [], [], [[0, 0, 0], [0, 0, 0, 0]], [], [[0, 0, 3, 0]]] ∧
      visits.flatMap (fun k => k.outcome.offenses.map fun o => (o.start, o.stop)) =
        [(14, 16), (7, 9)] ∧
      ∀ c ∈ closed.top.nodes, Ruby.isCall c = true → (receiver? c).isSome →
        ∃! e, e ∈ closed.top.nodes ∧ IsOuter e ∧ c ∈ (spine e).1 := by
  intro p visits
  have hexamined : visits.map (fun k => (examined k.place).map path) =
      [[[], [0], [0, 0]], [], [], [[0, 0, 0], [0, 0, 0, 0]], [], [[0, 0, 3, 0]]] := by
    decide +kernel
  have hreported : visits.flatMap (fun k => k.outcome.offenses.map fun o => (o.start, o.stop)) =
      [(14, 16), (7, 9)] := by
    decide +kernel
  have htakes : Takes ⟨.ofEntries [⟨rule, none⟩], none, none⟩ closed [p] :=
    ⟨rfl, fun q hq => ⟨[], by obtain rfl := List.mem_singleton.1 hq; rfl⟩⟩
  have hroles : ∀ c ∈ closed.top.nodes, c.node.RolesOnce := by decide +kernel
  obtain ⟨-, hunique, -⟩ := chains_partition rfl htakes (List.mem_singleton.2 rfl)
    (List.nodup_singleton _) hroles
  exact ⟨hexamined, hreported, hunique⟩

end

end ChainBreaks

end RubyLint
