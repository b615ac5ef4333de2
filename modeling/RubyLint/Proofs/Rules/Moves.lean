import RubyLint.Proofs.Dispatch.Trace
import RubyLint.Proofs.Edit.Columns
import RubyLint.Proofs.Rules.Breaks

/-!
# The moves of a run

A run of the rule goes through the calls of a tree, each before those inside it and all in the order
in which they stand.  What it remembers at a call are the moves of the calls that it wrapped before,
and what it inserts are line breaks where they lead, and parentheses.
-/

namespace RubyLint.WrapArguments

open Cursor Ruby Edit Layout Dispatcher

variable {document : Document} {ctx : Context Memory} {s : Source} {moved : List Move}
variable {top c first first' last last' list list' x y : Cursor} {n w : Int}

/-! ## Calls with arguments -/

/-- A call of a tree with its argument list, its first and its last argument. -/
structure Supplied (top c first last list : Cursor) : Prop where
  below : Below top c
  isCall : isCall c = true
  isList : argumentList? c = some list
  isFirst : (arguments c).head? = some first
  isLast : (arguments c).getLast? = some last

namespace Supplied

theorem first_mem (h : Supplied top c first last list) : first ∈ list.children :=
  arguments_mem h.isList (List.mem_of_head? h.isFirst)

theorem last_mem (h : Supplied top c first last list) : last ∈ list.children :=
  arguments_mem h.isList (List.mem_of_getLast? h.isLast)

theorem layout (h : Supplied top c first last list) {blanks : String} :
    ∀ e ∈ wrap c first last (isParenthesized c) blanks, LayoutEdit top e :=
  wrap_layout h.below h.isCall h.isList h.isFirst h.isLast

/-- The arguments are inside the call, and the first one starts behind its start. -/
theorem spans (h : Supplied top c first last list) (htop : Proper top) :
    c.node.start < first.node.start ∧ first.node.start ≤ c.node.stop ∧
      c.node.start < last.node.stop ∧ last.node.stop ≤ c.node.stop := by
  obtain ⟨x, hx⟩ := exists_head? htop h.below h.isCall h.isFirst
  have hhead := head?_before_list htop h.below h.isCall hx h.isList
  have horderly := htop.orderly.below h.below
  have hlist := argumentList?_mem h.isList
  have horderlyL := horderly.below (.of_mem_children hlist)
  have hinside := horderly.inside (.of_mem_children (head?_mem hx))
  have hinsideL := horderly.inside (.of_mem_children hlist)
  have hinsideF := horderlyL.inside (.of_mem_children h.first_mem)
  have hinsideR := horderlyL.inside (.of_mem_children h.last_mem)
  have hforwardF := (horderlyL.below (.of_mem_children h.first_mem)).forward
  have hforwardR := (horderlyL.below (.of_mem_children h.last_mem)).forward
  omega

end Supplied

/-! ## What a visit leaves -/

def spaces (n : Int) : String :=
  String.ofList (List.replicate n.toNat ' ')

/-- What a visit leaves that wraps the arguments of its call. -/
structure Wrapped (s : Source) (w : Int) (moved : List Move) (c : Cursor) (outcome : Outcome Memory)
    (first last list : Cursor) (n : Int) : Prop where
  isList : argumentList? c = some list
  isFirst : (arguments c).head? = some first
  isLast : (arguments c).getLast? = some last
  indent : n = columnAfter s moved c.node + w
  reported : ∃ o, outcome.offenses = [o] ∧ o.rule = info.id ∧
    o.edits = wrap c first last (isParenthesized c) (spaces n)
  landed : outcome.memory.moved = landing s first n :: moved

/-- Methods that cannot be allowed keep the rule from doing anything. -/
theorem visit_disallowed [Machine] {fault : ValueFault}
    (hallowed : (ctx.option "AllowedMethods" .null).members = .error fault) (c : Cursor) :
    (visit ctx c).offenses = [] ∧ (visit ctx c).memory = ctx.memory := by
  rw [visit]
  dsimp only
  split
  next =>
    split
    · exact ⟨rfl, rfl⟩
    · simp only [hallowed, Except.mapError, Outcome.withValue]
      exact ⟨rfl, rfl⟩
  next => exact ⟨rfl, rfl⟩

/-- A visit wraps the arguments of its call and remembers the move, or it reports nothing and
remembers nothing. -/
theorem visit_wraps [Machine] (hinfo : ctx.info = info)
    (hwidth : ctx.option "IndentationWidth" (.int 2) = .int w) (hshape : CallShape c)
    (horderly : c.Orderly) :
    ((visit ctx c).offenses = [] ∧ (visit ctx c).memory = ctx.memory) ∨
      ∃ first last list n, Wrapped ctx.document.toSource w ctx.memory.moved c (visit ctx c) first
        last list n := by
  cases hallowed : (ctx.option "AllowedMethods" .null).members with
  | error fault => exact .inl (visit_disallowed hallowed c)
  | ok allowed =>
      rcases visit_cases ⟨rfl, hinfo, hwidth, hallowed⟩ hshape horderly with
        ⟨-, hquiet⟩ | ⟨first, last, list, n, hdue, hn, ⟨fault, -, hfail⟩ |
          ⟨o, blanks, hblanks, hedits, hvisit⟩⟩
      · exact .inl (by rw [hquiet]; exact ⟨rfl, rfl⟩)
      · exact .inl (by rw [hfail]; exact ⟨rfl, rfl⟩)
      · have hrule : o.rule = info.id := by
          rcases visit_reports hinfo c with hnone | ⟨_, _, o', -, -, ho', hwraps⟩
          · simp [hvisit] at hnone
          · rw [hvisit] at ho'
            obtain rfl := List.singleton_inj.1 ho'
            exact hwraps.rule
        obtain rfl := Value.blanks_int_eq_ok hblanks
        refine .inr ⟨first, last, list, n, hdue.isList, hdue.isFirst, hdue.isLast, hn, ?_, ?_⟩
        · rw [hvisit]
          exact ⟨o, rfl, hrule, hedits⟩
        · rw [hvisit]

def move? (k : Call) : Option Move :=
  if k.outcome.offenses.isEmpty then none else k.outcome.memory.moved.head?

theorem Wrapped.move?_eq {k : Call}
    (h : Wrapped s w moved k.place k.outcome first last list n) :
    move? k = some (landing s first n) := by
  obtain ⟨o, ho, -⟩ := h.reported
  simp [move?, ho, h.landed]

/-- The moves that some calls of the rule have made, the latest first. -/
def movesOf (visits : List Call) : List Move :=
  (visits.filterMap move?).reverse

theorem mem_movesOf {visits : List Call} {m : Move} :
    m ∈ movesOf visits ↔ ∃ g ∈ visits, move? g = some m := by
  simp [movesOf]

theorem movesOf_cons (k : Call) (visits : List Call) :
    movesOf (k :: visits) = movesOf visits ++ (move? k).toList := by
  cases hmove : move? k with
  | none => simp [movesOf, hmove]
  | some m => simp [movesOf, hmove]

/-- What the rule remembers at a call are the moves of the calls before it, the latest first. -/
theorem trace_wraps [Machine] {p : Participant} (hvisit : p.1.visit = visit)
    (hinfo : p.2.info = info)
    (hwidth : p.2.option "IndentationWidth" (.int 2) = .int w)
    {due : List (Participant × Cursor)}
    (hdue : ∀ next ∈ due, next.1 = p ∧ CallShape next.2 ∧ next.2.Orderly)
    {memory : String → Memory} {before after : List Call} {k : Call}
    (h : trace memory due = before ++ k :: after) :
    k.outcome.offenses = [] ∨ ∃ first last list n,
      Wrapped p.2.document.toSource w
        (movesOf before ++ (memory p.id).moved) k.place k.outcome first last
        list n := by
  induction due generalizing memory before with
  | nil => simp [trace] at h
  | cons next rest ih =>
      obtain ⟨q, c⟩ := next
      obtain ⟨⟨rfl, hshape, horderly⟩, hrest⟩ := List.forall_mem_cons.1 hdue
      have hinfo' : ({ q.2 with memory := memory q.id } : Context Memory).info = info := hinfo
      have hwraps := visit_wraps hinfo' hwidth hshape horderly
      rw [← hvisit, ← Participant.call] at hwraps
      rw [trace] at h
      cases before with
      | nil =>
          obtain ⟨rfl, -⟩ := List.cons.inj h
          rcases hwraps with ⟨hnone, -⟩ | ⟨first, last, list, n, hwrapped⟩
          · exact .inl hnone
          · exact .inr ⟨first, last, list, n, hwrapped⟩
      | cons b before =>
          obtain ⟨rfl, htail⟩ := List.cons.inj h
          have ih := ih hrest htail
          rw [Function.update_self] at ih
          rcases hwraps with ⟨hnone, hmemory⟩ | ⟨first, last, list, n, hwrapped⟩
          · have hmove : move? ⟨q, c, q.call (memory q.id) c⟩ = none := by
              simp [move?, hnone]
            rw [hmemory] at ih
            simpa [movesOf_cons, hmove] using ih
          · have hmove := hwrapped.move?_eq (k := ⟨q, c, q.call (memory q.id) c⟩)
            rw [hwrapped.landed] at ih
            simpa [movesOf_cons, hmove] using ih

/-! ## The edits of a run -/

def editsOf (visits : List Call) : List Edit :=
  visits.flatMap fun k => k.outcome.offenses.flatMap (·.edits)

/-- A run of the rule over a tree: the calls that it makes one after the other. -/
structure Traversal (s : Source) (w : Int) (top : Cursor) (visits : List Call) : Prop where
  places : ∀ k ∈ visits, Below top k.place ∧ isCall k.place = true
  ordered : visits.Pairwise fun k k' => Precedes k.place k'.place
  wraps : ∀ before k after, visits = before ++ k :: after → k.outcome.offenses = [] ∨
    ∃ first last list n, Wrapped s w (movesOf before) k.place k.outcome first last
      list n

/-- A break at which a call of the run has its arguments start a line. -/
def Breaks (visits : List Call) (f : Nat) : Prop :=
  ∃ k ∈ visits, k.outcome.offenses ≠ [] ∧
    ∃ first, (arguments k.place).head? = some first ∧ first.node.start = f

variable {visits before after : List Call} {k g : Call} {e : Edit} {outcome : Outcome Memory}
variable {b f i : Nat}

namespace Wrapped

theorem supplied (h : Wrapped s w moved c outcome first last list n) (hc : Below top c)
    (hcall : isCall c = true) : Supplied top c first last list :=
  ⟨hc, hcall, h.isList, h.isFirst, h.isLast⟩

theorem nonempty (h : Wrapped s w moved c outcome first last list n) : outcome.offenses ≠ [] := by
  obtain ⟨o, ho, -⟩ := h.reported
  simp [ho]

theorem edits_eq (h : Wrapped s w moved c outcome first last list n) :
    outcome.offenses.flatMap (·.edits) =
      wrap c first last (isParenthesized c) (spaces n) := by
  obtain ⟨o, ho, -, hedits⟩ := h.reported
  rw [ho, List.flatMap_singleton, hedits]

end Wrapped

theorem encode_break (n : Int) :
    Utf8.encode ("\n" ++ spaces n) = 10 :: List.replicate n.toNat 32 := by
  have hspaces : Utf8.encodeChars (List.replicate n.toNat ' ') = List.replicate n.toNat 32 := by
    induction n.toNat with
    | zero => rfl
    | succ count ih =>
        rw [List.replicate_succ, ← List.singleton_append, Utf8.encodeChars_append, ih]
        rfl
  have hlist : (spaces n).toList = List.replicate n.toNat ' ' := String.toList_ofList
  rw [Utf8.encode, String.toList_append, Utf8.encodeChars_append, hlist, hspaces]
  rfl

theorem break_ne (n : Int) : "\n" ++ spaces n ≠ ")" := by
  intro h
  have hencoded := encode_break n
  rw [h] at hencoded
  exact absurd (List.cons.inj hencoded).1 (by decide)

/-- The edits of a call that is wrapped: behind the break there is at most a closing parenthesis. -/
theorem wrap_split (c first last : Cursor) (parenthesized : Bool) (blanks : String) :
    ∃ opening closing, wrap c first last parenthesized blanks =
        opening ++ ⟨first.node.start, first.node.start, "\n" ++ blanks⟩ :: closing ∧
      ∀ e ∈ closing, e = ⟨last.node.stop, last.node.stop, ")"⟩ := by
  rw [wrap]
  cases parenthesized with
  | true => exact ⟨[], [], rfl, by simp⟩
  | false => exact ⟨_, [⟨last.node.stop, last.node.stop, ")"⟩], rfl, by simp⟩

/-- The closing parenthesis of a call that is wrapped stands behind its last argument. -/
theorem eq_closing (he : e ∈ wrap c first last (isParenthesized c) (spaces n))
    (hrepl : e.replacement = ")") : e = ⟨last.node.stop, last.node.stop, ")"⟩ := by
  rcases wrap_cases he with rfl | ⟨-, ⟨m, -, rfl⟩ | rfl | rfl⟩
  · exact absurd hrepl (break_ne n)
  · simp at hrepl
  · simp at hrepl
  · rfl

/-- Away from the first argument nothing is inserted but a closing parenthesis. -/
theorem closing_of_aside {blanks : String}
    (he : e ∈ wrap c first last (isParenthesized c) blanks) (hinsertion : e.isInsertion = true)
    (haside : e.start ≠ first.node.start) : e.replacement = ")" := by
  rcases wrap_cases he with rfl | ⟨-, ⟨m, -, rfl⟩ | rfl | rfl⟩
  · exact absurd rfl haside
  · exact absurd (isInsertion_iff.1 hinsertion) haside
  · exact absurd rfl haside
  · rfl

namespace Traversal

variable (h : Traversal s w top visits)

include h

theorem exists_wrapped (hk : k ∈ visits) (hne : k.outcome.offenses ≠ []) :
    ∃ moved first last list n, Wrapped s w moved k.place k.outcome first last list n := by
  obtain ⟨before, after, hsplit⟩ := List.append_of_mem hk
  rcases h.wraps before k after hsplit with hnone | ⟨first, last, list, n, hwrapped⟩
  · exact absurd hnone hne
  · exact ⟨_, first, last, list, n, hwrapped⟩

/-- Every edit of a call is one of those that wrap its arguments. -/
theorem of_mem_visit (hk : k ∈ visits) (he : e ∈ k.outcome.offenses.flatMap (·.edits)) :
    ∃ moved first last list n, Wrapped s w moved k.place k.outcome first last list n ∧
      Supplied top k.place first last list ∧
      e ∈ wrap k.place first last (isParenthesized k.place) (spaces n) := by
  have hne : k.outcome.offenses ≠ [] := by
    intro hnone
    simp [hnone] at he
  obtain ⟨moved, first, last, list, n, hwrapped⟩ := h.exists_wrapped hk hne
  rw [hwrapped.edits_eq] at he
  obtain ⟨hc, hcall⟩ := h.places k hk
  exact ⟨moved, first, last, list, n, hwrapped, hwrapped.supplied hc hcall, he⟩

theorem of_mem_edits (he : e ∈ editsOf visits) :
    ∃ k ∈ visits, ∃ moved first last list n,
      Wrapped s w moved k.place k.outcome first last list n ∧
      Supplied top k.place first last list ∧
      e ∈ wrap k.place first last (isParenthesized k.place) (spaces n) := by
  obtain ⟨k, hk, he⟩ := List.mem_flatMap.1 he
  exact ⟨k, hk, h.of_mem_visit hk he⟩

/-- Every offense of a call wraps its arguments. -/
theorem of_mem_offenses {o : Offense} (hsplit : visits = before ++ k :: after)
    (ho : o ∈ k.outcome.offenses) :
    ∃ first last list n, Wrapped s w (movesOf before) k.place k.outcome first last
        list n ∧ Supplied top k.place first last list ∧ o.rule = info.id ∧
      o.edits = wrap k.place first last (isParenthesized k.place) (spaces n) := by
  rcases h.wraps before k after hsplit with hnone | ⟨first, last, list, n, hwrapped⟩
  · rw [hnone] at ho
    nomatch ho
  · obtain ⟨hbelow, hcall⟩ := h.places k (hsplit ▸ List.mem_append_right _ List.mem_cons_self)
    obtain ⟨o', ho', hrule, hedits⟩ := hwrapped.reported
    rw [ho', List.mem_singleton] at ho
    obtain rfl := ho
    exact ⟨first, last, list, n, hwrapped, hwrapped.supplied hbelow hcall, hrule, hedits⟩

theorem layout (he : e ∈ editsOf visits) : LayoutEdit top e := by
  obtain ⟨k, -, moved, first, last, list, n, -, hsupplied, he⟩ := h.of_mem_edits he
  exact hsupplied.layout e he

theorem forward (he : e ∈ editsOf visits) : 0 ≤ e.start := by
  obtain ⟨⟨x, -, hstart⟩, -⟩ := (h.layout he).edges
  omega

/-- Closing parentheses are inserted. -/
theorem mark : Mark (editsOf visits) ")" 41 where
  encoded := by decide
  plain := by decide
  inserted e he hrepl := by
    obtain ⟨k, -, moved, first, last, list, n, -, -, he⟩ := h.of_mem_edits he
    simp [eq_closing he hrepl, isInsertion]

/-- Where no line is broken nothing is inserted but closing parentheses. -/
theorem marked (he : e ∈ editsOf visits) (hinsertion : e.isInsertion = true)
    (hquiet : ∀ f, Breaks visits f → e.start ≠ (f : Int)) : e.replacement = ")" := by
  obtain ⟨k, hk, moved, first, last, list, n, hwrapped, -, he⟩ := h.of_mem_edits he
  have haside := hquiet first.node.start
    ⟨k, hk, hwrapped.nonempty, first, hwrapped.isFirst, rfl⟩
  exact closing_of_aside he hinsertion haside

variable (htop : Proper top) (hc : Supplied top c first last list)
  (hb : ∀ f, Breaks visits f → f ≤ c.node.start → f ≤ b)

include htop hc hb in
/-- From the last break before a call to its start no byte is replaced. -/
theorem kept (hi : b ≤ i) (hic : i ≤ c.node.start) :
    isCovered (editsOf visits) i = false ∧ replacedAt (editsOf visits) i = [] := by
  have hcspans := hc.spans htop
  have hnone : ∀ e ∈ editsOf visits, e.isInsertion = false →
      ¬(e.start ≤ (i : Int) ∧ (i : Int) < e.stop) := by
    rintro e he hreplace ⟨hlow, hhigh⟩
    obtain ⟨k, hk, moved, first', last', list', n, hwrapped, hsupplied, he⟩ := h.of_mem_edits he
    have hbreak := hb first'.node.start ⟨k, hk, hwrapped.nonempty, first', hwrapped.isFirst, rfl⟩
    rcases wrap_cases he with rfl | ⟨hbare, ⟨m, hm, rfl⟩ | rfl | rfl⟩
    · simp [isInsertion] at hreplace
    · simp only at hlow hhigh
      -- The call would reach into a gap, but it has children and does not lie around it.
      have hgap : Gap k.place m list' first' := ⟨hm, hsupplied.isList, hsupplied.isFirst, hbare⟩
      have hshape := htop.calls _ hsupplied.below hsupplied.isCall
      have hinside := hgap.inside hshape (htop.orderly.below hsupplied.below)
      have hchildren := List.ne_nil_of_mem (node_mem_children (argumentList?_mem hc.isList))
      rcases hgap.reached hshape htop.orderly hsupplied.below hc.below (by omega) (by omega) with
        haround | rfl | ⟨-, -, hleaf⟩ | ⟨-, -, hleaf⟩
      · have := (htop.orderly.below hc.below).inside haround
        omega
      · simpa [not_isCall_argumentList hsupplied.isList] using hc.isCall
      · exact hchildren hleaf
      · exact hchildren hleaf
    · simp [isInsertion] at hreplace
    · simp [isInsertion] at hreplace
  constructor
  · rw [isCovered, List.any_eq_false]
    intro e he hcovers
    obtain ⟨hreplace, hlow, hhigh⟩ := covers_iff.1 hcovers
    exact hnone e he hreplace ⟨hlow, hhigh⟩
  · refine replacedAt_eq_nil fun e he hreplace hstart => ?_
    have hle := (h.layout he).forward htop.toShaped
    have hne := isInsertion_eq_false_iff.1 hreplace
    exact hnone e he hreplace ⟨by omega, by omega⟩

include htop hc in
/-- The first byte of a call with arguments stays what it is. -/
theorem getElem?_landed {data : List UInt8} (hstop : top.node.stop ≤ data.length) :
    (positional data (editsOf visits))[carryStart data (editsOf visits) c.node.start]? =
      data[c.node.start]? := by
  have hspans := hc.spans htop
  have hend := (htop.orderly.inside hc.below).2
  obtain ⟨hcovered, hreplaced⟩ :=
    h.kept htop hc (fun f _ hle => hle) (Nat.le_refl _) (Nat.le_refl _)
  exact getElem?_carryStart (by omega) hcovered hreplaced

/-- A line starts at the first argument of the last call that is wrapped there. -/
theorem lineStart_break (data : List UInt8) (hsplit : visits = before ++ g :: after)
    (hwrapped : Wrapped s w moved g.place g.outcome first last list n)
    (hlast : ∀ f, Breaks after f → f ≠ first.node.start) :
    ∃ early late,
      LineStart data (editsOf visits) early late ")" first.node.start n.toNat := by
  obtain ⟨opening, closing, hwrap, hclosing⟩ :=
    wrap_split g.place first last (isParenthesized g.place) (spaces n)
  have hedits : editsOf visits = editsOf before ++ opening ++
      [⟨first.node.start, first.node.start, "\n" ++ spaces n⟩] ++ (closing ++ editsOf after) := by
    rw [hsplit, editsOf, List.flatMap_append, List.flatMap_cons, hwrapped.edits_eq, hwrap]
    simp [editsOf]
  have hclosed : ∀ e ∈ closing ++ editsOf after, e.isInsertion = true →
      e.start = (first.node.start : Int) → e.replacement = ")" := by
    intro e he hinsertion heq
    rcases List.mem_append.1 he with he | he
    · rw [hclosing e he]
    · obtain ⟨k, hk, he⟩ := List.mem_flatMap.1 he
      obtain ⟨moved', first', last', list', n', hwrapped', -, he⟩ :=
        h.of_mem_visit (hsplit ▸ List.mem_append_right _ (List.mem_cons_of_mem g hk)) he
      have hne := hlast _ ⟨k, hk, hwrapped'.nonempty, first', hwrapped'.isFirst, rfl⟩
      exact closing_of_aside he hinsertion (by omega)
  have hstart : LineStart data (editsOf visits) _ _ ")" first.node.start
      (List.replicate n.toNat (32 : UInt8)).length :=
    h.mark.lineStart_break hedits (by simp [isInsertion]) rfl (encode_break n) (by simp) hclosed
  rw [List.length_replicate] at hstart
  exact ⟨_, _, hstart⟩

/-- The moves of a run are where its breaks are. -/
theorem of_move (hk : k ∈ visits) {m : Move} (hm : move? k = some m) :
    ∃ moved first last list n, Wrapped s w moved k.place k.outcome first last list n ∧
      Supplied top k.place first last list ∧ m = landing s first n := by
  have hne : k.outcome.offenses ≠ [] := by
    intro hnone
    simp [move?, hnone] at hm
  obtain ⟨moved, first, last, list, n, hwrapped⟩ := h.exists_wrapped hk hne
  obtain ⟨hbelow, hcall⟩ := h.places k hk
  refine ⟨moved, first, last, list, n, hwrapped, hwrapped.supplied hbelow hcall, ?_⟩
  exact Option.some.inj (hm.symm.trans hwrapped.move?_eq)

/-- Where a line is broken a call has made a move. -/
theorem exists_move {some' : List Call} (hsub : some' ⊆ visits) (hf : Breaks some' f) :
    ∃ g ∈ some', ∃ m ∈ move? g, m.start = f ∧ m.line = s.lines.lineOf f := by
  obtain ⟨g, hg, hne, x, hx, rfl⟩ := hf
  obtain ⟨moved, first, last, list, n, hwrapped⟩ := h.exists_wrapped (hsub hg) hne
  obtain rfl := Option.some.inj (hx.symm.trans hwrapped.isFirst)
  exact ⟨g, hg, _, hwrapped.move?_eq, rfl, rfl⟩

include htop in
/-- A call and those after it break lines behind its start. -/
theorem start_lt_move (hsplit : visits = before ++ k :: after)
    (hsupplied : Supplied top k.place first last list) (hg : g ∈ k :: after) {m : Move}
    (hm : move? g = some m) : k.place.node.start < m.start := by
  obtain ⟨-, first', last', list', n', -, hsupplied', rfl⟩ :=
    h.of_move (hsplit ▸ List.mem_append_right _ hg) hm
  have hspans := hsupplied'.spans htop
  change k.place.node.start < first'.node.start
  rcases List.mem_cons.1 hg with rfl | hg
  · exact hspans.1
  · have hordered := h.ordered
    rw [hsplit, List.pairwise_append, List.pairwise_cons] at hordered
    rcases hordered.2.1.1 g hg with ⟨hbelow, -⟩ | hapart
    · have := (htop.orderly.below hsupplied.below).inside hbelow
      omega
    · have := (htop.orderly.below hsupplied.below).forward
      omega

end Traversal

/-- The calls that the rule makes on its own run over a document are a traversal of its tree. -/
theorem traversal_calls [Machine] {config : Option Config} {logs : List Log}
    (htop : Proper document.top)
    (hcontext : context config document rule = .ok (ctx, logs))
    (hwidth : ctx.option "IndentationWidth" (.int 2) = .int w) :
    Traversal document.toSource w document.top (calls [(rule, ctx)] document) := by
  obtain ⟨options, severity, hstart⟩ := context_eq_ok hcontext
  have hids : (([(rule, ctx)] : List Participant).map (·.id)).Nodup := List.nodup_singleton _
  have hplaces : ((calls [(rule, ctx)] document).filter
      (·.participant.id == Participant.id (rule, ctx))).map (·.place) =
        document.top.nodes.filter fun c => rule.info.kinds.contains c.node.kind :=
    map_place_calls (List.mem_singleton_self (rule, ctx)) hids (List.nodup_singleton "call")
  constructor
  · intro k hk
    obtain ⟨hp, hplace, hkind, -⟩ := of_mem_calls hk
    rw [List.mem_singleton.1 hp] at hkind
    exact ⟨mem_nodes_iff.1 hplace, by simpa [isCall, rule, info] using hkind⟩
  · have hall : (calls [(rule, ctx)] document).filter
        (·.participant.id == Participant.id (rule, ctx)) = calls [(rule, ctx)] document := by
      refine List.filter_eq_self.2 fun k hk => ?_
      rw [List.mem_singleton.1 (of_mem_calls hk).1, beq_self_eq_true]
    have hordered := htop.orderly.pairwise_nodes.filter fun c =>
      rule.info.kinds.contains c.node.kind
    rwa [← hplaces, hall, List.pairwise_map] at hordered
  · intro before k after hsplit
    have hdue : ∀ next ∈ schedule [(rule, ctx)] document.top.nodes,
        next.1 = (rule, ctx) ∧ CallShape next.2 ∧ next.2.Orderly := by
      intro next hnext
      obtain ⟨hplace, hp, hkind⟩ := mem_schedule.1 hnext
      have hp := List.mem_singleton.1 hp
      rw [hp] at hkind
      have hbelow := mem_nodes_iff.1 hplace
      exact ⟨hp, htop.calls _ hbelow (by simpa [isCall, rule, info] using hkind),
        htop.orderly.below hbelow⟩
    have hwraps := trace_wraps rfl (context_info hcontext) hwidth hdue hsplit
    have hdocument : ctx.document = document := by rw [hstart]; rfl
    rw [hdocument] at hwraps
    simpa using hwraps

end RubyLint.WrapArguments
