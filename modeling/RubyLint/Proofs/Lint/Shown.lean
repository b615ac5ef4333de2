import RubyLint.Proofs.Lint

/-!
# The offenses that a report shows

Findings are sorted twice: rule by rule for the correction, and then, without those that the text
suppresses, by place for the report.  Both sorts keep the order of findings that they do not tell
apart.  So the report shows the findings by start, end, rank of the rule and order of emission, as
if they had been sorted once, and a limit keeps the first ones of this order.
-/

namespace RubyLint

namespace Finding

variable {ranks : Ranks} {a b : Finding}

/-- The order of a report: by start, then by end, then by the rank of the rule, then by the order of
emission. -/
def Before (ranks : Ranks) (a b : Finding) : Prop :=
  a.offense.start < b.offense.start ∨ a.offense.start = b.offense.start ∧
    (a.offense.stop < b.offense.stop ∨ a.offense.stop = b.offense.stop ∧
      (rankOf ranks a.offense.rule < rankOf ranks b.offense.rule ∨
        rankOf ranks a.offense.rule = rankOf ranks b.offense.rule ∧ a.serial < b.serial))

theorem placedBefore_iff : placedBefore ranks a b = true ↔
    a.offense.start < b.offense.start ∨ a.offense.start = b.offense.start ∧
      (a.offense.stop < b.offense.stop ∨ a.offense.stop = b.offense.stop ∧
        rankOf ranks a.offense.rule ≤ rankOf ranks b.offense.rule) := by
  simp [placedBefore]

theorem placedBefore_trans (ranks : Ranks) (a b c : Finding) (hab : placedBefore ranks a b = true)
    (hbc : placedBefore ranks b c = true) : placedBefore ranks a c = true := by
  rw [placedBefore_iff] at *
  omega

theorem placedBefore_total (ranks : Ranks) (a b : Finding) :
    (placedBefore ranks a b || placedBefore ranks b a) = true := by
  rw [Bool.or_eq_true, placedBefore_iff, placedBefore_iff]
  omega

/-- The order of a report is that by place, with ties settled by the order of emission. -/
theorem before_iff : Before ranks a b ↔ placedBefore ranks a b = true ∧
    (placedBefore ranks b a = true →
      rankOf ranks b.offense.rule ≤ rankOf ranks a.offense.rule → a.serial < b.serial) := by
  rw [Before, placedBefore_iff, placedBefore_iff]
  omega

theorem Before.asymm (h : Before ranks a b) : ¬Before ranks b a := by
  rw [Before] at *
  omega

/-- Offenses are numbered in their order. -/
theorem number_pairwise (offenses : List Offense) :
    (number offenses).Pairwise fun a b => a.serial < b.serial := by
  rw [List.pairwise_iff_getElem]
  intro i j hi hj hij
  simpa [number] using hij

/-- Findings that stand in the order of emission within each rank are sorted into the order of a
report. -/
theorem byPlace_pairwise {findings : List Finding} (h : findings.Pairwise fun a b =>
      rankOf ranks b.offense.rule ≤ rankOf ranks a.offense.rule → a.serial < b.serial) :
    (byPlace ranks findings).Pairwise (Before ranks) := by
  have hstable := pairwise_mergeSort_stable (placedBefore_trans ranks) (placedBefore_total ranks) h
  exact hstable.imp before_iff.2

theorem map_byRule (ranks : Ranks) (findings : List Finding) :
    (byRule ranks findings).map (·.offense) =
      (findings.map (·.offense)).mergeSort fun a b => rankOf ranks a.rule ≤ rankOf ranks b.rule :=
  List.map_mergeSort fun _ _ _ _ => rfl

/-- Sorting by place sees nothing of a finding but its offense. -/
theorem map_byPlace_congr {findings others : List Finding}
    (h : findings.map (·.offense) = others.map (·.offense)) :
    (byPlace ranks findings).map (·.offense) = (byPlace ranks others).map (·.offense) := by
  have hmap : ∀ xs : List Finding, (byPlace ranks xs).map (·.offense) =
      (xs.map (·.offense)).mergeSort fun a b => placedBefore ranks ⟨0, a⟩ ⟨0, b⟩ :=
    fun xs => List.map_mergeSort fun _ _ _ _ => rfl
  rw [hmap, hmap, h]

end Finding

def Suppression.shows (text : String) (f : Finding) : Bool :=
  !Text.occursIn "treecop".toList text.toList ||
    !isSuppressed (ofText text) f.offense.rule f.offense.start

theorem Suppression.keep_eq_filter (text : String) (findings : List Finding) :
    keep text findings = findings.filter (shows text) := by
  cases findings with
  | nil => rfl
  | cons f rest =>
      rw [keep, List.isEmpty_cons, Bool.false_or]
      cases hnamed : Text.occursIn "treecop".toList text.toList with
      | true =>
          refine List.filter_congr fun f _ => ?_
          rw [shows, hnamed]
          rfl
      | false =>
          symm
          rw [Bool.not_false, if_pos rfl, List.filter_eq_self]
          intro f _
          rw [shows, hnamed]
          rfl

namespace Investigation

variable {i j : Investigation}

/-- The offenses of the rules of one rank, in the order of emission. -/
def ofRank (i : Investigation) (rank : Int) : List Offense :=
  i.offenses.filter fun o => Finding.rankOf i.ranks o.rule = rank

theorem ordered_pairwise (i : Investigation) : i.ordered.Pairwise fun a b =>
    Finding.rankOf i.ranks b.offense.rule ≤ Finding.rankOf i.ranks a.offense.rule →
      a.serial < b.serial := by
  have hstable := pairwise_mergeSort_stable
    (trans_of_key fun f : Finding => Finding.rankOf i.ranks f.offense.rule)
    (total_of_key fun f : Finding => Finding.rankOf i.ranks f.offense.rule)
    (Finding.number_pairwise i.offenses)
  exact hstable.imp fun ⟨_, hserial⟩ hle => hserial (decide_eq_true hle)

theorem ordered_perm (i : Investigation) : i.ordered.Perm i.findings :=
  List.mergeSort_perm _ _

theorem sorted_perm (i : Investigation) : i.sorted.Perm i.findings :=
  List.mergeSort_perm _ _

/-- The findings by place are in the order of a report. -/
theorem sorted_pairwise (i : Investigation) : i.sorted.Pairwise (Finding.Before i.ranks) := by
  apply Finding.byPlace_pairwise
  refine List.Pairwise.imp ?_ (Finding.number_pairwise i.offenses)
  intro a b hserial _
  exact hserial

/-- Leaving out findings before they are sorted by place or after is the same. -/
theorem byPlace_filter (i : Investigation) (keep : Finding → Bool) :
    Finding.byPlace i.ranks (i.ordered.filter keep) = i.sorted.filter keep := by
  have hperm : (Finding.byPlace i.ranks (i.ordered.filter keep)).Perm (i.sorted.filter keep) :=
    calc
      List.Perm _ (i.ordered.filter keep) := List.mergeSort_perm _ _
      List.Perm _ (i.findings.filter keep) := i.ordered_perm.filter keep
      List.Perm _ (i.sorted.filter keep) := (i.sorted_perm.filter keep).symm
  have hplaced := Finding.byPlace_pairwise (i.ordered_pairwise.filter keep)
  refine hperm.eq_of_pairwise ?_ hplaced (i.sorted_pairwise.filter keep)
  intro a b _ _ hab hba
  exact absurd hba hab.asymm

/-- Sorting the findings rule by rule first makes no difference to their order by place. -/
theorem byPlace_ordered (i : Investigation) : Finding.byPlace i.ranks i.ordered = i.sorted := by
  have hall := i.byPlace_filter fun _ => true
  rwa [List.filter_true, List.filter_true] at hall

/-- How the offenses of different ranks were interleaved is not seen by place. -/
theorem sorted_congr (hranks : j.ranks = i.ranks) (h : ∀ rank, j.ofRank rank = i.ofRank rank) :
    j.sorted.map (·.offense) = i.sorted.map (·.offense) := by
  have hordered : j.ordered.map (·.offense) = i.ordered.map (·.offense) := by
    rw [ordered, ordered, Finding.map_byRule, Finding.map_byRule, findings, findings,
      Finding.map_offense_number, Finding.map_offense_number, hranks]
    refine mergeSort_congr fun rank => ?_
    have hrank := h rank
    rwa [ofRank, ofRank, hranks] at hrank
  rw [← j.byPlace_ordered, ← i.byPlace_ordered, hranks]
  exact Finding.map_byPlace_congr hordered

/-- The findings that a report shows, before it is cut. -/
theorem byPlace_kept (i : Investigation) (text : String) :
    Finding.byPlace i.ranks (i.kept text) = i.sorted.filter (Suppression.shows text) := by
  rw [kept, Suppression.keep_eq_filter, byPlace_filter]

end Investigation

/-- A positive limit keeps the first elements of a list. -/
theorem Config.cutTo_pos {α : Type} {k : Nat} (hk : 1 ≤ k) (xs : List α) :
    Config.cutTo k xs = xs.take k := by
  rw [Config.cutTo]
  split
  next hfew => rw [List.take_of_length_le (by omega)]
  next => rw [if_pos (Int.natCast_pos.2 hk), Int.toNat_natCast]

namespace FileReport

/-- A file whose text parses is reported with its findings by place, cut to the limit, whether it is
corrected or not; only bytes that are no text after a correction break the report off. -/
theorem ofText_offenses {parser : Parser} {d : Dispatcher} {limit : Value} {path text : String}
    {document : Document} {i : Investigation} {shown : List Finding}
    (hparse : parser.document? path text = .ok (some document)) (hfaults : document.faults = [])
    (hi : d.investigate document = .ok i)
    (hshown : Config.cut limit (i.sorted.filter (Suppression.shows text)) = .ok shown)
    (fix : Bool) :
    (∃ report, (ofText parser d limit fix path text).1 = .ok report ∧ report.offenses = shown) ∨
      (fix = true ∧ ∃ error, (ofText parser d limit fix path text).1 =
        .error (.undecodable error)) := by
  rw [← i.byPlace_kept] at hshown
  rw [ofText_parsed hparse hfaults hi]
  cases fix with
  | false =>
      rw [ofInvestigation_false, hshown]
      exact .inl ⟨_, rfl, rfl⟩
  | true =>
      rw [ofInvestigation_true hshown]
      cases hcorrection : Correction.ofFindings i.ranks text (i.kept text) with
      | ok correction =>
          rw [correct_of_ok (investigated i path text []) hcorrection]
          exact .inl ⟨_, rfl, rfl⟩
      | error fault =>
          cases fault with
          | edit fault =>
              rw [correct_of_edit (investigated i path text []) hcorrection]
              exact .inl ⟨_, rfl, rfl⟩
          | undecodable error =>
              rw [correct_of_undecodable (investigated i path text []) hcorrection]
              exact .inr ⟨rfl, error, rfl⟩

/-- Findings that are sorted by place after some of them were left out are those that are left of
the findings sorted by place: the ones that were kept, in the order of a report.  Rules of a
registry are ranked by their place there, all others after them, and how the offenses of different
ranks were interleaved makes no difference.  So the report of a text under a limit shows the first
findings of this order that the text does not suppress. -/
theorem ofText_first (i : Investigation) :
    (∀ keep : Finding → Bool,
      Finding.byPlace i.ranks (i.ordered.filter keep) = i.sorted.filter keep ∧
        (i.sorted.filter keep).Perm (i.findings.filter keep) ∧
        (i.sorted.filter keep).Pairwise (Finding.Before i.ranks)) ∧
    (∀ ids, i.ranks = Finding.ranksOf ids → ∀ rule, Finding.rankOf i.ranks rule = ids.idxOf rule) ∧
    (∀ j : Investigation, j.ranks = i.ranks → (∀ rank, j.ofRank rank = i.ofRank rank) →
      j.sorted.map (·.offense) = i.sorted.map (·.offense)) ∧
    ∀ (parser : Parser) (d : Dispatcher) (path text : String) (document : Document),
      parser.document? path text = .ok (some document) → document.faults = [] →
      d.investigate document = .ok i →
      i.ranks = Finding.ranksOf d.registry.ids ∧
        ∀ (k : Nat) (fix : Bool), 1 ≤ k →
          (∃ report, (ofText parser d (.int k) fix path text).1 = .ok report ∧
            report.offenses = (i.sorted.filter (Suppression.shows text)).take k) ∨
          (fix = true ∧ ∃ error, (ofText parser d (.int k) fix path text).1 =
            .error (.undecodable error)) := by
  refine ⟨?_, ?_, ?_, ?_⟩
  · intro keep
    exact ⟨i.byPlace_filter keep, i.sorted_perm.filter keep, i.sorted_pairwise.filter keep⟩
  · intro ids hids rule
    rw [hids, Finding.rankOf_ranksOf]
  · intro j hranks hsame
    exact Investigation.sorted_congr hranks hsame
  · intro parser d path text document hparse hfaults hi
    have hranks : i.ranks = Finding.ranksOf d.registry.ids := by
      obtain ⟨session, -, hdone⟩ := bind_eq_ok hi
      obtain rfl := Except.ok.inj hdone
      rfl
    refine ⟨hranks, fun k fix hk => ofText_offenses hparse hfaults hi ?_ fix⟩
    rw [Config.cut_int, Config.cutTo_pos hk]

/-- A rule of a given id that remarks on the nodes of one kind. -/
def remarking (id kind : String) : Rule Memory :=
  .scripted { id, category := "test", kinds := [kind] }
    [.report ⟨.node, false, [], some "seen", none, .null, []⟩] none

/-- Two rules that report the same range; the second one is called first. -/
def crossing : Dispatcher :=
  ⟨.ofEntries [⟨remarking "early" "identifier", none⟩, ⟨remarking "late" "program", none⟩], none,
    none⟩

/-- The rules and ranges of the offenses in a word, and the ranks of the rules. -/
def emitted (d : Dispatcher) (path text : String) :
    Option (List (String × Int × Int) × Finding.Ranks) :=
  (d.investigate (wordDocument path text)).toOption.map fun i =>
    (i.offenses.map fun o => (o.rule, o.start, o.stop), i.ranks)

/-- Two offenses at one place are sorted by the ranks of their rules. -/
theorem sorted_of_crossing {i : Investigation}
    (hoffenses : (i.offenses.map fun o => (o.rule, o.start, o.stop)) =
      [("late", 0, 2), ("early", 0, 2)])
    (hranks : i.ranks = [("early", 0), ("late", 1)]) :
    i.sorted.map (·.offense.rule) = ["early", "late"] := by
  obtain ⟨first, rest, hcons, hfirst, hrest⟩ := List.map_eq_cons_iff.1 hoffenses
  obtain ⟨second, rest, rfl, hsecond, hrest⟩ := List.map_eq_cons_iff.1 hrest
  obtain rfl := List.map_eq_nil_iff.1 hrest
  simp only [Prod.mk.injEq] at hfirst hsecond
  obtain ⟨hrule, hstart, hstop⟩ := hfirst
  obtain ⟨hrule', hstart', hstop'⟩ := hsecond
  have hlater : Finding.placedBefore i.ranks ⟨0, first⟩ ⟨1, second⟩ = false := by
    rw [Finding.placedBefore, hrule, hstart, hstop, hrule', hstart', hstop', hranks]
    decide
  have hsorted : i.sorted = [⟨1, second⟩, ⟨0, first⟩] := by
    rw [Investigation.sorted, Investigation.findings, hcons, Finding.byPlace]
    simp only [Finding.number, List.mapIdx_cons, List.mapIdx_nil, mergeSort_pair]
    rw [hlater, if_neg Bool.false_ne_true]
  rw [hsorted, List.map_cons, List.map_cons, List.map_nil, hrule, hrule']

/-- Of two offenses at one place the report shows the one whose rule was registered first. -/
theorem ofText_first_crossing :
    emitted crossing "a.rb" "xy" =
      some ([("late", 0, 2), ("early", 0, 2)], [("early", 0), ("late", 1)]) ∧
    ∃ report, (ofText (some word) crossing (.int 1) false "a.rb" "xy").1 = .ok report ∧
      report.offenses.map (·.offense.rule) = ["early"] := by
  have hemitted : emitted crossing "a.rb" "xy" =
      some ([("late", 0, 2), ("early", 0, 2)], [("early", 0), ("late", 1)]) := by
    decide +kernel
  refine ⟨hemitted, ?_⟩
  obtain ⟨i, hi, hsummary⟩ := Option.map_eq_some_iff.1 hemitted
  obtain ⟨hoffenses, hranks⟩ := Prod.mk.inj hsummary
  obtain ⟨-, -, -, hshown⟩ := ofText_first i
  obtain ⟨-, hlimit⟩ := hshown (some word) crossing "a.rb" "xy" (wordDocument "a.rb" "xy")
    (document?_word "a.rb" "xy") rfl (toOption_eq_some hi)
  have hall : i.sorted.filter (Suppression.shows "xy") = i.sorted := by
    rw [List.filter_eq_self]
    intro f _
    rw [Suppression.shows, show Text.occursIn "treecop".toList "xy".toList = false by decide]
    rfl
  rcases hlimit 1 false (Nat.le_refl 1) with ⟨report, hreport, hfirst⟩ | ⟨hfix, -⟩
  · refine ⟨report, hreport, ?_⟩
    rw [hfirst, hall, List.map_take, sorted_of_crossing hoffenses hranks]
    rfl
  · nomatch hfix

end FileReport

end RubyLint
