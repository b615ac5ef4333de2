import RubyLint.Edit.Correction
import RubyLint.Proofs.Edit.Positional
import RubyLint.Proofs.Offense
import RubyLint.Proofs.Steps
import RubyLint.Proofs.Text.Utf8

/-!
# Corrections of findings

A correction collects the edits of all findings, whatever their order, into one script.  If no edit
leaves the text and no two of them overlap, the script is accepted, and the bytes of the corrected
text are read off offset by offset.
-/

namespace RubyLint

open Edit

namespace Edit

/-- Edits that fit together on a text: none is inverted or leaves the text, and no two of them touch
the same bytes. -/
def Fit (text : String) (edits : List Edit) : Prop :=
  (∀ e ∈ edits, ¬e.Misplaced (Utf8.encode text).length) ∧
    ∀ a ∈ edits, ∀ b ∈ edits, ¬Overlap a b

instance (text : String) (edits : List Edit) : Decidable (Fit text edits) :=
  inferInstanceAs (Decidable (_ ∧ _))

/-- The edits that can be arranged are those that fit together. -/
theorem exists_arranged_iff {text : String} {pending : List OwnedEdit} :
    (∃ arranged, arrange (Utf8.encode text).length pending = .ok arranged) ↔
      Fit text (pending.map (·.edit)) := by
  constructor
  · rintro ⟨arranged, harranged⟩
    obtain ⟨hwithin, rfl, hsettled⟩ := arrange_eq_ok harranged
    constructor
    · intro e he
      obtain ⟨x, hx, rfl⟩ := List.mem_map.1 he
      exact hwithin x hx
    · intro a ha b hb
      -- Dropping repeated replacements leaves an entry with the same edit.
      obtain ⟨x, hx, rfl⟩ := List.mem_map.1 ha
      obtain ⟨y, hy, rfl⟩ := List.mem_map.1 hb
      obtain ⟨x', hx', hxx⟩ := exists_mem_sorted hx
      obtain ⟨y', hy', hyy⟩ := exists_mem_sorted hy
      rw [← hxx, ← hyy]
      exact hsettled.not_overlap x' hx' y' hy'
  · rintro ⟨hwithin, hclear⟩
    refine ⟨_, arrange_of_no_overlap ?_ ?_⟩
    · intro x hx
      exact hwithin _ (List.mem_map_of_mem hx)
    · intro x hx y hy
      exact hclear _ (List.mem_map_of_mem hx) _ (List.mem_map_of_mem hy)

/-- Edits that cut no character leave the bytes of a text. -/
theorem exists_splice {text : String} {edits : List Edit}
    (hedges : ∀ e ∈ edits, Utf8.Between text e.start.toNat ∧ Utf8.Between text e.stop.toNat)
    {position : Nat} (hposition : Utf8.Between text position) :
    ∃ cs, splice (Utf8.encode text) position edits = Utf8.encodeChars cs := by
  induction edits generalizing position with
  | nil => exact hposition.exists_drop
  | cons e rest ih =>
      obtain ⟨hstart, hstop⟩ := hedges e List.mem_cons_self
      obtain ⟨kept, hkept⟩ := hposition.exists_take hstart
      obtain ⟨later, hlater⟩ := ih (fun e' he' => hedges e' (List.mem_cons_of_mem e he')) hstop
      refine ⟨kept ++ e.replacement.toList ++ later, ?_⟩
      rw [splice, hkept, hlater, Utf8.encodeChars_append, Utf8.encodeChars_append]
      rfl

/-- What is left of a text by edits that fit together and cut no character is a text. -/
theorem Fit.exists_decode {text : String} {edits : List Edit} (h : Fit text edits)
    (hedges : ∀ e ∈ edits, Utf8.Between text e.start.toNat ∧ Utf8.Between text e.stop.toNat) :
    ∃ corrected, Utf8.decode (positional (Utf8.encode text) edits) = .ok corrected := by
  let pending : List OwnedEdit := edits.map fun e => ⟨e, none⟩
  have hedits : pending.map (·.edit) = edits := by simp [pending, Function.comp_def]
  rw [← hedits] at h
  obtain ⟨arranged, harranged⟩ := exists_arranged_iff.2 h
  obtain ⟨-, rfl, -⟩ := arrange_eq_ok harranged
  have harrangedEdges : ∀ e ∈ (sorted pending).map (·.edit),
      Utf8.Between text e.start.toNat ∧ Utf8.Between text e.stop.toNat := by
    intro e he
    obtain ⟨x, hx, rfl⟩ := List.mem_map.1 he
    apply hedges
    rw [← hedits]
    exact List.mem_map_of_mem (mem_of_mem_sorted hx)
  have hzero : Utf8.Between text 0 := ⟨[], text.toList, rfl, rfl⟩
  obtain ⟨cs, hcs⟩ := exists_splice harrangedEdges hzero
  refine ⟨String.ofList cs, ?_⟩
  rw [← hedits, ← splice_arranged harranged, hcs, Utf8.decode_encodeChars]

end Edit

namespace EditScript

theorem extend_spec (s : EditScript) (edits : List Edit) (owner : Option String) :
    s.extend edits owner = ⟨s.source, s.pending ++ edits.map fun e => ⟨e, owner⟩⟩ := by
  induction edits generalizing s with
  | nil => simp [extend]
  | cons e rest ih =>
      rw [extend, List.foldl_cons, ← extend, ih]
      simp [add]

/-- Applying an arranged script fails only where its edits cut a character. -/
theorem apply_of_arranged {source : String} {pending arranged : List OwnedEdit}
    (h : arrange (Utf8.encode source).length pending = .ok arranged) :
    apply ⟨source, pending⟩ =
      (Utf8.decode (positional (Utf8.encode source) (pending.map (·.edit)))).mapError
        .undecodable := by
  have hbytes : editedBytes ⟨source, pending⟩ =
      .ok (positional (Utf8.encode source) (pending.map (·.edit))) := by
    rw [editedBytes, check, h, Except.map, Except.map, splice_arranged h]
  rw [apply, hbytes]
  dsimp only
  cases Utf8.decode (positional (Utf8.encode source) (pending.map (·.edit))) <;> rfl

end EditScript

namespace Correction

variable {ranks : Finding.Ranks} {text : String} {findings : List Finding}

def entries (findings : List Finding) : List OwnedEdit :=
  findings.flatMap fun f => f.offense.edits.map fun e => ⟨e, some f.offense.rule⟩

theorem map_edit_entries (findings : List Finding) :
    (entries findings).map (·.edit) = findings.flatMap (·.offense.edits) := by
  simp [entries, List.map_flatMap, Function.comp_def]

theorem script_eq (text : String) (findings : List Finding) :
    script text findings = ⟨text, entries findings⟩ := by
  have hfold : ∀ s : EditScript,
      findings.foldl (fun s f => s.extend f.offense.edits (some f.offense.rule)) s =
        ⟨s.source, s.pending ++ entries findings⟩ := by
    induction findings with
    | nil => simp [entries]
    | cons f rest ih =>
        intro s
        rw [List.foldl_cons, ih, EditScript.extend_spec]
        simp [entries]
  exact hfold (.ofSource text)

theorem mem_toApply {f : Finding} :
    f ∈ toApply ranks findings ↔ f ∈ findings ∧ f.offense.correctable = true := by
  rw [toApply, List.mem_filter, Finding.byRule, (List.mergeSort_perm _ _).mem_iff]

theorem byRule_perm (ranks : Finding.Ranks) (findings : List Finding) :
    (Finding.byRule ranks findings).Perm findings :=
  List.mergeSort_perm _ _

/-- Findings without edits contribute none. -/
theorem flatMap_correctable (findings : List Finding) :
    (findings.filter (·.offense.correctable)).flatMap (·.offense.edits) =
      findings.flatMap (·.offense.edits) := by
  induction findings with
  | nil => rfl
  | cons f rest ih =>
      rw [List.filter_cons, List.flatMap_cons, ← ih]
      cases hedits : f.offense.edits with
      | nil => simp [Offense.correctable, hedits]
      | cons e es => simp [Offense.correctable, hedits]

theorem flatMap_number (offenses : List Offense) :
    (Finding.number offenses).flatMap (·.offense.edits) = offenses.flatMap (·.edits) := by
  conv_rhs => rw [← Finding.map_offense_number offenses, List.flatMap_map]

/-- Sorting the findings and leaving out those without edits keeps every edit. -/
theorem flatMap_toApply_perm (ranks : Finding.Ranks) (offenses : List Offense) :
    ((toApply ranks (Finding.number offenses)).flatMap (·.offense.edits)).Perm
      (offenses.flatMap (·.edits)) := by
  calc
    (toApply ranks (Finding.number offenses)).flatMap (·.offense.edits) =
        (Finding.byRule ranks (Finding.number offenses)).flatMap (·.offense.edits) := by
      rw [toApply, flatMap_correctable]
    List.Perm _ ((Finding.number offenses).flatMap (·.offense.edits)) :=
      (byRule_perm ranks _).flatMap_right _
    _ = offenses.flatMap (·.edits) := flatMap_number offenses

/-- The edits of one rule are added in the order of emission. -/
theorem flatMap_toApply_of_rule (ranks : Finding.Ranks) {offenses : List Offense} {rule : String}
    (hrule : ∀ o ∈ offenses, o.rule = rule) :
    (toApply ranks (Finding.number offenses)).flatMap (·.offense.edits) =
      offenses.flatMap (·.edits) := by
  have hsame : ∀ f ∈ Finding.number offenses, f.offense.rule = rule := by
    intro f hf
    refine hrule f.offense ?_
    rw [← Finding.map_offense_number offenses]
    exact List.mem_map_of_mem hf
  have hsorted : Finding.byRule ranks (Finding.number offenses) = Finding.number offenses := by
    refine List.mergeSort_of_pairwise (List.pairwise_of_forall_mem_list fun f hf g hg => ?_)
    refine decide_eq_true (Int.le_of_eq ?_)
    rw [hsame f hf, hsame g hg]
  rw [toApply, flatMap_correctable, hsorted, flatMap_number]

/-- The edits that are added are those of the findings. -/
theorem mem_entries_toApply (ranks : Finding.Ranks) {e : Edit} :
    (∃ x ∈ entries (toApply ranks findings), x.edit = e) ↔
      ∃ f ∈ findings, e ∈ f.offense.edits := by
  simp only [entries, List.mem_flatMap, List.mem_map, mem_toApply]
  constructor
  · rintro ⟨x, ⟨f, ⟨hf, -⟩, e', he', rfl⟩, rfl⟩
    exact ⟨f, hf, he'⟩
  · rintro ⟨f, hf, he⟩
    have hcorrectable : f.offense.correctable = true := by
      rw [Offense.correctable, Bool.not_eq_true', List.isEmpty_eq_false_iff]
      exact List.ne_nil_of_mem he
    exact ⟨_, ⟨f, ⟨hf, hcorrectable⟩, e, he, rfl⟩, rfl⟩

/-- Findings whose edits lie within the text and do not overlap are composed into one script. -/
theorem arrange_toApply (text : String) (ranks : Finding.Ranks)
    (hwithin : ∀ f ∈ findings, ∀ e ∈ f.offense.edits, ¬e.Misplaced (Utf8.encode text).length)
    (hclear : ∀ f ∈ findings, ∀ a ∈ f.offense.edits, ∀ g ∈ findings, ∀ b ∈ g.offense.edits,
      ¬Overlap a b) :
    arrange (Utf8.encode text).length (entries (toApply ranks findings)) =
      .ok (sorted (entries (toApply ranks findings))) := by
  refine arrange_of_no_overlap (fun x hx => ?_) fun x hx y hy => ?_
  · obtain ⟨f, hf, he⟩ := (mem_entries_toApply ranks).1 ⟨x, hx, rfl⟩
    exact hwithin f hf _ he
  · obtain ⟨f, hf, ha⟩ := (mem_entries_toApply ranks).1 ⟨x, hx, rfl⟩
    obtain ⟨g, hg, hb⟩ := (mem_entries_toApply ranks).1 ⟨y, hy, rfl⟩
    exact hclear f hf _ ha g hg _ hb

/-- A correction never fails because of its edits if these are arranged. -/
theorem ofFindings_ne_edit {arranged : List OwnedEdit}
    (h : arrange (Utf8.encode text).length (entries (toApply ranks findings)) = .ok arranged)
    (fault : EditFault) : ofFindings ranks text findings ≠ .error (.edit fault) := by
  intro hfault
  rw [ofFindings] at hfault
  split at hfault
  · nomatch hfault
  rw [script_eq, EditScript.apply_of_arranged h] at hfault
  cases hdecode : Utf8.decode (positional (Utf8.encode text)
      ((entries (toApply ranks findings)).map (·.edit))) with
  | error e => simp [hdecode, Except.mapError, Except.map] at hfault
  | ok corrected => simp [hdecode, Except.mapError, Except.map] at hfault

/-- Edits that do not fit together are refused, with the fault of the script. -/
theorem ofFindings_unfit (h : ¬Fit text ((toApply ranks findings).flatMap (·.offense.edits))) :
    ∃ fault, (script text (toApply ranks findings)).check = .error fault ∧
      ofFindings ranks text findings = .error (.edit fault) := by
  have hsome : toApply ranks findings ≠ [] := by
    intro hnone
    rw [hnone] at h
    exact h ⟨by simp, by simp⟩
  have hbad : ∃ fault, (script text (toApply ranks findings)).check = .error fault := by
    rw [script_eq, EditScript.check]
    cases harrange : arrange (Utf8.encode text).length (entries (toApply ranks findings)) with
    | error fault => exact ⟨fault, rfl⟩
    | ok arranged =>
        have hfit := exists_arranged_iff.1 ⟨arranged, harrange⟩
        rw [map_edit_entries] at hfit
        exact absurd hfit h
  obtain ⟨fault, hfault⟩ := hbad
  refine ⟨fault, hfault, ?_⟩
  rw [ofFindings, if_neg (by simpa using hsome), EditScript.apply, EditScript.editedBytes, hfault]
  rfl

/-- Without an edit every byte stands for itself. -/
theorem positional_nil (data : List UInt8) : positional data [] = data := by
  have hnone : arrange data.length [] = .ok [] := by
    simp [arrange, dedupe, firstConflict]
  exact (splice_arranged hnone).symm

/-- Edits that fit together are applied unless they leave no text. -/
theorem ofFindings_fit
    (h : Fit text ((toApply ranks findings).flatMap (·.offense.edits))) :
    ofFindings ranks text findings =
      ((Utf8.decode (positional (Utf8.encode text)
        ((toApply ranks findings).flatMap (·.offense.edits)))).mapError .undecodable).map
          fun corrected => ⟨corrected, toApply ranks findings⟩ := by
  by_cases hsome : toApply ranks findings = []
  · rw [ofFindings, hsome, List.flatMap_nil, positional_nil, Utf8.decode_encode]
    rfl
  · rw [← map_edit_entries] at h
    obtain ⟨arranged, harranged⟩ := exists_arranged_iff.2 h
    rw [ofFindings, if_neg (by simpa using hsome), script_eq,
      EditScript.apply_of_arranged harranged, map_edit_entries]

/-- Edits that fit together are not refused. -/
theorem ofFindings_fit_ne_edit (h : Fit text ((toApply ranks findings).flatMap (·.offense.edits)))
    (fault : EditFault) : ofFindings ranks text findings ≠ .error (.edit fault) := by
  rw [ofFindings_fit h]
  cases Utf8.decode (positional (Utf8.encode text)
      ((toApply ranks findings).flatMap (·.offense.edits))) with
  | error e => simp [Except.mapError, Except.map]
  | ok corrected => simp [Except.mapError, Except.map]

/-- The bytes of a text corrected by edits that fit together. -/
theorem encode_of_fit (h : Fit text ((toApply ranks findings).flatMap (·.offense.edits)))
    {correction : Correction} (hok : ofFindings ranks text findings = .ok correction) :
    Utf8.encode correction.text =
      positional (Utf8.encode text) ((toApply ranks findings).flatMap (·.offense.edits)) := by
  rw [ofFindings_fit h] at hok
  obtain ⟨corrected, hcorrected, rfl⟩ := map_eq_ok hok
  exact Utf8.encode_of_decode (mapError_eq_ok hcorrected)

/-- Correcting a single finding applies its edits. -/
theorem ofFindings_singleton {f : Finding} (h : f.offense.edits ≠ []) :
    ofFindings ranks text [f] =
      (EditScript.mk text (f.offense.edits.map fun e => ⟨e, some f.offense.rule⟩)).apply.map
        fun corrected => ⟨corrected, [f]⟩ := by
  have hcorrectable : f.offense.correctable = true := by
    rwa [Offense.correctable, Bool.not_eq_true', List.isEmpty_eq_false_iff]
  have happlied : toApply ranks [f] = [f] := by
    simp [toApply, Finding.byRule, hcorrectable]
  rw [ofFindings, happlied, script_eq]
  simp [entries]

theorem applied_eq {correction : Correction}
    (hok : ofFindings ranks text findings = .ok correction) :
    correction.applied = toApply ranks findings := by
  rw [ofFindings] at hok
  split at hok
  next hempty =>
    obtain rfl := Except.ok.inj hok
    exact (List.isEmpty_iff.1 hempty).symm
  next =>
    obtain ⟨corrected, -, rfl⟩ := map_eq_ok hok
    rfl

/-- The edits that were applied are those of the findings. -/
theorem mem_applied_iff {correction : Correction}
    (hok : ofFindings ranks text findings = .ok correction) {e : Edit} :
    e ∈ correction.applied.flatMap (·.offense.edits) ↔ ∃ f ∈ findings, e ∈ f.offense.edits := by
  rw [applied_eq hok, ← mem_entries_toApply ranks, ← map_edit_entries, List.mem_map]

/-- The bytes of a corrected text, offset by offset. -/
theorem encode_ofFindings {arranged : List OwnedEdit} {correction : Correction}
    (h : arrange (Utf8.encode text).length (entries (toApply ranks findings)) = .ok arranged)
    (hok : ofFindings ranks text findings = .ok correction) :
    Utf8.encode correction.text =
      positional (Utf8.encode text) (correction.applied.flatMap (·.offense.edits)) := by
  rw [applied_eq hok, ← map_edit_entries]
  rw [ofFindings] at hok
  split at hok
  next hempty =>
    obtain rfl := Except.ok.inj hok
    rw [List.isEmpty_iff.1 hempty]
    exact (positional_nil _).symm
  next =>
    obtain ⟨corrected, hcorrected, rfl⟩ := map_eq_ok hok
    rw [script_eq, EditScript.apply_of_arranged h] at hcorrected
    cases hdecode : Utf8.decode (positional (Utf8.encode text)
        ((entries (toApply ranks findings)).map (·.edit))) with
    | error e => simp [hdecode, Except.mapError] at hcorrected
    | ok decoded =>
        rw [hdecode] at hcorrected
        obtain rfl := Except.ok.inj hcorrected
        exact Utf8.encode_of_decode hdecode

end Correction

end RubyLint
