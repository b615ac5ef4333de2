import RubyLint.Proofs.Edit.Correction

/-!
# Edits in another order

The outcome of applying edits can be read off without looking at their order, except for the order
of the insertions at one offset: whether an edit is misplaced, whether two of them overlap, and what
every offset contributes.  So edits that are added in another order lead to the same text, or fail
in the same way.
-/

namespace RubyLint

open Edit

/-- What kind of fault keeps edits from being applied. -/
inductive ApplyFault.Kind where
  | outside
  | conflict
  | undecodable
deriving DecidableEq

def ApplyFault.kind : ApplyFault → ApplyFault.Kind
  | .edit (.outside _ _) => .outside
  | .edit (.conflict _ _) => .conflict
  | .undecodable _ => .undecodable

namespace Edit

variable {text : String} {data : List UInt8} {edits other : List Edit}

/-- The same edits in another order, where the insertions at each offset keep theirs. -/
structure Reordered (edits other : List Edit) : Prop where
  perm : edits.Perm other
  insertions : ∀ i : Nat, edits.filter (fun e => e.isInsertion && e.start == (i : Int)) =
    other.filter fun e => e.isInsertion && e.start == (i : Int)

/-- Of edits that fit together at most one replacement starts at an offset. -/
theorem Fit.eq_of_start_eq (h : Fit text edits) {a b : Edit} (ha : a ∈ edits) (hb : b ∈ edits)
    (hreplaceA : a.isInsertion = false) (hreplaceB : b.isInsertion = false)
    (hstart : a.start = b.start) : a = b := by
  obtain ⟨hwithin, hclear⟩ := h
  have hforwardA := (not_misplaced_iff.1 (hwithin a ha)).2.1
  have hforwardB := (not_misplaced_iff.1 (hwithin b hb)).2.1
  by_contra hne
  exact hclear a ha b hb (overlap_of_start_eq hne hreplaceA hreplaceB hforwardA hforwardB hstart)

namespace Reordered

variable (h : Reordered edits other)

include h

theorem mem_iff {e : Edit} : e ∈ edits ↔ e ∈ other :=
  h.perm.mem_iff

/-- The one replacement that starts at an offset is found in any order. -/
theorem replacedAt_eq (hfit : Fit text edits) (i : Nat) :
    replacedAt edits i = replacedAt other i :=
  replacedAt_congr (fun _ => h.mem_iff) (fun _ ha _ hb => hfit.eq_of_start_eq ha hb) i

/-- Every offset contributes the same. -/
theorem positional_eq (hfit : Fit text edits) (data : List UInt8) :
    positional data edits = positional data other := by
  rw [positional, positional]
  apply List.flatMap_congr
  intro i _
  rw [emittedAt, emittedAt, insertedAt, insertedAt, h.insertions, h.replacedAt_eq hfit,
    keptAt_congr fun _ => h.mem_iff]

end Reordered

end Edit

theorem EditScript.apply_of_fault {source : String} {pending : List OwnedEdit} {fault : EditFault}
    (h : arrange (Utf8.encode source).length pending = .error fault) :
    EditScript.apply ⟨source, pending⟩ = .error (.edit fault) := by
  rw [EditScript.apply, EditScript.editedBytes, EditScript.check, h]
  rfl

/-- The outcome of applying edits, up to the details of a fault: it depends on which edits there
are, and on what they make of every offset. -/
theorem applyEdits_kind (text : String) (edits : List Edit) :
    (applyEdits text edits).mapError ApplyFault.kind =
      if ∃ e ∈ edits, e.Misplaced (Utf8.encode text).length then .error .outside
      else if ∃ a ∈ edits, ∃ b ∈ edits, Overlap a b then .error .conflict
      else (Utf8.decode (positional (Utf8.encode text) edits)).mapError fun _ => .undecodable := by
  set pending : List OwnedEdit := edits.map fun e => ⟨e, none⟩ with hpending
  have hedits : pending.map (·.edit) = edits := by simp [hpending, Function.comp_def]
  have hmem : ∀ e : OwnedEdit, e ∈ pending → e.edit ∈ edits := by
    intro e he
    rw [← hedits]
    exact List.mem_map_of_mem he
  have happly : applyEdits text edits = EditScript.apply ⟨text, pending⟩ := by
    rw [applyEdits, EditScript.extend_spec]
    rfl
  rw [happly]
  cases harrange : arrange (Utf8.encode text).length pending with
  | ok arranged =>
      obtain ⟨hwithin, hclear⟩ := exists_arranged_iff.1 ⟨arranged, harrange⟩
      rw [hedits] at hwithin hclear
      rw [EditScript.apply_of_arranged harrange, hedits,
        if_neg fun ⟨e, he, hbad⟩ => hwithin e he hbad,
        if_neg fun ⟨a, ha, b, hb, hoverlap⟩ => hclear a ha b hb hoverlap]
      cases Utf8.decode (positional (Utf8.encode text) edits) <;> rfl
  | error fault =>
      rw [EditScript.apply_of_fault harrange]
      cases fault with
      | outside e n =>
          obtain ⟨-, before, x, after, hsplit, -, hbad, -⟩ := arrange_eq_outside_iff.1 harrange
          rw [if_pos ⟨x.edit, hmem x (hsplit ▸ List.mem_append_cons_self), hbad⟩]
          rfl
      | conflict a b =>
          obtain ⟨hwithin, ha, hb, hoverlap⟩ := arrange_eq_conflict harrange
          have hplaced : ∀ e ∈ edits, ¬e.Misplaced (Utf8.encode text).length := by
            intro e he
            exact hwithin ⟨e, none⟩ (List.mem_map_of_mem he)
          rw [if_neg fun ⟨e, he, hbad⟩ => hplaced e he hbad,
            if_pos ⟨a.edit, hmem a ha, b.edit, hmem b hb, hoverlap⟩]
          rfl

/-- The order in which edits are added does not matter, except among the insertions at one offset:
applied in another order they leave the same text or fail with the same kind of fault. -/
theorem applyEdits_reordered (text : String) (edits other : List Edit)
    (h : Reordered edits other) :
    (applyEdits text edits).mapError ApplyFault.kind =
      (applyEdits text other).mapError ApplyFault.kind := by
  have hmisplaced : (∃ e ∈ edits, e.Misplaced (Utf8.encode text).length) ↔
      ∃ e ∈ other, e.Misplaced (Utf8.encode text).length := by
    simp only [h.mem_iff]
  have hoverlap : (∃ a ∈ edits, ∃ b ∈ edits, Overlap a b) ↔
      ∃ a ∈ other, ∃ b ∈ other, Overlap a b := by
    simp only [h.mem_iff]
  rw [applyEdits_kind, applyEdits_kind]
  by_cases hbad : ∃ e ∈ edits, e.Misplaced (Utf8.encode text).length
  · rw [if_pos hbad, if_pos (hmisplaced.1 hbad)]
  rw [if_neg hbad, if_neg (mt hmisplaced.2 hbad)]
  by_cases hconflict : ∃ a ∈ edits, ∃ b ∈ edits, Overlap a b
  · rw [if_pos hconflict, if_pos (hoverlap.1 hconflict)]
  rw [if_neg hconflict, if_neg (mt hoverlap.2 hconflict)]
  have hfit : Fit text edits := by
    simp only [not_exists, not_and] at hbad hconflict
    exact ⟨hbad, hconflict⟩
  rw [h.positional_eq hfit]

/-- Two insertions at one offset, a replacement that was added twice and an insertion at its end. -/
def mixed : List Edit :=
  [⟨1, 2, "Y"⟩, ⟨1, 1, "x"⟩, ⟨2, 2, "z"⟩, ⟨1, 2, "Y"⟩, ⟨1, 1, "w"⟩]

def shuffled : List Edit :=
  [⟨1, 1, "x"⟩, ⟨2, 2, "z"⟩, ⟨1, 1, "w"⟩, ⟨1, 2, "Y"⟩, ⟨1, 2, "Y"⟩]

theorem applyEdits_reordered_mixed :
    Reordered mixed shuffled ∧ (applyEdits "abcd" shuffled).mapError ApplyFault.kind =
      .ok "axwYzcd" := by
  have hreordered : Reordered mixed shuffled := by
    refine ⟨by decide, fun i => ?_⟩
    rcases i with _ | _ | _ | i
    · rfl
    · rfl
    · rfl
    · simp [mixed, shuffled, isInsertion, show ¬(1 : Int) = i + 1 + 1 + 1 by omega,
        show ¬(2 : Int) = i + 1 + 1 + 1 by omega]
  refine ⟨hreordered, ?_⟩
  rw [← applyEdits_reordered "abcd" mixed shuffled hreordered, applyEdits_kind]
  decide

end RubyLint
