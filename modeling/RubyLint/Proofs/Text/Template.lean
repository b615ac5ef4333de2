import Mathlib.Data.List.TakeWhile
import RubyLint.Text.Template

/-!
# Filling plain templates

A template that consists of plain text and of plain fields, which only name a text, is filled
without a fault: every stretch of text stands for itself and every field for the text it names.
-/

namespace RubyLint.Template

/-- A stretch of text or a field that only has a name. -/
inductive Part where
  | text (s : List Char)
  | field (name : List Char)
deriving DecidableEq

namespace Part

def written : Part → List Char
  | .text s => s
  | .field name => '\x7b' :: name ++ ['\x7d']

def filled (fields : List (String × Value)) : Part → List Char
  | .text s => s
  | .field name =>
    match fields.lookup (String.ofList name) with
    | some (.str s) => s.toList
    | _ => []

/-- The characters that mean something in a field. -/
def marks : List Char :=
  ['\x7b', '\x7d', ':', '!', '[', '.']

/-- Plain text has no brackets; a plain field is no number, has no marks and names a text. -/
def Plain (fields : List (String × Value)) : Part → Prop
  | .text s => '\x7b' ∉ s ∧ '\x7d' ∉ s
  | .field name => (∀ c ∈ name, c ∉ marks) ∧ (∃ c ∈ name, Text.isDigit c = false) ∧
      ∃ s, fields.lookup (String.ofList name) = some (.str s)

/-- Whether a field is plain is seen from its characters one by one. -/
theorem plain_field {fields : List (String × Value)} {name : List Char} {s : String}
    (hmarks : name.all (· ∉ marks) = true) (hdigit : name.any (!Text.isDigit ·) = true)
    (hs : fields.lookup (String.ofList name) = some (.str s)) : Plain fields (.field name) := by
  refine ⟨fun c hc => by simpa using List.all_eq_true.1 hmarks c hc, ?_, s, hs⟩
  obtain ⟨c, hc, hnot⟩ := List.any_eq_true.1 hdigit
  exact ⟨c, hc, by simpa using hnot⟩

end Part

open RubyLint.Template.Part

variable {fields : List (String × Value)} {fuel depth : Nat} {name rest : List Char}

theorem fieldName_close (h : ∀ c ∈ name, c ∉ marks) (read : List Char) :
    fieldName read (name ++ '\x7d' :: rest) = .ok (read.reverse ++ name, '\x7d', rest) := by
  induction name generalizing read with
  | nil => simp [fieldName]
  | cons c name ih =>
      have hc := h c List.mem_cons_self
      simp only [marks, List.mem_cons, List.not_mem_nil, or_false, not_or] at hc
      rw [List.cons_append, fieldName]
      simp [hc, ih fun d hd => h d (List.mem_cons_of_mem c hd)]

theorem readField_close (h : ∀ c ∈ name, c ∉ marks) (rest : List Char) :
    readField (name ++ '\x7d' :: rest) = .ok (⟨name, none, [], false⟩, rest) := by
  simp [readField, fieldName_close h, bind, Except.bind, pure, Except.pure]

theorem fieldItem_plain (h : (Part.field name).Plain fields) :
    ∃ s, fields.lookup (String.ofList name) = some (.str s) ∧
      fieldItem fields name = .ok (.value (.str s)) := by
  obtain ⟨hmarks, ⟨c, hc, hdigit⟩, s, hs⟩ := h
  have hfirst : name.takeWhile (fun c => c != '.' && c != '[') = name := by
    rw [List.takeWhile_eq_self_iff]
    intro d hd
    have := hmarks d hd
    simp only [marks, List.mem_cons, List.not_mem_nil, or_false, not_or] at this
    simp [this]
  have hnumber : number? name = .ok none := by
    have hall : name.all Text.isDigit = false := List.all_eq_false.2 ⟨c, hc, by simp [hdigit]⟩
    simp [number?, hall, pure, Except.pure]
  have hne : name.isEmpty = false := by
    cases name with
    | nil => simp at hc
    | cons d rest => rfl
  refine ⟨s, hs, ?_⟩
  simp only [fieldItem, hfirst, hne, hnumber, hs, bind, Except.bind, Bool.false_eq_true, if_false,
    List.drop_length]
  cases name.length <;> rfl

variable [Machine]

theorem fill_text {s : List Char} (h : (Part.text s).Plain fields) :
    fill fields (fuel + s.length) (depth + 1) (s ++ rest) =
      (fill fields fuel (depth + 1) rest).map (s ++ ·) := by
  induction s with
  | nil =>
      rw [List.length_nil, Nat.add_zero, List.nil_append]
      cases fill fields fuel (depth + 1) rest <;> rfl
  | cons c s ih =>
      obtain ⟨hopen, hclose⟩ := h
      simp only [List.mem_cons, not_or] at hopen hclose
      have hc : (c == '\x7d') = false := by simpa using Ne.symm hclose.1
      have hc' : (c == '\x7b') = false := by simpa using Ne.symm hopen.1
      rw [List.length_cons, ← Nat.add_assoc, List.cons_append, fill.eq_def]
      simp only [hc, hc', Bool.false_eq_true, if_false, ih ⟨hopen.2, hclose.2⟩]
      cases fill fields fuel (depth + 1) rest <;> rfl

theorem fill_field (h : (Part.field name).Plain fields) :
    fill fields (fuel + 1) (depth + 1) ((Part.field name).written ++ rest) =
      (fill fields fuel (depth + 1) rest).map ((Part.field name).filled fields ++ ·) := by
  obtain ⟨s, hs, hitem⟩ := fieldItem_plain h
  obtain ⟨hmarks, ⟨c, hc, -⟩, -⟩ := h
  have hwritten : (Part.field name).written ++ rest = '\x7b' :: (name ++ '\x7d' :: rest) := by
    simp [written]
  have hread := readField_close hmarks rest
  have hstart : ∀ later, name ++ '\x7d' :: rest ≠ '\x7b' :: later := by
    cases name with
    | nil => simp at hc
    | cons d name =>
        have := hmarks d List.mem_cons_self
        intro later heq
        obtain ⟨rfl, -⟩ := List.cons.inj heq
        simp [marks] at this
  have hsome : name ++ '\x7d' :: rest ≠ [] := by simp
  rw [hwritten, fill.eq_def]
  generalize name ++ '\x7d' :: rest = following at *
  simp only [show ('\x7b' == '\x7d') = false from rfl, beq_self_eq_true, if_true,
    Bool.false_eq_true, if_false]
  simp only [hread, bind, Except.bind, hitem, convert, Bool.false_eq_true, if_false, pure,
    Except.pure, formatItem, List.isEmpty_nil, if_true, Item.text, isLong, Value.text, Except.map,
    filled, hs]

/-- A template of plain parts is filled part by part. -/
theorem fill_plain (parts : List Part) (h : ∀ part ∈ parts, part.Plain fields)
    (hfuel : (parts.flatMap written).length < fuel) :
    fill fields fuel (depth + 1) (parts.flatMap written) = .ok (parts.flatMap (filled fields)) := by
  induction parts generalizing fuel with
  | nil =>
      cases fuel with
      | zero => simp at hfuel
      | succ fuel => rfl
  | cons part parts ih =>
      have hpart := h part List.mem_cons_self
      have hparts := fun part' hmem => h part' (List.mem_cons_of_mem part hmem)
      rw [List.flatMap_cons, List.length_append] at hfuel
      rw [List.flatMap_cons, List.flatMap_cons]
      cases part with
      | text s =>
          obtain ⟨fuel, rfl⟩ : ∃ n, fuel = n + s.length :=
            ⟨fuel - s.length, by simp [written] at hfuel; omega⟩
          simp only [written] at hfuel
          rw [written, fill_text hpart, ih hparts (by omega)]
          rfl
      | field name =>
          obtain ⟨fuel, rfl⟩ : ∃ n, fuel = n + 1 := ⟨fuel - 1, by omega⟩
          simp only [written, List.length_append, List.length_cons] at hfuel
          rw [fill_field hpart, ih hparts (by omega)]
          rfl

/-- A plain template is filled without a fault. -/
theorem format_plain {template : String} {parts : List Part}
    (hparts : template.toList = parts.flatMap written) (h : ∀ part ∈ parts, part.Plain fields) :
    format template fields = .ok (String.ofList (parts.flatMap (filled fields))) := by
  rw [format, hparts, fill_plain parts h (by rw [← hparts, String.length_toList]; omega)]
  rfl

end RubyLint.Template
