import Mathlib.Data.List.Forall2

/-!
# Steps that may fail

What the result of a sequence of steps says about each of them.
-/

namespace RubyLint

variable {ε α β : Type}

/-- Two steps that came to a result did so one after the other. -/
theorem bind_eq_ok {first : Except ε α} {next : α → Except ε β} {y : β}
    (h : first >>= next = .ok y) : ∃ x, first = .ok x ∧ next x = .ok y := by
  cases first with
  | error fault => simp [bind, Except.bind] at h
  | ok x => exact ⟨x, rfl, h⟩

theorem bind_eq_error {first : Except ε α} {next : α → Except ε β} {fault : ε}
    (h : first >>= next = .error fault) :
    first = .error fault ∨ ∃ x, first = .ok x ∧ next x = .error fault := by
  cases first with
  | error fault' => exact .inl (congrArg Except.error (Except.error.inj h))
  | ok x => exact .inr ⟨x, rfl, h⟩

theorem map_eq_ok {f : α → β} {result : Except ε α} {y : β} (h : result.map f = .ok y) :
    ∃ x, result = .ok x ∧ f x = y := by
  cases result with
  | error fault => simp [Except.map] at h
  | ok x => exact ⟨x, rfl, Except.ok.inj h⟩

theorem map_eq_error {f : α → β} {result : Except ε α} {fault : ε}
    (h : result.map f = .error fault) : result = .error fault := by
  cases result with
  | error fault' => exact congrArg Except.error (Except.error.inj h)
  | ok x => nomatch h

/-- Steps over a list that came to a result did so one by one. -/
theorem mapM_eq_ok {f : α → Except ε β} {xs : List α} {ys : List β}
    (h : xs.mapM f = .ok ys) : List.Forall₂ (fun x y => f x = .ok y) xs ys := by
  induction xs generalizing ys with
  | nil =>
      obtain rfl := Except.ok.inj h
      exact .nil
  | cons x xs ih =>
      rw [List.mapM_cons] at h
      obtain ⟨y, hy, h⟩ := bind_eq_ok h
      obtain ⟨rest, hrest, h⟩ := bind_eq_ok h
      obtain rfl := Except.ok.inj h
      exact .cons hy (ih hrest)

/-- Steps over a list that came to a result belong to its elements one by one. -/
theorem mem_of_mapM_eq_ok {f : α → Except ε β} {xs : List α} {ys : List β}
    (h : xs.mapM f = .ok ys) :
    (∀ x ∈ xs, ∃ y ∈ ys, f x = .ok y) ∧ ∀ y ∈ ys, ∃ x ∈ xs, f x = .ok y := by
  have hsteps := mapM_eq_ok h
  clear h
  induction hsteps with
  | nil => exact ⟨nofun, nofun⟩
  | @cons x y xs ys hstep hsteps ih =>
      constructor
      · rw [List.forall_mem_cons]
        refine ⟨⟨y, List.mem_cons_self, hstep⟩, fun x' hx' => ?_⟩
        obtain ⟨y', hy', hstep'⟩ := ih.1 x' hx'
        exact ⟨y', List.mem_cons_of_mem y hy', hstep'⟩
      · rw [List.forall_mem_cons]
        refine ⟨⟨x, List.mem_cons_self, hstep⟩, fun y' hy' => ?_⟩
        obtain ⟨x', hx', hstep'⟩ := ih.2 y' hy'
        exact ⟨x', List.mem_cons_of_mem x hx', hstep'⟩

/-- Steps over a list fail with the fault of one of them. -/
theorem mapM_eq_error {f : α → Except ε β} {xs : List α} {fault : ε}
    (h : xs.mapM f = .error fault) : ∃ x ∈ xs, f x = .error fault := by
  induction xs with
  | nil => nomatch h
  | cons x xs ih =>
      rw [List.mapM_cons] at h
      rcases bind_eq_error h with h | ⟨y, hy, h⟩
      · exact ⟨x, List.mem_cons_self, h⟩
      rcases bind_eq_error h with h | ⟨rest, hrest, h⟩
      · obtain ⟨x', hx', hstep⟩ := ih h
        exact ⟨x', List.mem_cons_of_mem x hx', hstep⟩
      · nomatch h

/-- What a test that may fail lets through was there before. -/
theorem mem_of_filterM_eq_ok {p : α → Except ε Bool} {xs ys : List α}
    (h : xs.filterM p = .ok ys) : ∀ y ∈ ys, y ∈ xs := by
  suffices ∀ kept result, xs.filterAuxM p kept = .ok result →
      ∀ y ∈ result, y ∈ xs ∨ y ∈ kept by
    obtain ⟨result, hresult, h⟩ := bind_eq_ok h
    obtain rfl := Except.ok.inj h
    simpa using this [] result hresult
  clear h
  induction xs with
  | nil =>
      intro kept result h y hy
      obtain rfl := Except.ok.inj h
      exact .inr hy
  | cons x xs ih =>
      intro kept result h y hy
      obtain ⟨passes, -, h⟩ := bind_eq_ok h
      rcases ih _ result h y hy with hy | hy
      · exact .inl (List.mem_cons_of_mem x hy)
      · cases passes with
        | false => exact .inr hy
        | true =>
            rcases List.mem_cons.1 hy with rfl | hy
            · exact .inl List.mem_cons_self
            · exact .inr hy

theorem toOption_eq_some {result : Except ε α} {x : α} (h : result.toOption = some x) :
    result = .ok x := by
  cases result with
  | error fault => nomatch h
  | ok x' => exact congrArg Except.ok (Option.some.inj h)

theorem mapError_eq_ok {f : ε → β} {result : Except ε α} {x : α}
    (h : result.mapError f = .ok x) : result = .ok x := by
  cases result with
  | error fault => nomatch h
  | ok x' => exact congrArg Except.ok (Except.ok.inj h)

end RubyLint
