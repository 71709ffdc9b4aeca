import Mathlib.Data.List.Forall2

/-!
# How a computation ends

A computation that can fail ends well or with an error. This module says so of the ways in
which computations are put together, of each outcome in terms of the outcomes of the
parts: a result that is changed, two steps of which the second goes on from the first,
and a list of items that are gone through from the left.

A list ends well when all of its items do. It fails with its `FirstFailure`: the error of
an item before which there is none that fails. What comes after that item has no
influence, as it is not looked at.

## Main results

* `bind_eq_ok_iff`, `bind_eq_error_iff` — two steps.
* `mapM_eq_ok_iff`, `mapM_eq_error_iff` — a list of items.
-/

namespace MachineTypes

variable {ε δ α β : Type}

/-! ## Changing a result -/

/-- A result that is changed by a function is good when it was before. -/
theorem map_eq_ok_iff {f : α → β} {result : Except ε α} {b : β} :
    result.map f = .ok b ↔ ∃ a, result = .ok a ∧ f a = b := by
  cases result <;> simp [Except.map]

/-- A result that is changed by a function keeps its error. -/
theorem map_eq_error_iff {f : α → β} {result : Except ε α} {e : ε} :
    result.map f = .error e ↔ result = .error e := by
  cases result <;> simp [Except.map]

/-- Changing the error leaves a good result as it is. -/
theorem mapError_eq_ok_iff {f : ε → δ} {result : Except ε α} {a : α} :
    result.mapError f = .ok a ↔ result = .ok a := by
  cases result with
  | error e =>
    show (Except.error (f e) : Except δ α) = .ok a ↔ _
    simp
  | ok value =>
    show (Except.ok value : Except δ α) = .ok a ↔ _
    simp

/-- A changed error comes from an error. -/
theorem mapError_eq_error_iff {f : ε → δ} {result : Except ε α} {d : δ} :
    result.mapError f = .error d ↔ ∃ e, result = .error e ∧ f e = d := by
  cases result with
  | error e =>
    show (Except.error (f e) : Except δ α) = .error d ↔ _
    simp
  | ok value =>
    show (Except.ok value : Except δ α) = .error d ↔ _
    simp

/-! ## Two steps -/

section Steps

variable {first : Except ε α} {next : α → Except ε β}

/-- A computation in two steps ends well when both steps do. -/
theorem bind_eq_ok_iff {b : β} :
    (first >>= next) = .ok b ↔ ∃ a, first = .ok a ∧ next a = .ok b := by
  cases first with
  | error e => simp [bind, Except.bind]
  | ok a => simp [bind, Except.bind]

/-- It fails in the first step, or in the second when the first has ended well. -/
theorem bind_eq_error_iff {e : ε} :
    (first >>= next) = .error e ↔
      first = .error e ∨ ∃ a, first = .ok a ∧ next a = .error e := by
  cases first with
  | error refused => simp [bind, Except.bind]
  | ok a => simp [bind, Except.bind]

end Steps

/-! ## Lists -/

/-- An item of the list fails with this error, and all items before it end well. Of the
items after it nothing is said. -/
def FirstFailure (f : α → Except ε β) (items : List α) (e : ε) : Prop :=
  ∃ front item back, items = front ++ item :: back ∧
    (∀ other ∈ front, ∃ b, f other = .ok b) ∧ f item = .error e

section Lists

variable {f : α → Except ε β} {items : List α} {e : ε}

/-- A list ends well when its items do. -/
theorem mapM_eq_ok_iff {results : List β} :
    items.mapM f = .ok results ↔
      List.Forall₂ (fun item result => f item = .ok result) items results := by
  induction items generalizing results with
  | nil => simp [pure, Except.pure, eq_comm]
  | cons item rest ih =>
    simp only [List.mapM_cons, bind_eq_ok_iff, pure, Except.pure, Except.ok.injEq, ih]
    constructor
    · rintro ⟨result, hresult, others, hothers, rfl⟩
      exact .cons hresult hothers
    · intro h
      cases h with
      | cons hresult hothers => exact ⟨_, hresult, _, hothers, rfl⟩

theorem not_firstFailure_nil : ¬ FirstFailure f [] e := by
  rintro ⟨front, item, back, hitems, -⟩
  simp at hitems

/-- The first item fails, or it ends well and the failure is further on. -/
theorem firstFailure_cons_iff {item : α} {rest : List α} :
    FirstFailure f (item :: rest) e ↔
      f item = .error e ∨ ∃ b, f item = .ok b ∧ FirstFailure f rest e := by
  constructor
  · rintro ⟨front, bad, back, hitems, hfront, hbad⟩
    cases front with
    | nil =>
      obtain ⟨rfl, -⟩ := List.cons.inj hitems
      exact .inl hbad
    | cons good front =>
      obtain ⟨rfl, hrest⟩ := List.cons.inj hitems
      obtain ⟨b, hb⟩ := hfront item List.mem_cons_self
      refine .inr ⟨b, hb, front, bad, back, hrest, fun other hother => ?_, hbad⟩
      exact hfront other (List.mem_cons_of_mem item hother)
  · rintro (hitem | ⟨b, hb, front, bad, back, rfl, hfront, hbad⟩)
    · exact ⟨[], item, rest, rfl, by simp, hitem⟩
    · refine ⟨item :: front, bad, back, rfl, fun other hother => ?_, hbad⟩
      rcases List.mem_cons.mp hother with rfl | hother
      · exact ⟨b, hb⟩
      · exact hfront other hother

/-- A list fails with its first failure. -/
theorem mapM_eq_error_iff : items.mapM f = .error e ↔ FirstFailure f items e := by
  induction items with
  | nil =>
    refine iff_of_false ?_ not_firstFailure_nil
    simp [pure, Except.pure]
  | cons item rest ih =>
    rw [List.mapM_cons, bind_eq_error_iff, firstFailure_cons_iff]
    simp only [bind_eq_error_iff, ih, pure, Except.pure, reduceCtorEq, and_false, exists_false,
      or_false]

end Lists

end MachineTypes
