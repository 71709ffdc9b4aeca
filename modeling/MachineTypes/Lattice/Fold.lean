import MachineTypes.Lattice.Join
import MachineTypes.Log

/-!
# Joining a list of types

`joinAll` joins the types of a list from left to right. The empty list gives
`nil`. A list of one type gives that type, which meets no join and so is not
looked into for `state`.

When the type joined so far becomes `any`, this is logged with the index of the
operand that did it. A list that starts with `any` logs nothing. What was
logged is kept also when a later operand ends the fold with a violation.
-/

namespace MachineTypes.Ty

/-- The join of `acc` with the operands that follow, the first of which has the
given index in the whole list. -/
def joinFrom (acc : Ty) (index : Nat) : List Ty → Logged (Except Violation Ty)
  | [] => .quiet (.ok acc)
  | ty :: rest =>
    match acc.join ty with
    | .error violation => .quiet (.error violation)
    | .ok joined =>
      let result := joinFrom joined (index + 1) rest
      if !acc.isAny && joined.isAny then
        ⟨result.value, .absorbed index :: result.log⟩
      else
        result

/-- The join of all types of a list, from left to right. -/
def joinAll : List Ty → Logged (Except Violation Ty)
  | [] => .quiet (.ok nil)
  | first :: rest => joinFrom first 1 rest

@[simp] theorem joinAll_nil : joinAll [] = ⟨.ok nil, []⟩ := rfl

@[simp] theorem joinAll_singleton (ty : Ty) : joinAll [ty] = ⟨.ok ty, []⟩ := rfl

/-- The value of the fold, without its log. -/
theorem joinFrom_value (acc : Ty) (index : Nat) (tys : List Ty) :
    (joinFrom acc index tys).value = tys.foldlM join acc := by
  induction tys generalizing acc index with
  | nil => rfl
  | cons ty rest ih =>
    rw [joinFrom, List.foldlM_cons]
    cases acc.join ty with
    | error violation => rfl
    | ok joined =>
      simp only [bind, Except.bind, ← ih joined (index + 1)]
      split <;> rfl

/-- A list that is not empty is joined by a left fold from its first type. -/
theorem joinAll_cons_value (first : Ty) (rest : List Ty) :
    (joinAll (first :: rest)).value = rest.foldlM join first :=
  joinFrom_value first 1 rest

/-- What has become `any` stays `any`, and nothing more is logged. -/
theorem joinFrom_any_log (index : Nat) (tys : List Ty) : (joinFrom any index tys).log = [] := by
  induction tys generalizing index with
  | nil => rfl
  | cons ty rest ih =>
    by_cases h : ty = state
    · simp [joinFrom, h, Logged.quiet]
    · simp [joinFrom, join_any_left h, isAny, ih]

end MachineTypes.Ty
