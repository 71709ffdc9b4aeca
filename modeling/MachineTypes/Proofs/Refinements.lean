import MachineTypes.Proofs.LeastUpperBound
import MachineTypes.Lattice.Fold
import MachineTypes.Registry.Basic

/-!
# Refinements have no influence

The name that an event was refined with is carried along and shown to nobody.
Joins hand refinements on from their operands, so results and reports may hold
different ones; but no operation decides anything by them.

The proof is that every operation commutes with forgetting. What comes of two
types with their refinements forgotten is what comes of the types as they are,
with the refinements of the result forgotten (`join_erase`, `joinAll_erase`), or
the very same answer where the answer holds no type (`isSubtype_erase`,
`render_erase`). Types that are `==` are the same once refinements are
forgotten, and so are all answers about them.

## Main results

* `render_erase`, `isSubtype_erase`, `join_erase`, `joinAll_erase` — each
  operation commutes with forgetting refinements.
* `Alike`, `alike_of_eraseResult_eq` — outcomes that differ in refinements only.
* `refinements_have_no_influence` — two runs of every operation, on operands that
  differ in refinements only.
-/

namespace MachineTypes

namespace Ty

/-! ## Texts -/

section Rendering

variable (spell : Kind → String)

mutual

/-- The text of a type shows no refinement. -/
@[simp] theorem render_erase : (ty : Ty) → ty.erase.render spell = ty.render spell
  | nil | bool | int | id | event _ | state | any => by simp [erase, render]
  | tuple elements => by simp [erase, render, renderEach_eraseEach elements]
  | namedTuple fields => by simp [erase, render, renderFields_eraseFields fields]
  | sequence element => by simp [erase, render, render_erase element]

private theorem renderEach_eraseEach :
    (tys : List Ty) → renderEach spell (eraseEach tys) = renderEach spell tys
  | [] => rfl
  | ty :: rest => by simp [eraseEach, renderEach, render_erase ty, renderEach_eraseEach rest]

private theorem renderFields_eraseFields :
    (fields : List (String × Ty)) →
      renderFields spell (eraseFields fields) = renderFields spell fields
  | [] => rfl
  | (name, ty) :: rest => by
    simp [eraseFields, renderFields, render_erase ty, renderFields_eraseFields rest]

end

/-- Types that are `==` are written alike. -/
theorem render_eq_of_beq {a b : Ty} (h : (a == b) = true) : a.render spell = b.render spell := by
  rw [← render_erase spell a, beq_iff.mp h, render_erase]

end Rendering

/-! ## Subtyping -/

/-- The check does not read refinements. -/
theorem isSubtype_erase (a b : Ty) : a.erase.isSubtype b.erase = a.isSubtype b := by
  have ha : a.erase.isSubtype a = true := isSubtype_of_beq a.erase_beq
  have hb : b.erase.isSubtype b = true := isSubtype_of_beq b.erase_beq
  have ha' : a.isSubtype a.erase = true := isSubtype_of_beq (BEq.symm a.erase_beq)
  have hb' : b.isSubtype b.erase = true := isSubtype_of_beq (BEq.symm b.erase_beq)
  rw [Bool.eq_iff_iff]
  constructor
  · intro h
    exact isSubtype_trans ha' (isSubtype_trans h hb)
  · intro h
    exact isSubtype_trans ha (isSubtype_trans h hb')

@[simp] theorem isAny_erase (ty : Ty) : ty.erase.isAny = ty.isAny := by
  cases ty <;> rfl

end Ty

/-! ## Outcomes -/

/-- The violation with all refinements forgotten. -/
def Violation.erase : Violation → Violation
  | stateJoined left right => stateJoined left.erase right.erase
  | fieldsRefused cause => fieldsRefused cause
  | spellingRefused cause => spellingRefused cause

/-- A refused join is worded with the texts of the two operands. -/
theorem Violation.message_stateJoined (left right : Ty) :
    (stateJoined left right).message =
      "join: state type reached a join (`" ++ left.text ++ "` with `" ++ right.text ++ "`)" ++
        " (checker must keep state values out of value positions)" := rfl

example : (Violation.stateJoined .int (.tuple [.state])).message =
    "join: state type reached a join (`int` with `(state)`) " ++
      "(checker must keep state values out of value positions)" := rfl

/-- A violation is worded without refinements. -/
theorem Violation.message_erase (violation : Violation) :
    violation.erase.message = violation.message := by
  cases violation with
  | stateJoined left right =>
    have hleft : left.erase.text = left.text := Ty.render_erase Kind.name left
    have hright : right.erase.text = right.text := Ty.render_erase Kind.name right
    rw [erase, message_stateJoined, message_stateJoined, hleft, hright]
  | fieldsRefused cause => rw [erase]
  | spellingRefused cause => rw [erase]

namespace Ty

/-- An outcome with all refinements forgotten, by `forget` in what was found. -/
def eraseResult {α : Type} (forget : α → α) : Except Violation α → Except Violation α
  | .ok value => .ok (forget value)
  | .error violation => .error violation.erase

/-- Two outcomes that differ in refinements only: types that are `==`, or
violations with the same wording. -/
inductive Alike : Except Violation Ty → Except Violation Ty → Prop where
  | ok {a b : Ty} (h : (a == b) = true) : Alike (.ok a) (.ok b)
  | error {first second : Violation} (h : first.message = second.message) :
      Alike (.error first) (.error second)

/-- Outcomes that are the same once refinements are forgotten are alike. -/
theorem alike_of_eraseResult_eq {first second : Except Violation Ty}
    (h : eraseResult erase first = eraseResult erase second) : Alike first second := by
  cases first with
  | ok a =>
    cases second with
    | ok b => exact .ok (beq_iff.mpr (Except.ok.inj h))
    | error violation => cases h
  | error violation =>
    cases second with
    | ok b => cases h
    | error other =>
      have herase : violation.erase = other.erase := Except.error.inj h
      have hmessage : violation.message = other.message := by
        rw [← violation.message_erase, herase, other.message_erase]
      exact .error hmessage

/-! ## Join -/

/-- Exchanging the parts of a type commutes with forgetting. -/
private theorem erase_withParts (ty : Ty) (others : List Ty) :
    (ty.withParts others).erase = ty.erase.withParts (others.map erase) := by
  cases ty with
  | tuple elements => simp [withParts, erase, eraseEach_eq_map]
  | namedTuple fields =>
    simp only [withParts, erase, eraseFields_eq_map, Fields.names, List.map_map,
      Function.comp_def, namedTuple.injEq]
    rw [List.zip_map_right]
    rfl
  | sequence element =>
    -- A sequence takes a part only where there is exactly one.
    cases others with
    | nil => simp [withParts, erase]
    | cons part more => cases more <;> simp [withParts, erase]
  | _ => simp [withParts, erase]

/-- Joining two lists commutes with forgetting when joining in every place does. -/
private theorem joinEach_erase {as bs : List Ty}
    (h : ∀ (i : Nat) (x y : Ty), as[i]? = some x → bs[i]? = some y →
      x.erase.join y.erase = eraseResult erase (x.join y)) :
    joinEach (as.map erase) (bs.map erase) =
      eraseResult (List.map erase) (joinEach as bs) := by
  induction as generalizing bs with
  | nil => simp [joinEach, eraseResult]
  | cons a as ih =>
    cases bs with
    | nil => simp [joinEach, eraseResult]
    | cons b bs =>
      obtain ⟨hhead, htail⟩ := forall_getElem?_cons.mp h
      rw [List.map_cons, List.map_cons, joinEach, joinEach, hhead, ih htail]
      cases a.join b with
      | error violation => rfl
      | ok head => cases joinEach as bs <;> rfl

/-- **Join commutes with forgetting refinements**, in what it finds and in what
it reports. -/
theorem join_erase (a b : Ty) : a.erase.join b.erase = eraseResult erase (a.join b) := by
  induction a using parts_induction generalizing b with
  | step a ih =>
    by_cases hane : a = state
    · subst hane
      simp [erase, eraseResult, Violation.erase]
    by_cases hbne : b = state
    · subst hbne
      simp [erase, eraseResult, Violation.erase]
    have hane' : a.erase ≠ state := by cases a <;> simp_all [erase]
    have hbne' : b.erase ≠ state := by cases b <;> simp_all [erase]
    by_cases hshape : a.shape? = b.shape?
    · cases ha : a.shape? with
      | none =>
        have hb : b.shape? = none := hshape.symm.trans ha
        rw [join_of_scalar ha hb hane hbne, join_of_scalar ((shape?_erase a).trans ha)
          ((shape?_erase b).trans hb) hane' hbne', isSubtype_erase, isSubtype_erase]
        -- The same operand is chosen on both sides.
        split
        · rfl
        · split <;> rfl
      | some shape =>
        have hb : b.shape? = some shape := hshape.symm.trans ha
        have hparts : joinEach (a.parts.map erase) (b.parts.map erase) =
            eraseResult (List.map erase) (joinEach a.parts b.parts) :=
          joinEach_erase fun i x y hx _ => ih i x hx y
        rw [join_eq_joinEach ha hb, join_eq_joinEach ((shape?_erase a).trans ha)
          ((shape?_erase b).trans hb), parts_erase, parts_erase, hparts]
        cases joinEach a.parts b.parts with
        | error violation => rfl
        | ok js => exact congrArg Except.ok (erase_withParts a js).symm
    · have hshape' : a.erase.shape? ≠ b.erase.shape? := by simpa using hshape
      rw [join_of_shape?_ne hane hbne hshape, join_of_shape?_ne hane' hbne' hshape']
      rfl

/-! ## Lists -/

/-- A fold of joins commutes with forgetting, and logs the same. -/
theorem joinFrom_erase (acc : Ty) (index : Nat) (tys : List Ty) :
    joinFrom acc.erase index (tys.map erase) =
      (joinFrom acc index tys).map (eraseResult erase) := by
  induction tys generalizing acc index with
  | nil => rfl
  | cons ty rest ih =>
    rw [List.map_cons, joinFrom, joinFrom, join_erase]
    cases acc.join ty with
    | error violation => rfl
    | ok joined =>
      simp only [eraseResult, ih joined (index + 1), isAny_erase]
      split <;> rfl

/-- The join of a list commutes with forgetting, and logs the same. -/
theorem joinAll_erase (tys : List Ty) :
    joinAll (tys.map erase) = (joinAll tys).map (eraseResult erase) := by
  cases tys with
  | nil => rfl
  | cons first rest => exact joinFrom_erase first 1 rest

/-- Lists that are `==` place by place are the same once refinements are
forgotten. -/
theorem map_erase_eq_of_beq {tys others : List Ty} (hlength : tys.length = others.length)
    (h : ∀ (i : Nat) (x y : Ty), tys[i]? = some x → others[i]? = some y → (x == y) = true) :
    tys.map erase = others.map erase := by
  refine List.ext_getElem (by simpa using hlength) fun i htys hothers => ?_
  rw [List.length_map] at htys hothers
  rw [List.getElem_map, List.getElem_map]
  exact beq_iff.mp (h i _ _ (List.getElem?_eq_getElem htys) (List.getElem?_eq_getElem hothers))

/-! ## Two runs -/

/-- **Refinements have no influence.** Operands that differ in refinements only
are subtypes of each other, can be compared and are written alike; they are
joined to types that are `==` or refused with the same words; and lists of them
are joined alike and log the same events, at the same operands. -/
theorem refinements_have_no_influence :
    (∀ a a' b b' : Ty, (a == a') = true → (b == b') = true →
      a.isSubtype b = a'.isSubtype b' ∧ a.isRelated b = a'.isRelated b' ∧
      a.text = a'.text ∧ (∀ registry : Registry, registry.display a = registry.display a') ∧
      Alike (a.join b) (a'.join b')) ∧
    ∀ tys tys' : List Ty, tys.length = tys'.length →
      (∀ (i : Nat) (x y : Ty), tys[i]? = some x → tys'[i]? = some y → (x == y) = true) →
      Alike (joinAll tys).value (joinAll tys').value ∧
        (joinAll tys).log = (joinAll tys').log := by
  constructor
  · intro a a' b b' ha hb
    have herase : a.erase = a'.erase := beq_iff.mp ha
    have herase' : b.erase = b'.erase := beq_iff.mp hb
    have hsub : a.isSubtype b = a'.isSubtype b' := by
      rw [← isSubtype_erase a b, herase, herase', isSubtype_erase]
    have hsup : b.isSubtype a = b'.isSubtype a' := by
      rw [← isSubtype_erase b a, herase, herase', isSubtype_erase]
    refine ⟨hsub, by rw [isRelated, isRelated, hsub, hsup], render_eq_of_beq _ ha,
      fun registry => render_eq_of_beq _ ha, alike_of_eraseResult_eq ?_⟩
    rw [← join_erase, herase, herase', join_erase]
  · intro tys tys' hlength h
    have herase : joinAll (tys.map erase) = joinAll (tys'.map erase) :=
      congrArg joinAll (map_erase_eq_of_beq hlength h)
    rw [joinAll_erase, joinAll_erase] at herase
    obtain ⟨hvalue, hlog⟩ := Logged.mk.inj herase
    exact ⟨alike_of_eraseResult_eq hvalue, hlog⟩

/-- Two tuples of events, refined in one run and bare in the other, and a third
operand that makes the join of the list `any`. -/
theorem refinements_have_no_influence_tuples :
    Alike ((tuple [event (some "a"), nil]).join (tuple [nil, event (some "b")]))
        ((tuple [event none, nil]).join (tuple [nil, event (some "c")])) ∧
      (joinAll [event (some "a"), event none, tuple [], state]).log =
        (joinAll [event none, event (some "b"), tuple [], state]).log ∧
      (joinAll [event (some "a"), event none, tuple [], state]).log = [.absorbed 2] := by
  obtain ⟨hpairs, hlists⟩ := refinements_have_no_influence
  refine ⟨(hpairs _ _ _ _ rfl rfl).2.2.2.2, (hlists _ _ rfl ?_).2, rfl⟩
  exact forall_getElem?_cons.mpr ⟨rfl, forall_getElem?_cons.mpr ⟨rfl,
    forall_getElem?_cons.mpr ⟨rfl, forall_getElem?_cons.mpr ⟨rfl, by simp⟩⟩⟩⟩

end Ty

end MachineTypes
