import MachineTypes.Ty.Basic

/-!
# Equality up to event names

Two types count as equal when they differ only in the names that event types
were refined with. This is the `==` of types; plain `=` also tells refinements
apart and is what the encoding of types preserves.

`equiv` compares two types in one pass. `erase` forgets every refinement of a
type. The main statement is `beq_iff`: types are `==` exactly when they agree
after erasure. All that an equality should satisfy follows from it.
-/

namespace MachineTypes.Ty

/-! ## Forgetting refinements -/

mutual

/-- The type with every event unrefined, at every depth. -/
def erase : Ty → Ty
  | nil => nil
  | bool => bool
  | int => int
  | id => id
  | event _ => event none
  | state => state
  | any => any
  | tuple elements => tuple (eraseEach elements)
  | namedTuple fields => namedTuple (eraseFields fields)
  | sequence element => sequence (erase element)

/-- `erase` on every element. -/
def eraseEach : List Ty → List Ty
  | [] => []
  | ty :: rest => erase ty :: eraseEach rest

/-- `erase` on every field's type; names stay. -/
def eraseFields : List (String × Ty) → List (String × Ty)
  | [] => []
  | (name, ty) :: rest => (name, erase ty) :: eraseFields rest

end

/-! ## Comparing types -/

mutual

/-- Whether two types are equal but for the refinements of their events. -/
def equiv : Ty → Ty → Bool
  | nil, nil => true
  | bool, bool => true
  | int, int => true
  | id, id => true
  | event _, event _ => true
  | state, state => true
  | any, any => true
  | tuple as, tuple bs => equivEach as bs
  | namedTuple as, namedTuple bs => equivFields as bs
  | sequence a, sequence b => equiv a b
  | _, _ => false

/-- Lists are compared position by position. -/
def equivEach : List Ty → List Ty → Bool
  | [], [] => true
  | a :: as, b :: bs => equiv a b && equivEach as bs
  | _, _ => false

/-- Field lists are compared position by position, names exactly. -/
def equivFields : List (String × Ty) → List (String × Ty) → Bool
  | [], [] => true
  | (m, a) :: as, (n, b) :: bs => m == n && equiv a b && equivFields as bs
  | _, _ => false

end

instance : BEq Ty := ⟨equiv⟩

theorem beq_def (a b : Ty) : (a == b) = equiv a b := rfl

mutual

private theorem equiv_iff : (a b : Ty) → (equiv a b = true ↔ erase a = erase b)
  | nil, b | bool, b | int, b | id, b | event _, b | state, b | any, b => by
    cases b <;> simp [equiv, erase]
  | tuple as, b => by
    cases b with
    | tuple bs => simpa [equiv, erase] using equivEach_iff as bs
    | _ => simp [equiv, erase]
  | namedTuple as, b => by
    cases b with
    | namedTuple bs => simpa [equiv, erase] using equivFields_iff as bs
    | _ => simp [equiv, erase]
  | sequence a, b => by
    cases b with
    | sequence b => simpa [equiv, erase] using equiv_iff a b
    | _ => simp [equiv, erase]

private theorem equivEach_iff :
    (as bs : List Ty) → (equivEach as bs = true ↔ eraseEach as = eraseEach bs)
  | [], bs => by cases bs <;> simp [equivEach, eraseEach]
  | a :: as, [] => by simp [equivEach, eraseEach]
  | a :: as, b :: bs => by
    simp [equivEach, eraseEach, equiv_iff a b, equivEach_iff as bs]

private theorem equivFields_iff :
    (as bs : List (String × Ty)) →
      (equivFields as bs = true ↔ eraseFields as = eraseFields bs)
  | [], bs => by cases bs <;> simp [equivFields, eraseFields]
  | (m, a) :: as, [] => by simp [equivFields, eraseFields]
  | (m, a) :: as, (n, b) :: bs => by
    simp [equivFields, eraseFields, equiv_iff a b, equivFields_iff as bs]

end

/-- Types are `==` exactly when they agree once refinements are forgotten. -/
theorem beq_iff {a b : Ty} : (a == b) = true ↔ a.erase = b.erase :=
  equiv_iff a b

instance : EquivBEq Ty where
  rfl := beq_iff.mpr rfl
  symm h := beq_iff.mpr (beq_iff.mp h).symm
  trans h k := beq_iff.mpr ((beq_iff.mp h).trans (beq_iff.mp k))

mutual

/-- Erasing twice forgets no more than erasing once. -/
@[simp] theorem erase_erase : (ty : Ty) → ty.erase.erase = ty.erase
  | nil | bool | int | id | event _ | state | any => by simp [erase]
  | tuple elements => by simp [erase, eraseEach_eraseEach elements]
  | namedTuple fields => by simp [erase, eraseFields_eraseFields fields]
  | sequence element => by simp [erase, erase_erase element]

private theorem eraseEach_eraseEach :
    (tys : List Ty) → eraseEach (eraseEach tys) = eraseEach tys
  | [] => rfl
  | ty :: rest => by simp [eraseEach, erase_erase ty, eraseEach_eraseEach rest]

private theorem eraseFields_eraseFields :
    (fields : List (String × Ty)) → eraseFields (eraseFields fields) = eraseFields fields
  | [] => rfl
  | (name, ty) :: rest => by simp [eraseFields, erase_erase ty, eraseFields_eraseFields rest]

end

/-- Erasure stays within the class of `==` types. -/
theorem erase_beq (ty : Ty) : (ty.erase == ty) = true :=
  beq_iff.mpr ty.erase_erase

theorem eraseEach_eq_map (tys : List Ty) : eraseEach tys = tys.map erase := by
  induction tys with
  | nil => rfl
  | cons ty rest ih => simp [eraseEach, ih]

theorem eraseFields_eq_map (fields : List Field) :
    eraseFields fields = fields.map fun field => (field.1, field.2.erase) := by
  induction fields with
  | nil => rfl
  | cons field rest ih => simp [eraseFields, ih]

end MachineTypes.Ty
