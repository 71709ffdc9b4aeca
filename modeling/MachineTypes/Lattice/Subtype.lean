import MachineTypes.Fields.Basic
import MachineTypes.Ty.Erasure

/-!
# Subtyping

A value of type `a` may stand where `b` is expected when `a.isSubtype b`:

* every type is a subtype of itself, whatever the refinements of its events;
* every type but `state` is a subtype of `any`;
* `nil` is a subtype of `id` and of every event type, whose default it is;
* tuples of one length, named tuples with the same names and sequences are
  compared component by component.

`state` is related to itself alone. The types in a compound take part in these
rules only where the two compounds have the same shape, so a tuple that holds
`state` is still a subtype of `any`.

`isSubtype` is the check. `Subtyping` is the relation by its rules, which do not
say how to check it.
-/

namespace MachineTypes.Ty

mutual

/-- Whether a value of the first type may stand where the second is expected. -/
def isSubtype : Ty → Ty → Bool
  | state, state => true
  | state, _ => false
  | _, any => true
  | nil, nil | nil, id | nil, event _ => true
  | bool, bool => true
  | int, int => true
  | id, id => true
  | event _, event _ => true
  | tuple as, tuple bs => isSubtypeEach as bs
  | namedTuple as, namedTuple bs => isSubtypeFields as bs
  | sequence a, sequence b => isSubtype a b
  | _, _ => false

/-- Lists are compared position by position. -/
def isSubtypeEach : List Ty → List Ty → Bool
  | [], [] => true
  | a :: as, b :: bs => isSubtype a b && isSubtypeEach as bs
  | _, _ => false

/-- Field lists are compared position by position, names exactly. -/
def isSubtypeFields : List (String × Ty) → List (String × Ty) → Bool
  | [], [] => true
  | (m, a) :: as, (n, b) :: bs => m == n && isSubtype a b && isSubtypeFields as bs
  | _, _ => false

end

/-- Whether the two types can be compared: one is a subtype of the other. -/
def isRelated (a b : Ty) : Bool :=
  a.isSubtype b || b.isSubtype a

/-! ## The check, case by case -/

mutual

/-- Types that are `==` are subtypes of each other. -/
theorem isSubtype_of_beq : {a b : Ty} → (a == b) = true → a.isSubtype b = true
  | nil, b, h | bool, b, h | int, b, h | id, b, h | event _, b, h | state, b, h | any, b, h => by
    cases b <;> simp_all [beq_def, equiv, isSubtype]
  | tuple as, b, h => by
    cases b with
    | tuple bs =>
      simpa [isSubtype] using isSubtypeEach_of_equivEach (by simpa [beq_def, equiv] using h)
    | _ => simp [beq_def, equiv] at h
  | namedTuple as, b, h => by
    cases b with
    | namedTuple bs =>
      simpa [isSubtype] using isSubtypeFields_of_equivFields (by simpa [beq_def, equiv] using h)
    | _ => simp [beq_def, equiv] at h
  | sequence a, b, h => by
    cases b with
    | sequence b => simpa [isSubtype] using isSubtype_of_beq (by simpa [beq_def, equiv] using h)
    | _ => simp [beq_def, equiv] at h

private theorem isSubtypeEach_of_equivEach :
    {as bs : List Ty} → equivEach as bs = true → isSubtypeEach as bs = true
  | [], bs, h => by cases bs <;> simp_all [equivEach, isSubtypeEach]
  | a :: as, [], h => by simp [equivEach] at h
  | a :: as, b :: bs, h => by
    simp only [equivEach, Bool.and_eq_true] at h
    simp [isSubtypeEach, isSubtype_of_beq (a := a) h.1, isSubtypeEach_of_equivEach h.2]

private theorem isSubtypeFields_of_equivFields :
    {as bs : List (String × Ty)} → equivFields as bs = true → isSubtypeFields as bs = true
  | [], bs, h => by cases bs <;> simp_all [equivFields, isSubtypeFields]
  | (m, a) :: as, [], h => by simp [equivFields] at h
  | (m, a) :: as, (n, b) :: bs, h => by
    simp only [equivFields, Bool.and_eq_true] at h
    simp [isSubtypeFields, h.1.1, isSubtype_of_beq (a := a) h.1.2,
      isSubtypeFields_of_equivFields h.2]

end

@[simp] theorem isSubtype_refl (ty : Ty) : ty.isSubtype ty = true :=
  isSubtype_of_beq BEq.rfl

/-- All types but `state` are below `any`. -/
theorem isSubtype_any_iff {ty : Ty} : ty.isSubtype any = true ↔ ty ≠ state := by
  cases ty <;> simp [isSubtype]

/-- Nothing but `any` is above `any`. -/
theorem any_isSubtype_iff {ty : Ty} : any.isSubtype ty = true ↔ ty = any := by
  cases ty <;> simp [isSubtype]

/-- Nothing but `state` is below `state`. -/
theorem isSubtype_state_iff {ty : Ty} : ty.isSubtype state = true ↔ ty = state := by
  cases ty <;> simp [isSubtype]

/-- Nothing but `state` is above `state`. -/
theorem state_isSubtype_iff {ty : Ty} : state.isSubtype ty = true ↔ ty = state := by
  cases ty <;> simp [isSubtype]

/-- Comparability does not depend on the order of the two types. -/
theorem isRelated_comm (a b : Ty) : a.isRelated b = b.isRelated a :=
  Bool.or_comm ..

/-! ## Subtyping by rules

In this relation transitivity is a rule, and the check has no such step. The rule
for a compound asks for compounds of one shape, and for the relation between the
components that stand in the same place.
-/

/-- The least relation that is closed under the rules of subtyping. -/
inductive Subtyping : Ty → Ty → Prop where
  /-- Types that differ in refinements only are related. -/
  | equal {a b : Ty} (h : (a == b) = true) : Subtyping a b
  /-- The top type is above all but `state`. -/
  | top {a : Ty} (h : a ≠ state) : Subtyping a any
  /-- The absent value is the default of an identity. -/
  | nilId : Subtyping nil id
  /-- The absent value is the default of an event. -/
  | nilEvent (refinement : Option String) : Subtyping nil (event refinement)
  | tuple {as bs : List Ty} (hlength : as.length = bs.length)
      (h : ∀ (i : Nat) (a b : Ty), as[i]? = some a → bs[i]? = some b → Subtyping a b) :
      Subtyping (tuple as) (tuple bs)
  | namedTuple {as bs : List Field} (hnames : Fields.names as = Fields.names bs)
      (h : ∀ (i : Nat) (a b : Field), as[i]? = some a → bs[i]? = some b → Subtyping a.2 b.2) :
      Subtyping (namedTuple as) (namedTuple bs)
  | sequence {a b : Ty} (h : Subtyping a b) : Subtyping (sequence a) (sequence b)
  | trans {a b c : Ty} (hab : Subtyping a b) (hbc : Subtyping b c) : Subtyping a c

theorem Subtyping.refl (ty : Ty) : Subtyping ty ty := .equal BEq.rfl

end MachineTypes.Ty
