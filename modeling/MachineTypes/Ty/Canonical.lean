import MachineTypes.Fields.Basic

/-!
# Canonical types

A type is canonical when the fields of every named tuple in it, at any depth,
stand in ascending order of their names. Every operation of the library that
makes a type makes a canonical one from canonical ones.
-/

namespace MachineTypes.Ty

mutual

/-- The fields of every named tuple in the type ascend by name. -/
def Canonical : Ty → Prop
  | nil | bool | int | id | event _ | state | any => True
  | tuple elements => CanonicalEach elements
  | namedTuple fields => Fields.Ascending fields ∧ CanonicalFields fields
  | sequence element => Canonical element

/-- Every element is canonical. -/
def CanonicalEach : List Ty → Prop
  | [] => True
  | ty :: rest => Canonical ty ∧ CanonicalEach rest

/-- Every field's type is canonical. -/
def CanonicalFields : List (String × Ty) → Prop
  | [] => True
  | (_, ty) :: rest => Canonical ty ∧ CanonicalFields rest

end

theorem canonicalEach_iff {tys : List Ty} : CanonicalEach tys ↔ ∀ ty ∈ tys, ty.Canonical := by
  induction tys with
  | nil => simp [CanonicalEach]
  | cons ty rest ih => simp [CanonicalEach, ih]

theorem canonicalFields_iff {fields : List Field} :
    CanonicalFields fields ↔ ∀ field ∈ fields, field.2.Canonical := by
  induction fields with
  | nil => simp [CanonicalFields]
  | cons field rest ih => simp [CanonicalFields, ih]

/-- The named tuple of canonical fields, given in any order. -/
theorem canonical_of_ofList {fields built : List Field}
    (h : Fields.ofList fields = .ok built) (hfields : CanonicalFields fields) :
    (namedTuple built).Canonical := by
  obtain ⟨rfl, hasc⟩ := Fields.ofList_eq_ok h
  refine ⟨hasc, canonicalFields_iff.mpr fun field hmem => ?_⟩
  exact canonicalFields_iff.mp hfields field ((Fields.sort_perm fields).mem_iff.mp hmem)

/-! ## Named tuples from fields

A named tuple is made from fields in any order. A caller who has checked the
names already uses `ofDistinctFields`; for such a caller a repeated name is a
broken promise and not an error.
-/

/-- The named tuple of the given fields. -/
def ofFields (fields : List Field) : Except Error Ty :=
  (Fields.ofList fields).map namedTuple

/-- The named tuple of fields whose names are known to be distinct. -/
def ofDistinctFields (fields : List Field) : Except Violation Ty :=
  (ofFields fields).mapError .fieldsRefused

/-- Canonical fields make a canonical named tuple. -/
theorem canonical_of_ofFields {fields : List Field} {ty : Ty}
    (h : ofFields fields = .ok ty) (hfields : CanonicalFields fields) : ty.Canonical := by
  rw [ofFields] at h
  cases hbuilt : Fields.ofList fields with
  | error error => simp [hbuilt, Except.map] at h
  | ok built =>
    simp only [hbuilt, Except.map, Except.ok.injEq] at h
    exact h ▸ canonical_of_ofList hbuilt hfields

end MachineTypes.Ty
