import MachineTypes.Ty.Printer

/-!
# Punctuation in the text of a type

A type is written without quotes, and the spellings of the primitives and the
names of fields stand in its text as they are. Nothing keeps them from looking
like punctuation. `Plain` and `Ty.NamesUnmarked` say of a spelling and of all
field names in a type that they do not.

Both compounds without components are written `()`. `Ty.mergeEmpty` replaces the
one by the other, and `Ty.render_mergeEmpty` says that this cannot be seen.
-/

namespace MachineTypes

/-! ## Plain texts -/

/-- The punctuation in the text of a type. -/
def marks : List Char := ['(', ')', ',', ':', '[', ']']

/-- The text contains no punctuation. -/
def Unmarked (text : String) : Prop := ∀ c ∈ text.toList, c ∉ marks

instance (text : String) : Decidable (Unmarked text) :=
  List.decidableBAll (fun c => c ∉ marks) text.toList

/-- A text like the identifiers of a program: not empty, and without punctuation. -/
def Plain (text : String) : Prop := text ≠ "" ∧ Unmarked text

instance (text : String) : Decidable (Plain text) :=
  inferInstanceAs (Decidable (text ≠ "" ∧ Unmarked text))

namespace Ty

/-! ## Empty compounds -/

mutual

/-- The type with every empty named tuple, at any depth, replaced by the empty
tuple. -/
def mergeEmpty : Ty → Ty
  | nil => nil
  | bool => bool
  | int => int
  | id => id
  | event refinement => event refinement
  | state => state
  | any => any
  | tuple elements => tuple (mergeEmptyEach elements)
  | namedTuple [] => tuple []
  | namedTuple (field :: rest) => namedTuple (mergeEmptyFields (field :: rest))
  | sequence element => sequence (mergeEmpty element)

/-- `mergeEmpty` on every element. -/
def mergeEmptyEach : List Ty → List Ty
  | [] => []
  | ty :: rest => mergeEmpty ty :: mergeEmptyEach rest

/-- `mergeEmpty` on every field's type; names stay. -/
def mergeEmptyFields : List (String × Ty) → List (String × Ty)
  | [] => []
  | (name, ty) :: rest => (name, mergeEmpty ty) :: mergeEmptyFields rest

end

theorem mergeEmptyEach_eq_map (tys : List Ty) : mergeEmptyEach tys = tys.map mergeEmpty := by
  induction tys with
  | nil => rfl
  | cons ty rest ih => simp [mergeEmptyEach, ih]

theorem mergeEmptyFields_eq_map (fields : List Field) :
    mergeEmptyFields fields = fields.map fun field => (field.1, field.2.mergeEmpty) := by
  induction fields with
  | nil => rfl
  | cons field rest ih => simp [mergeEmptyFields, ih]

mutual

/-- The two empty compounds are written alike, and so are types that hold them. -/
theorem render_mergeEmpty (spell : Kind → String) :
    (ty : Ty) → ty.mergeEmpty.render spell = ty.render spell
  | nil | bool | int | id | event _ | state | any => by simp [mergeEmpty, render]
  | tuple elements => by simp [mergeEmpty, render, renderEach_mergeEmptyEach spell elements]
  | namedTuple [] => by simp [mergeEmpty, render, renderEach, renderFields]
  | namedTuple (field :: rest) => by
    simp [mergeEmpty, render, renderFields_mergeEmptyFields spell (field :: rest)]
  | sequence element => by simp [mergeEmpty, render, render_mergeEmpty spell element]

private theorem renderEach_mergeEmptyEach (spell : Kind → String) :
    (tys : List Ty) → renderEach spell (mergeEmptyEach tys) = renderEach spell tys
  | [] => rfl
  | ty :: rest => by
    simp [mergeEmptyEach, renderEach, render_mergeEmpty spell ty,
      renderEach_mergeEmptyEach spell rest]

private theorem renderFields_mergeEmptyFields (spell : Kind → String) :
    (fields : List (String × Ty)) →
      renderFields spell (mergeEmptyFields fields) = renderFields spell fields
  | [] => rfl
  | (name, ty) :: rest => by
    simp [mergeEmptyFields, renderFields, render_mergeEmpty spell ty,
      renderFields_mergeEmptyFields spell rest]

end

/-! ## Field names without punctuation -/

mutual

/-- No field of the type, at any depth, has punctuation in its name. -/
def NamesUnmarked : Ty → Prop
  | nil | bool | int | id | event _ | state | any => True
  | tuple elements => NamesUnmarkedEach elements
  | namedTuple fields => NamesUnmarkedFields fields
  | sequence element => NamesUnmarked element

/-- `NamesUnmarked` of every element. -/
def NamesUnmarkedEach : List Ty → Prop
  | [] => True
  | ty :: rest => NamesUnmarked ty ∧ NamesUnmarkedEach rest

/-- No punctuation in the names of the fields or in their types. -/
def NamesUnmarkedFields : List (String × Ty) → Prop
  | [] => True
  | (name, ty) :: rest => Unmarked name ∧ NamesUnmarked ty ∧ NamesUnmarkedFields rest

end

theorem namesUnmarkedEach_iff {tys : List Ty} :
    NamesUnmarkedEach tys ↔ ∀ ty ∈ tys, ty.NamesUnmarked := by
  induction tys with
  | nil => simp [NamesUnmarkedEach]
  | cons ty rest ih => simp [NamesUnmarkedEach, ih]

theorem namesUnmarkedFields_iff {fields : List Field} :
    NamesUnmarkedFields fields ↔
      ∀ field ∈ fields, Unmarked field.1 ∧ field.2.NamesUnmarked := by
  induction fields with
  | nil => simp [NamesUnmarkedFields]
  | cons field rest ih => simp [NamesUnmarkedFields, ih, and_assoc]

end Ty

end MachineTypes
