import MachineTypes.Fields.Lookup

/-!
# Positions in a type

A hop leads from a compound type to one of its components: by index in a tuple,
by name in a named tuple, and to the element type of a sequence. A position is
a path of hops, and `at?` is the type found there.
-/

namespace MachineTypes

/-- The way from a compound type to one of its components. -/
inductive Hop where
  | index (index : Nat)
  | name (name : String)
  | inner
  deriving DecidableEq

/-- A path into a type, from the outside inwards. -/
abbrev Position : Type := List Hop

namespace Ty

/-- The component that a hop leads to, if the type has it. -/
def part? : Ty → Hop → Option Ty
  | tuple elements, .index index => elements[index]?
  | namedTuple fields, .name name => Fields.find? name fields
  | sequence element, .inner => some element
  | _, _ => none

/-- The type at a position, if there is one. -/
def at? (ty : Ty) : Position → Option Ty
  | [] => some ty
  | hop :: rest => (ty.part? hop).bind (·.at? rest)

@[simp] theorem at?_nil (ty : Ty) : ty.at? [] = some ty := rfl

@[simp] theorem at?_cons (ty : Ty) (hop : Hop) (rest : Position) :
    ty.at? (hop :: rest) = (ty.part? hop).bind (·.at? rest) := rfl

/-- A position is followed hop by hop. -/
theorem at?_append (ty : Ty) (front back : Position) :
    ty.at? (front ++ back) = (ty.at? front).bind (·.at? back) := by
  induction front generalizing ty with
  | nil => rfl
  | cons hop rest ih => cases h : ty.part? hop <;> simp [h, ih]

end Ty

end MachineTypes
