import MachineTypes.Kind

/-!
# Types

The static types of the language: the primitive kinds, the top type `any`, and
three compound formers. An event type may carry the name of the event it was
refined with; the name is for diagnostics, and `MachineTypes.Ty.Erasure` says
in which sense nothing else depends on it.

A named tuple holds its fields as a plain list. Everything that builds one
from outside sorts the fields by name and refuses repeated names
(`MachineTypes.Fields.Basic`), so that a list in any other order never arises; the
predicate that says so is `Ty.Canonical`.

`Former` names the outermost former of a type. It is what a written type is
told by, and what tells types apart when they are hashed.
-/

namespace MachineTypes

/-- A static type. -/
inductive Ty where
  | nil
  | bool
  | int
  | id
  /-- An event, perhaps refined with the name of a declared event. -/
  | event (refinement : Option String)
  | state
  /-- The top type. -/
  | any
  /-- Positional components. -/
  | tuple (elements : List Ty)
  /-- Named components, in ascending order of their names. -/
  | namedTuple (fields : List (String × Ty))
  | sequence (element : Ty)

/-- One component of a named tuple: its name and its type. -/
abbrev Field : Type := String × Ty

/-- The outermost former of a type. -/
inductive Former where
  | nil | bool | int | id | event | state | any | tuple | namedTuple | sequence
  deriving DecidableEq, Hashable

namespace Former

/-- All formers, in declaration order. -/
def all : List Former :=
  [.nil, .bool, .int, .id, .event, .state, .any, .tuple, .namedTuple, .sequence]

/-- The name that a written type uses for its former. -/
def name : Former → String
  | nil => "nil"
  | bool => "bool"
  | int => "int"
  | id => "id"
  | event => "event"
  | state => "state"
  | any => "any"
  | tuple => "tuple"
  | namedTuple => "named_tuple"
  | sequence => "sequence"

/-- The former with the given name. -/
def ofName? (text : String) : Option Former :=
  all.find? fun former => former.name == text

theorem ofName?_eq_some_iff {text : String} {former : Former} :
    ofName? text = some former ↔ former.name = text := by
  constructor
  · intro h
    simpa using List.find?_some h
  · rintro rfl
    cases former <;> decide

/-- The type that a former makes on its own. An event needs its refinement
said, even if it is to have none, and a compound needs its components. -/
def scalar? : Former → Option Ty
  | nil => some .nil
  | bool => some .bool
  | int => some .int
  | id => some .id
  | state => some .state
  | any => some .any
  | event | tuple | namedTuple | sequence => none

end Former

namespace Ty

/-- The type that a primitive kind stands for; an event is unrefined. -/
def ofKind : Kind → Ty
  | .nil => .nil
  | .bool => .bool
  | .int => .int
  | .id => .id
  | .event => .event none
  | .state => .state

/-- The primitive kind of a type, which `any` and the compounds lack. -/
def kind? : Ty → Option Kind
  | nil => some .nil
  | bool => some .bool
  | int => some .int
  | id => some .id
  | event _ => some .event
  | state => some .state
  | any | tuple _ | namedTuple _ | sequence _ => none

@[simp] theorem kind?_ofKind (kind : Kind) : (ofKind kind).kind? = some kind := by
  cases kind <;> rfl

/-- Whether the type is one of the primitives. -/
def isPrimitive (ty : Ty) : Bool := ty.kind?.isSome

/-- Whether the type is built from components. -/
def isCompound : Ty → Bool
  | tuple _ | namedTuple _ | sequence _ => true
  | _ => false

def isAny : Ty → Bool
  | any => true
  | _ => false

def isState : Ty → Bool
  | state => true
  | _ => false

@[simp] theorem isAny_iff {ty : Ty} : ty.isAny = true ↔ ty = any := by
  cases ty <;> simp [isAny]

theorem isAny_eq_false_iff {ty : Ty} : ty.isAny = false ↔ ty ≠ any := by
  cases ty <;> simp [isAny]

@[simp] theorem isState_iff {ty : Ty} : ty.isState = true ↔ ty = state := by
  cases ty <;> simp [isState]

/-- Every type is exactly one of a primitive, the top type and a compound. -/
theorem primitive_or_any_or_compound (ty : Ty) :
    (ty.isPrimitive, ty.isAny, ty.isCompound) = (true, false, false) ∨
      (ty.isPrimitive, ty.isAny, ty.isCompound) = (false, true, false) ∨
      (ty.isPrimitive, ty.isAny, ty.isCompound) = (false, false, true) := by
  cases ty <;> simp [isPrimitive, kind?, isAny, isCompound]

/-- The components of a tuple. -/
def elements? : Ty → Option (List Ty)
  | tuple elements => some elements
  | _ => none

/-- The components of a named tuple. -/
def fields? : Ty → Option (List Field)
  | namedTuple fields => some fields
  | _ => none

/-- The element type of a sequence. -/
def element? : Ty → Option Ty
  | sequence element => some element
  | _ => none

/-- The name of the event that an event type was refined with. -/
def refinement? : Ty → Option String
  | event refinement => refinement
  | _ => none

/-- The sequence type nested `depth` times around `ty`. -/
def nest (ty : Ty) : Nat → Ty
  | 0 => ty
  | depth + 1 => sequence (nest ty depth)

/-! ## Types that hold `state`

A state of a machine is not a value, so `state` has no business inside the type
of one. `holdsState` says that it occurs in a type all the same, at the top or
in a component at any depth.
-/

mutual

/-- Whether `state` occurs in the type, at any depth. -/
def holdsState : Ty → Bool
  | state => true
  | nil | bool | int | id | event _ | any => false
  | tuple elements => holdsStateEach elements
  | namedTuple fields => holdsStateFields fields
  | sequence element => holdsState element

/-- Whether `state` occurs in one of the elements. -/
def holdsStateEach : List Ty → Bool
  | [] => false
  | ty :: rest => holdsState ty || holdsStateEach rest

/-- Whether `state` occurs in the type of one of the fields. -/
def holdsStateFields : List (String × Ty) → Bool
  | [] => false
  | (_, ty) :: rest => holdsState ty || holdsStateFields rest

end

theorem holdsStateEach_eq_any (tys : List Ty) : holdsStateEach tys = tys.any holdsState := by
  induction tys with
  | nil => rfl
  | cons ty rest ih => simp [holdsStateEach, ih]

theorem holdsStateFields_eq_any (fields : List Field) :
    holdsStateFields fields = fields.any fun field => field.2.holdsState := by
  induction fields with
  | nil => rfl
  | cons field rest ih => simp [holdsStateFields, ih]

end Ty

end MachineTypes
