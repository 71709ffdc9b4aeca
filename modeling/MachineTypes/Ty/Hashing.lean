import MachineTypes.Ty.Erasure

/-!
# Hashing types

A type is hashed as the sequence of writes that describes it: the former, then
for a compound the number of its components followed by each of them in turn. A
field is its name and then its type. Refinements are never written, so types
that are `==` write the same sequence and hash alike (`writes_eq_of_beq`),
which is what a hash map keyed by types rests on.
-/

namespace MachineTypes

/-- One value fed to the hash of a type. -/
inductive Write where
  | former (former : Former)
  | length (count : Nat)
  | text (name : String)
  deriving DecidableEq, Hashable

namespace Ty

mutual

/-- The sequence of writes that describes a type. -/
def writes : Ty → List Write
  | nil => [.former .nil]
  | bool => [.former .bool]
  | int => [.former .int]
  | id => [.former .id]
  | event _ => [.former .event]
  | state => [.former .state]
  | any => [.former .any]
  | tuple elements => .former .tuple :: .length elements.length :: writesEach elements
  | namedTuple fields => .former .namedTuple :: .length fields.length :: writesFields fields
  | sequence element => .former .sequence :: writes element

/-- The writes of the elements, one after the other. -/
def writesEach : List Ty → List Write
  | [] => []
  | ty :: rest => writes ty ++ writesEach rest

/-- The writes of the fields, each name before its type. -/
def writesFields : List (String × Ty) → List Write
  | [] => []
  | (name, ty) :: rest => .text name :: writes ty ++ writesFields rest

end

instance : Hashable Ty := ⟨fun ty => hash ty.writes⟩

mutual

/-- Erasure changes no write. -/
@[simp] theorem writes_erase : (ty : Ty) → ty.erase.writes = ty.writes
  | nil | bool | int | id | event _ | state | any => by simp [erase, writes]
  | tuple elements => by
    have h : (eraseEach elements).length = elements.length := by simp [eraseEach_eq_map]
    simp [erase, writes, writesEach_eraseEach elements, h]
  | namedTuple fields => by
    have h : (eraseFields fields).length = fields.length := by simp [eraseFields_eq_map]
    simp [erase, writes, writesFields_eraseFields fields, h]
  | sequence element => by simp [erase, writes, writes_erase element]

private theorem writesEach_eraseEach :
    (tys : List Ty) → writesEach (eraseEach tys) = writesEach tys
  | [] => rfl
  | ty :: rest => by
    simp [eraseEach, writesEach, writes_erase ty, writesEach_eraseEach rest]

private theorem writesFields_eraseFields :
    (fields : List (String × Ty)) → writesFields (eraseFields fields) = writesFields fields
  | [] => rfl
  | (name, ty) :: rest => by
    simp [eraseFields, writesFields, writes_erase ty, writesFields_eraseFields rest]

end

/-- Types that are `==` write the same sequence. -/
theorem writes_eq_of_beq {a b : Ty} (h : (a == b) = true) : a.writes = b.writes := by
  rw [← writes_erase a, beq_iff.mp h, writes_erase b]

instance : LawfulHashable Ty where
  hash_eq _ _ h := congrArg (hash : List Write → UInt64) (writes_eq_of_beq h)

end Ty

end MachineTypes
