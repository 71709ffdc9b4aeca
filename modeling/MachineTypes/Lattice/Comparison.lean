import MachineTypes.Lattice.Join
import MachineTypes.Lattice.Subtype
import MachineTypes.Ty.Hashing
import Std.Data.HashMap

/-!
# Comparing types

Types of a list that are `==` form a class. `firstIndex` maps each class to the
index where it is met first, through a hash map keyed by types; from it follow
the first equal item of each item of the list and the number of classes.

The main statement is `firstIndex_getElem?`: the map answers exactly what a
search through the list for the first `==` item answers.

A `Comparison` gathers what equality, hashing and subtyping say about a pair of
types. A `Table` holds the same questions, and the joins, for every pair of a
list.
-/

namespace MachineTypes

/-! ## Classes of equal types in a list -/

namespace Ty

/-- The index where each class of the list is met first, counted from `start`. -/
def firstIndexFrom (seen : Std.HashMap Ty Nat) (start : Nat) : List Ty → Std.HashMap Ty Nat
  | [] => seen
  | ty :: rest => firstIndexFrom (seen.insertIfNew ty start) (start + 1) rest

/-- The index where each class of the list is met first. -/
def firstIndex (tys : List Ty) : Std.HashMap Ty Nat := firstIndexFrom ∅ 0 tys

/-- For each item, the index of the first item that is `==` to it. -/
def firstEqual (tys : List Ty) : List Nat :=
  tys.filterMap ((firstIndex tys)[·]?)

/-- The number of classes in the list. -/
def classCount (tys : List Ty) : Nat := (firstIndex tys).size

private theorem firstIndexFrom_getElem? (tys : List Ty) :
    ∀ (seen : Std.HashMap Ty Nat) (start : Nat) (ty : Ty),
      (firstIndexFrom seen start tys)[ty]? =
        seen[ty]?.or ((tys.findIdx? (· == ty)).map (start + ·)) := by
  induction tys with
  | nil => intro seen start ty; simp [firstIndexFrom]
  | cons item rest ih =>
    intro seen start ty
    rw [firstIndexFrom, ih, Std.HashMap.getElem?_insertIfNew, List.findIdx?_cons]
    by_cases heq : (item == ty) = true
    · by_cases hmem : item ∈ seen
      · simp [heq, hmem, ← Std.HashMap.getElem?_congr heq]
      · have hnone : seen[ty]? = none := by
          rw [← Std.HashMap.getElem?_congr heq]
          exact Std.HashMap.getElem?_eq_none hmem
        simp [heq, hmem, hnone]
    · cases seen[ty]? with
      | some first => simp [heq]
      | none =>
        simp only [heq]
        cases rest.findIdx? (· == ty) with
        | none => rfl
        | some index =>
          show some (start + 1 + index) = some (start + (index + 1))
          rw [Nat.add_assoc, Nat.add_comm 1 index]

/-- The map answers what a search for the first `==` item answers. -/
theorem firstIndex_getElem? (tys : List Ty) (ty : Ty) :
    (firstIndex tys)[ty]? = tys.findIdx? (· == ty) := by
  simp [firstIndex, firstIndexFrom_getElem?]

end Ty

/-! ## Pairs of types -/

/-- How two types stand to each other. -/
structure Comparison where
  /-- The two are `==`. -/
  equal : Bool
  /-- How many entries the two make in a hash map. -/
  classes : Nat
  /-- The first is a subtype of the second. -/
  subtype : Bool
  /-- The second is a subtype of the first. -/
  supertype : Bool
  /-- One of the two is a subtype of the other. -/
  related : Bool

/-- How `a` stands to `b`. -/
def Ty.compare (a b : Ty) : Comparison where
  equal := a == b
  classes := classCount [a, b]
  subtype := a.isSubtype b
  supertype := b.isSubtype a
  related := a.isRelated b

/-- One row for each type of a list, with one entry for each type of it. -/
structure Table where
  equal : List (List Bool)
  subtype : List (List Bool)
  related : List (List Bool)
  join : List (List (Except Violation Ty))

/-- The table of a list of types. -/
def Table.ofList (tys : List Ty) : Table where
  equal := tys.map fun a => tys.map fun b => a == b
  subtype := tys.map fun a => tys.map fun b => a.isSubtype b
  related := tys.map fun a => tys.map fun b => a.isRelated b
  join := tys.map fun a => tys.map fun b => a.join b

end MachineTypes
