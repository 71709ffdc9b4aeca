import MachineTypes.Lattice.Comparison
import Mathlib.Data.List.Perm.Subperm

/-!
# Classes of types, counted

A hash map keyed by types has one key for each class of `==` types that it knows. To
say how many these are without mentioning a map, one picks a type for each class: a
list of types of which no two are `==`, in which every class occurs. All such lists
have one length (`Represents.length_eq`), so that the number of classes is well
defined, and the keys of a map are such a list (`represents_keys`).

The classes in a list of types are counted by such a map, which also remembers where
each class was met first. What it remembers is what a search through the list for the
first `==` item finds.

## Main results

* `Represents.length_eq`, `ClassCount.unique` — classes have one number.
* `represents_keys` — the keys of a map stand for the classes it knows.
* `getElem?_firstEqual`, `classCount_eq` — what is reported of the classes in a list.
-/

namespace MachineTypes.Ty

/-! ## Representatives -/

/-- The types of the list stand for the classes with a member that satisfies `P`, one
for each class. -/
structure Represents (reps : List Ty) (P : Ty → Prop) : Prop where
  distinct : reps.Pairwise fun a b => (a == b) = false
  met : ∀ rep ∈ reps, ∃ ty, P ty ∧ (rep == ty) = true
  covered : ∀ ty, P ty → ∃ rep ∈ reps, (rep == ty) = true

/-- There are so many classes with a member that satisfies `P`. -/
def ClassCount (P : Ty → Prop) (count : Nat) : Prop :=
  ∃ reps, Represents reps P ∧ reps.length = count

/-- Types of which no two are `==` are different without their refinements, too. -/
private theorem nodup_map_erase {reps : List Ty}
    (h : reps.Pairwise fun a b => (a == b) = false) : (reps.map erase).Nodup := by
  refine List.pairwise_map.mpr (h.imp fun hne heq => ?_)
  rw [beq_iff.mpr heq] at hne
  cases hne

/-- Representatives of some classes are no more than representatives of the same. -/
private theorem Represents.length_le {reps others : List Ty} {P : Ty → Prop}
    (h : Represents reps P) (hothers : Represents others P) : reps.length ≤ others.length := by
  -- Without refinements `==` is equality, and a list without repetitions is no longer
  -- than one that has all its items.
  have hsub : reps.map erase ⊆ others.map erase := by
    intro erased herased
    obtain ⟨rep, hrep, rfl⟩ := List.mem_map.mp herased
    obtain ⟨ty, hty, hrepty⟩ := h.met rep hrep
    obtain ⟨other, hother, hotherty⟩ := hothers.covered ty hty
    exact List.mem_map.mpr ⟨other, hother, (beq_iff.mp hotherty).trans (beq_iff.mp hrepty).symm⟩
  have hle := (List.subperm_of_subset (nodup_map_erase h.distinct) hsub).length_le
  rwa [List.length_map, List.length_map] at hle

/-- All ways to pick a type for each class pick as many types. -/
theorem Represents.length_eq {reps others : List Ty} {P : Ty → Prop} (h : Represents reps P)
    (hothers : Represents others P) : reps.length = others.length :=
  Nat.le_antisymm (h.length_le hothers) (hothers.length_le h)

/-- Classes have one number. -/
theorem ClassCount.unique {P : Ty → Prop} {m n : Nat} (hm : ClassCount P m)
    (hn : ClassCount P n) : m = n := by
  obtain ⟨reps, hreps, rfl⟩ := hm
  obtain ⟨others, hothers, rfl⟩ := hn
  exact hreps.length_eq hothers

/-- Only the classes matter of which `P` has a member, and not which member. -/
theorem Represents.of_same_classes {reps : List Ty} {P Q : Ty → Prop}
    (hPQ : ∀ ty, P ty → ∃ other, Q other ∧ (ty == other) = true)
    (hQP : ∀ other, Q other → ∃ ty, P ty ∧ (other == ty) = true) (h : Represents reps P) :
    Represents reps Q where
  distinct := h.distinct
  met rep hrep := by
    obtain ⟨ty, hty, hrepty⟩ := h.met rep hrep
    obtain ⟨other, hother, htyother⟩ := hPQ ty hty
    exact ⟨other, hother, BEq.trans hrepty htyother⟩
  covered other hother := by
    obtain ⟨ty, hty, hotherty⟩ := hQP other hother
    obtain ⟨rep, hrep, hrepty⟩ := h.covered ty hty
    exact ⟨rep, hrep, BEq.trans hrepty (BEq.symm hotherty)⟩

/-! ## The keys of a map -/

/-- The keys of a map stand for the classes that it knows. -/
theorem represents_keys {α : Type} (map : Std.HashMap Ty α) :
    Represents map.keys (· ∈ map) where
  distinct := Std.HashMap.distinct_keys
  met key hkey := ⟨key, Std.HashMap.mem_of_mem_keys hkey, BEq.rfl⟩
  covered ty hty := by
    have hcontains : map.keys.contains ty = true := by
      rw [Std.HashMap.contains_keys]
      exact hty
    obtain ⟨key, hkey, hbeq⟩ := List.contains_iff_exists_mem_beq.mp hcontains
    exact ⟨key, hkey, BEq.symm hbeq⟩

/-- So the size of a map is the number of these classes. -/
theorem classCount_size {α : Type} (map : Std.HashMap Ty α) : ClassCount (· ∈ map) map.size :=
  ⟨map.keys, represents_keys map, Std.HashMap.length_keys⟩

/-! ## Classes in a list -/

/-- The map of first places knows the classes that occur in the list. -/
theorem mem_firstIndex_iff {tys : List Ty} {ty : Ty} :
    ty ∈ firstIndex tys ↔ ∃ item ∈ tys, (item == ty) = true := by
  rw [Std.HashMap.mem_iff_isSome_getElem?, firstIndex_getElem?, List.findIdx?_isSome,
    List.any_eq_true]

/-- The map of first places has as many entries as there are classes in the list. -/
theorem classCount_eq (tys : List Ty) : ClassCount (· ∈ tys) (classCount tys) := by
  obtain ⟨reps, hreps, hlength⟩ := classCount_size (firstIndex tys)
  refine ⟨reps, hreps.of_same_classes (fun ty hty => ?_) (fun item hitem => ?_), hlength⟩
  · obtain ⟨item, hitem, hbeq⟩ := mem_firstIndex_iff.mp hty
    exact ⟨item, hitem, BEq.symm hbeq⟩
  · exact ⟨item, mem_firstIndex_iff.mpr ⟨item, hitem, BEq.rfl⟩, BEq.rfl⟩

/-- For each item of a list the place of the first item that is `==` to it. -/
theorem firstEqual_eq_map (tys : List Ty) :
    firstEqual tys = tys.map fun ty => tys.findIdx (· == ty) := by
  rw [← List.filterMap_eq_map', firstEqual]
  refine List.filterMap_congr fun ty hty => ?_
  rw [firstIndex_getElem?, List.findIdx?_eq_some_iff_findIdx_eq]
  exact ⟨List.findIdx_lt_length_of_exists ⟨ty, hty, BEq.rfl⟩, rfl⟩

/-- What is reported of an item is a place with an `==` item, and no `==` item stands
before it. -/
theorem getElem?_firstEqual {tys : List Ty} {i : Nat} {ty : Ty} (h : tys[i]? = some ty) :
    ∃ (first : Nat) (other : Ty), (firstEqual tys)[i]? = some first ∧
      tys[first]? = some other ∧ (other == ty) = true ∧
      ∀ (k : Nat) (earlier : Ty), k < first → tys[k]? = some earlier →
        (earlier == ty) = false := by
  have hfirst : tys.findIdx (· == ty) < tys.length :=
    List.findIdx_lt_length_of_exists ⟨ty, List.mem_of_getElem? h, BEq.rfl⟩
  refine ⟨tys.findIdx (· == ty), tys[tys.findIdx (· == ty)], ?_,
    List.getElem?_eq_getElem hfirst, ?_, fun k earlier hk hearlier => ?_⟩
  · rw [firstEqual_eq_map, List.getElem?_map, h, Option.map_some]
  · exact List.findIdx_getElem (p := (· == ty)) (w := hfirst)
  · obtain ⟨hlt, rfl⟩ := List.getElem?_eq_some_iff.mp hearlier
    exact List.not_of_lt_findIdx (p := (· == ty)) hk

end MachineTypes.Ty
