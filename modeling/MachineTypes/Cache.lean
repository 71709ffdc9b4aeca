import MachineTypes.Ty.Hashing
import Std.Data.HashMap

/-!
# Caches keyed by types

A cache maps types to numbers. Types that are `==` are one key, so refinements
make no difference to what is found. The key that was stored first stays when
the value is replaced, until it is removed.
-/

namespace MachineTypes

/-- A finite map from types, up to `==`, to numbers. -/
structure Cache where
  entries : Std.HashMap Ty Int

namespace Cache

/-- The cache without entries. -/
def empty : Cache := ⟨∅⟩

/-- The number of keys. -/
def size (cache : Cache) : Nat := cache.entries.size

/-- The value stored for a key. -/
def value? (cache : Cache) (key : Ty) : Option Int := cache.entries[key]?

/-- The key as it was stored. -/
def key? (cache : Cache) (key : Ty) : Option Ty := cache.entries.getKey? key

/-- The entry of a key: the key as it was stored, and its value. -/
def get? (cache : Cache) (key : Ty) : Option (Ty × Int) :=
  match cache.key? key, cache.value? key with
  | some stored, some value => some (stored, value)
  | _, _ => none

/-- Set the value of a key. A key that is present already stays as stored. -/
def put (cache : Cache) (key : Ty) (value : Int) : Cache :=
  ⟨cache.entries.insert ((cache.key? key).getD key) value⟩

/-- Remove a key and its value. -/
def erase (cache : Cache) (key : Ty) : Cache := ⟨cache.entries.erase key⟩

/-! ## What each operation does to the entries -/

/-- The key under which a value is stored is the given one, up to `==`. -/
private theorem stored_beq (cache : Cache) (key : Ty) :
    ((cache.key? key).getD key == key) = true := by
  have h : (cache.key? key).all (· == key) = true := Std.HashMap.getKey?_beq
  cases hkey : cache.key? key with
  | none => exact BEq.rfl
  | some stored => simpa [hkey] using h

@[simp] theorem value?_empty (key : Ty) : empty.value? key = none := by
  simp [value?, empty]

@[simp] theorem key?_empty (key : Ty) : empty.key? key = none := by
  simp [key?, empty]

theorem value?_put (cache : Cache) (key other : Ty) (value : Int) :
    (cache.put key value).value? other =
      if key == other then some value else cache.value? other := by
  simp only [value?, put, Std.HashMap.getElem?_insert, BEq.congr_left (cache.stored_beq key)]

theorem key?_put (cache : Cache) (key other : Ty) (value : Int) :
    (cache.put key value).key? other =
      if key == other then some ((cache.key? key).getD key) else cache.key? other := by
  have h : (cache.put key value).key? other =
      if (cache.key? key).getD key == other then some ((cache.key? key).getD key)
      else cache.key? other := Std.HashMap.getKey?_insert
  rw [h, BEq.congr_left (cache.stored_beq key)]

theorem value?_erase (cache : Cache) (key other : Ty) :
    (cache.erase key).value? other = if key == other then none else cache.value? other := by
  simp only [value?, erase, Std.HashMap.getElem?_erase]

theorem key?_erase (cache : Cache) (key other : Ty) :
    (cache.erase key).key? other = if key == other then none else cache.key? other := by
  simp only [key?, erase, Std.HashMap.getKey?_erase]

/-! ## Presence and size -/

/-- A key is stored exactly when it has a value. -/
theorem isSome_key? (cache : Cache) (key : Ty) :
    (cache.key? key).isSome = (cache.value? key).isSome := by
  simp [key?, value?]

@[simp] theorem size_empty : empty.size = 0 := by
  simp [size, empty]

theorem size_put (cache : Cache) (key : Ty) (value : Int) :
    (cache.put key value).size =
      if (cache.value? key).isSome then cache.size else cache.size + 1 := by
  have hmem : (cache.key? key).getD key ∈ cache.entries ↔ (cache.value? key).isSome = true := by
    rw [Std.HashMap.mem_congr (cache.stored_beq key), Std.HashMap.mem_iff_isSome_getElem?]
    rfl
  simp only [size, put, Std.HashMap.size_insert, hmem]

theorem size_erase (cache : Cache) (key : Ty) :
    (cache.erase key).size =
      if (cache.value? key).isSome then cache.size - 1 else cache.size := by
  have hmem : key ∈ cache.entries ↔ (cache.value? key).isSome = true := by
    rw [Std.HashMap.mem_iff_isSome_getElem?]
    rfl
  simp only [size, erase, Std.HashMap.size_erase, hmem]

end Cache

end MachineTypes
