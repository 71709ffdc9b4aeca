import MachineTypes.Error

/-!
# Spellings of the primitives

A surrounding compiler chooses how each primitive kind is spelled in a source
program. A table of spellings is good when no two kinds share one; `validate`
reports the first spelling, in declaration order, that a later kind repeats.
-/

namespace MachineTypes

/-- How each primitive kind is spelled. -/
structure Spellings where
  spell : Kind → String

namespace Spellings

/-- Every kind spelled by its canonical name. -/
def canonical : Spellings := ⟨Kind.name⟩

/-- The spellings, in declaration order of their kinds. -/
def toList (spellings : Spellings) : List String := Kind.all.map spellings.spell

/-- Each spelling with its kind, in declaration order. -/
def entries (spellings : Spellings) : List (String × Kind) :=
  Kind.all.map fun kind => (spellings.spell kind, kind)

theorem ext {a b : Spellings} (h : ∀ kind, a.spell kind = b.spell kind) : a = b := by
  cases a
  cases b
  simpa using funext h

/-- Tables are equal when they list the same spellings. -/
theorem toList_inj {a b : Spellings} : a.toList = b.toList ↔ a = b := by
  constructor
  · intro h
    refine Spellings.ext fun kind => ?_
    exact List.map_inj_left.mp h kind kind.mem_all
  · rintro rfl
    rfl

instance : DecidableEq Spellings := fun _ _ => decidable_of_iff _ toList_inj

/-- The first text of a list that occurs in it again. -/
def firstRepeat? : List String → Option String
  | [] => none
  | text :: rest => if text ∈ rest then some text else firstRepeat? rest

theorem firstRepeat?_eq_none_iff {texts : List String} :
    firstRepeat? texts = none ↔ texts.Nodup := by
  induction texts with
  | nil => simp [firstRepeat?]
  | cons text rest ih => by_cases h : text ∈ rest <;> simp [firstRepeat?, h, ih]

/-- Accept a table whose spellings are all different. -/
def validate (spellings : Spellings) : Except Error Unit :=
  match firstRepeat? spellings.toList with
  | some spelling => .error (.duplicateSpelling spelling)
  | none => .ok ()

/-- A table is accepted exactly when its spellings are all different. -/
theorem validate_eq_ok_iff {spellings : Spellings} :
    spellings.validate = .ok () ↔ spellings.toList.Nodup := by
  rw [← firstRepeat?_eq_none_iff, validate]
  split <;> simp_all

end Spellings

end MachineTypes
