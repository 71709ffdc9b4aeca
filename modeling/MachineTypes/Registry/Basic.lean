import MachineTypes.Log
import MachineTypes.Registry.Spellings

/-!
# The registry of primitives

A registry maps the spelling of each primitive to its type, in declaration
order, and never changes once it is built. It also writes types in its own
spellings.

Building goes through the entries of the table in order. An entry whose
spelling is there already takes the place of the earlier one, so nothing is
lost exactly when the spellings are all different, and `ofSpellings` builds
from no other table.
-/

namespace MachineTypes

/-- The primitives by their spellings. -/
structure Registry where
  /-- The table that the registry was built from. -/
  spellings : Spellings
  /-- Each spelling with its type, in order of registration. -/
  types : List (String × Ty)

namespace Registry

/-- Bind a spelling to a type: in the place where the spelling stands already,
else at the end. -/
def bind (spelling : String) (ty : Ty) : List (String × Ty) → List (String × Ty)
  | [] => [(spelling, ty)]
  | entry :: rest =>
    if entry.1 = spelling then (spelling, ty) :: rest else entry :: bind spelling ty rest

/-- The registry of a table that is known to be good. -/
def build (spellings : Spellings) : Logged Registry :=
  let types := spellings.entries.foldl
    (fun types entry => bind entry.1 (Ty.ofKind entry.2) types) []
  ⟨⟨spellings, types⟩, [.registryBuilt types.length]⟩

/-- The registry of a table, if its spellings are all different. -/
def ofSpellings (spellings : Spellings) : Except Error (Logged Registry) := do
  spellings.validate
  return build spellings

/-- The registry of the canonical names. -/
def canonical : Logged Registry := build .canonical

/-- The type that is spelled `name`. -/
def lookup (registry : Registry) (name : String) : Except Error Ty :=
  match registry.types.lookup name with
  | some ty => .ok ty
  | none => .error (.unknownPrimitive name)

/-- The type that is spelled `name`, by a caller who knows that there is one. -/
def resolve (registry : Registry) (name : String) : Except Violation Ty :=
  (registry.lookup name).mapError .spellingRefused

/-- Whether a primitive is spelled `name`. -/
def contains (registry : Registry) (name : String) : Bool :=
  (registry.types.lookup name).isSome

/-- The registered spellings, in order. -/
def names (registry : Registry) : List String := registry.types.map Prod.fst

/-- The number of registered spellings. -/
def size (registry : Registry) : Nat := registry.types.length

def isEmpty (registry : Registry) : Bool := registry.types.isEmpty

/-- A spelling that is new goes to the end. -/
theorem bind_of_not_mem {spelling : String} {ty : Ty} {types : List (String × Ty)}
    (h : spelling ∉ types.map Prod.fst) : bind spelling ty types = types ++ [(spelling, ty)] := by
  induction types with
  | nil => rfl
  | cons entry rest ih =>
    simp only [List.map_cons, List.mem_cons, not_or] at h
    simp [bind, Ne.symm h.1, ih h.2]

/-- Entries with new and different spellings are all kept, in order. -/
private theorem foldl_bind_of_nodup (entries : List (String × Kind)) :
    ∀ types : List (String × Ty), (types.map Prod.fst ++ entries.map Prod.fst).Nodup →
      entries.foldl (fun types entry => bind entry.1 (Ty.ofKind entry.2) types) types =
        types ++ entries.map fun entry => (entry.1, Ty.ofKind entry.2) := by
  induction entries with
  | nil => intro types _; simp
  | cons entry rest ih =>
    intro types h
    have hnew : entry.1 ∉ types.map Prod.fst := by
      intro hmem
      exact (List.nodup_append.mp h).2.2 _ hmem _ (by simp) rfl
    rw [List.foldl_cons, bind_of_not_mem hnew, ih]
    · simp
    · simpa using h

/-- The registry of a good table holds the type of every kind under the kind's
spelling, in declaration order. -/
theorem build_types {spellings : Spellings} (h : spellings.toList.Nodup) :
    (build spellings).value.types =
      Kind.all.map fun kind => (spellings.spell kind, Ty.ofKind kind) := by
  have hnodup : (([] : List (String × Ty)).map Prod.fst ++
      spellings.entries.map Prod.fst).Nodup := by
    simpa [Spellings.entries, Spellings.toList, Function.comp_def] using h
  have hfold := foldl_bind_of_nodup spellings.entries [] hnodup
  simpa [build, Spellings.entries, Function.comp_def] using hfold

/-- A registry is built from a table exactly when its spellings are all different. -/
theorem ofSpellings_eq_ok_iff {spellings : Spellings} {built : Logged Registry} :
    ofSpellings spellings = .ok built ↔ spellings.toList.Nodup ∧ build spellings = built := by
  rw [← Spellings.validate_eq_ok_iff, ofSpellings]
  cases spellings.validate with
  | error error => exact iff_of_false nofun nofun
  | ok accepted =>
    show (Except.ok (build spellings) : Except Error (Logged Registry)) = .ok built ↔ _
    simp

/-- The text of a type in the spellings of the registry. -/
def display (registry : Registry) (ty : Ty) : String := ty.render registry.spellings.spell

end Registry

end MachineTypes
