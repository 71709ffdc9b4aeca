/-!
# Primitive kinds

The six primitive kinds of the language, in declaration order. A kind is what
a source program can name; the top type has no name and so is no kind.

Every kind has one canonical name. Reading that name back is `ofName?`, and
`ofName?_eq_some_iff` says that the two are inverse to each other, so a name
determines its kind and no other text is accepted.
-/

namespace MachineTypes

/-- A primitive kind: a type that a program refers to by name. -/
inductive Kind where
  /-- The absent value. -/
  | nil
  | bool
  | int
  /-- The opaque identity of a machine. -/
  | id
  | event
  /-- A state of a machine, which is not a value. -/
  | state
  deriving DecidableEq

namespace Kind

/-- All kinds, in declaration order. -/
def all : List Kind := [.nil, .bool, .int, .id, .event, .state]

theorem mem_all (kind : Kind) : kind ∈ all := by
  cases kind <;> decide

theorem nodup_all : all.Nodup := by decide

/-- The canonical name of a kind. -/
def name : Kind → String
  | nil => "nil"
  | bool => "bool"
  | int => "int"
  | id => "id"
  | event => "event"
  | state => "state"

instance : ToString Kind := ⟨name⟩

/-- Different kinds have different names. -/
theorem name_injective {a b : Kind} (h : a.name = b.name) : a = b := by
  revert h
  cases a <;> cases b <;> decide

/-- The kind with the given canonical name. -/
def ofName? (text : String) : Option Kind :=
  all.find? fun kind => kind.name == text

/-- A text names at most one kind, and exactly the kind it is the name of. -/
theorem ofName?_eq_some_iff {text : String} {kind : Kind} :
    ofName? text = some kind ↔ kind.name = text := by
  constructor
  · intro h
    simpa using List.find?_some h
  · rintro rfl
    cases kind <;> decide

@[simp] theorem ofName?_name (kind : Kind) : ofName? kind.name = some kind :=
  ofName?_eq_some_iff.mpr rfl

end Kind

end MachineTypes
