/-!
# Log events

What the library has to tell about its own work, apart from its answers. A
`Logged` value carries the events of the computation that gave it, in order, so
that they are there also when the value is a failure.
-/

namespace MachineTypes

/-- An event worth recording. -/
inductive LogEvent where
  /-- A registry was built; it holds so many spellings. -/
  | registryBuilt (primitives : Nat)
  /-- The join of a list became `any` at the operand with this index. -/
  | absorbed (operand : Nat)
  deriving DecidableEq

namespace LogEvent

/-- How important an event is. -/
def level : LogEvent → String
  | registryBuilt _ => "DEBUG"
  | absorbed _ => "TRACE"

/-- The wording of an event. -/
def message : LogEvent → String
  | registryBuilt _ => "type registry built"
  | absorbed _ => "join_all absorbed into `any`"

/-- The number that an event carries, under its label. -/
def detail : LogEvent → String × Nat
  | registryBuilt primitives => ("primitives", primitives)
  | absorbed operand => ("operand", operand)

end LogEvent

/-- A value and the events logged on the way to it. -/
structure Logged (α : Type) where
  value : α
  log : List LogEvent

/-- A value that was found without anything to report. -/
def Logged.quiet {α : Type} (value : α) : Logged α := ⟨value, []⟩

/-- The value changed by a function that reports nothing. -/
def Logged.map {α β : Type} (f : α → β) (logged : Logged α) : Logged β :=
  ⟨f logged.value, logged.log⟩

end MachineTypes
