import MachineTypes.Ty.Printer

/-!
# What can go wrong

An `Error` is a cause that a caller can meet and handle: a name that is not
registered, or a list of names with a repetition. A `Violation` is a promise
of the caller that did not hold: the operation has no answer to give, and its
message says which promise was broken. Each has one wording, in `message`.
-/

namespace MachineTypes

/-- A refusal that the caller may expect. -/
inductive Error where
  /-- No primitive is spelled like this. -/
  | unknownPrimitive (name : String)
  /-- A field list gives this name twice. -/
  | duplicateField (name : String)
  /-- A table of spellings gives this spelling to two primitives. -/
  | duplicateSpelling (spelling : String)
  deriving DecidableEq

/-- The wording of an error. -/
def Error.message : Error → String
  | unknownPrimitive name => s!"unknown primitive type `{name}`"
  | duplicateField name => s!"duplicate field `{name}` in named tuple"
  | duplicateSpelling spelling => s!"primitive name `{spelling}` is used more than once"

/-- A promise of the checker that did not hold. -/
inductive Violation where
  /-- These two operands met in a join, and one of them is `state`. -/
  | stateJoined (left right : Ty)
  /-- A field list that was to have distinct names was refused. -/
  | fieldsRefused (cause : Error)
  /-- A spelling that was to be registered was refused. -/
  | spellingRefused (cause : Error)

/-- The wording of a violation. -/
def Violation.message : Violation → String
  | stateJoined left right =>
    s!"join: state type reached a join (`{left}` with `{right}`)" ++
      " (checker must keep state values out of value positions)"
  | fieldsRefused cause =>
    "NamedFields: " ++ cause.message ++ " (checker must reject duplicate field names)"
  | spellingRefused cause =>
    "TypeRegistry: " ++ cause.message ++ " (name table and registry are out of sync)"

end MachineTypes
