import MachineTypes.Error

/-!
# Written data

Types, kinds and tables of spellings are written as JSON values. This module has
the values, and the reasons why one of them may not be the written form of
anything.
-/

namespace MachineTypes

/-! ## JSON values

A number is a decimal, `mantissa · 10 ^ -exponent`. The members of an object are
listed with their keys; their order has no meaning, so everything that reads an
object either looks a key up or visits the keys in ascending order.
-/

/-- A JSON value. -/
inductive Json where
  | null
  | bool (value : Bool)
  | num (mantissa : Int) (exponent : Nat)
  | str (text : String)
  | arr (items : List Json)
  | obj (members : List (String × Json))
  deriving Inhabited

/-- Whether the value is `null`. -/
def Json.isNull : Json → Bool
  | null => true
  | _ => false

/-! ## What can be wrong

Most misshapen data is just `malformed`; the other reasons have a wording that
names the offending part.
-/

/-- Why a JSON value could not be decoded. -/
inductive DecodeError where
  /-- The value has the wrong shape. -/
  | malformed
  /-- The value is tagged with a name that is none of the expected ones. -/
  | unknownVariant (found : String) (expected : List String)
  /-- An object lacks a member that it has to have. -/
  | missingField (name : String)
  /-- An object has a member that it must not have. -/
  | unknownField (found : String) (expected : List String)
  /-- The shape is right and what it describes is refused. -/
  | invalid (error : Error)
  deriving DecidableEq

namespace DecodeError

/-- A list of names as a message shows it. -/
def quoteAll (names : List String) : String :=
  String.intercalate ", " (names.map fun name => s!"`{name}`")

/-- The wording of the reason, if it has one. -/
def message? : DecodeError → Option String
  | malformed => none
  | unknownVariant found expected =>
    some (s!"unknown variant `{found}`, expected one of " ++ quoteAll expected)
  | missingField name => some s!"missing field `{name}`"
  | unknownField found expected =>
    some (s!"unknown field `{found}`, expected one of " ++ quoteAll expected)
  | invalid error => some error.message

end DecodeError

end MachineTypes
