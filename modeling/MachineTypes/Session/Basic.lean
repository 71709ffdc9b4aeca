import MachineTypes.Cache
import MachineTypes.Codec.Basic
import MachineTypes.Lattice.Comparison
import MachineTypes.Registry.Basic
import MachineTypes.Ty.Position

/-!
# Sessions

A session works on types by name. It holds a registry, registers that each
hold one type, and a cache keyed by types. A step either makes a type by a
recipe and puts it into a register, or asks a question, or works on the cache.

What a step answers is a value of `Answer`, and what keeps it from answering a
value of `Failure`. `MachineTypes.Session.Run` says what the steps do.
-/

namespace MachineTypes

/-- How a type is made. A `String` that is not a name, a spelling or a
refinement is a register. -/
inductive Recipe where
  /-- Read a written type. -/
  | written (source : Json)
  /-- Look a spelling up. -/
  | primitive (spelling : String)
  /-- Look up a spelling that is known to be registered. -/
  | known (spelling : String)
  /-- Read a written kind and take its type. -/
  | kind (source : Json)
  /-- The event type refined with a name. -/
  | event (refinement : String)
  | tuple (parts : List String)
  /-- The sequence type nested so many times. -/
  | sequence (part : String) (depth : Nat)
  /-- A named tuple whose field names are known to be distinct. -/
  | distinct (fields : List (String × String))
  /-- A named tuple of any fields. -/
  | named (fields : List (String × String))
  | join (left right : String)
  | joinAll (operands : List String)
  /-- A component of a compound type. -/
  | part (of : String) (hop : Hop)

/-- One step of a session. -/
inductive Step where
  /-- Make a type and put it into a register. -/
  | define (target : String) (recipe : Recipe)
  /-- Compare the types in two registers. -/
  | compare (left right : String)
  /-- Show the type in a register in the spellings of the registry. -/
  | display (of : String)
  /-- Read the type in a register out. -/
  | read (of : String)
  /-- Set the cached value of a type. -/
  | put (key : String) (value : Int)
  /-- Look the cached value of a type up. -/
  | get (key : String)
  /-- Remove a type from the cache. -/
  | remove (key : String)

/-- What a step answers. -/
inductive Answer where
  /-- A type was made and put into its register. -/
  | defined (ty : Ty)
  /-- The type has no such part, and no register was changed. -/
  | absent
  | compared (comparison : Comparison)
  | displayed (text : String)
  | held (ty : Ty)
  /-- The cache was changed: the value it had for the key, and its size now. -/
  | cached (old : Option Int) (size : Nat)
  /-- The entry of the cache: the key as it was stored, and its value. -/
  | found (entry : Option (Ty × Int))

/-- What keeps a step from answering. -/
inductive Failure where
  /-- Nothing was put into this register. -/
  | emptyRegister (name : String)
  | undecodable (error : DecodeError)
  | refused (error : Error)
  | violated (violation : Violation)

/-- The state of a session. -/
structure Session where
  registry : Registry
  registers : Std.HashMap String Ty
  cache : Cache

/-- A session at its start. -/
def Session.start (registry : Registry) : Session := ⟨registry, ∅, .empty⟩

end MachineTypes
