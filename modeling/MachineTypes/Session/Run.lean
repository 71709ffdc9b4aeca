import MachineTypes.Codec.Spellings
import MachineTypes.Codec.Ty
import MachineTypes.Lattice.Fold
import MachineTypes.Session.Basic

/-!
# Running a session

`Session.make` makes a type by a recipe, `Session.step` takes one step and
`Session.run` takes a list of them. Registers are read in the order in which a
step names them, before anything else is done. A step that fails changes
nothing, and neither does one that asks for a part which a type does not have.
-/

namespace MachineTypes.Session

/-! ## Registers -/

/-- The type in a register. -/
def read (session : Session) (register : String) : Except Failure Ty :=
  match session.registers[register]? with
  | some ty => .ok ty
  | none => .error (.emptyRegister register)

/-- The types in some registers. -/
def readEach (session : Session) : List String → Except Failure (List Ty)
  | [] => return []
  | register :: rest => do
    let ty ← session.read register
    return ty :: (← session.readEach rest)

/-- Fields whose types are in registers. -/
def readFields (session : Session) : List (String × String) → Except Failure (List Field)
  | [] => return []
  | (name, register) :: rest => do
    let ty ← session.read register
    return (name, ty) :: (← session.readFields rest)

/-- Put a type into a register. -/
def write (session : Session) (register : String) (ty : Ty) : Session :=
  { session with registers := session.registers.insert register ty }

/-! ## Making a type -/

/-- The type that a recipe makes; a part that a type does not have is `none`.
Joining a list of types is what may have something to log. -/
def make (session : Session) : Recipe → Logged (Except Failure (Option Ty))
  | .written source => .quiet do
    return some (← (Ty.ofJson source).mapError .undecodable)
  | .primitive spelling => .quiet do
    return some (← (session.registry.lookup spelling).mapError .refused)
  | .known spelling => .quiet do
    return some (← (session.registry.resolve spelling).mapError .violated)
  | .kind source => .quiet do
    return some (.ofKind (← (Kind.ofJson source).mapError .undecodable))
  | .event refinement => .quiet (.ok (some (.event (some refinement))))
  | .tuple parts => .quiet do
    return some (.tuple (← session.readEach parts))
  | .sequence part depth => .quiet do
    return some ((← session.read part).nest depth)
  | .distinct fields => .quiet do
    return some (← (Ty.ofDistinctFields (← session.readFields fields)).mapError .violated)
  | .named fields => .quiet do
    return some (← (Ty.ofFields (← session.readFields fields)).mapError .refused)
  | .join left right => .quiet do
    let a ← session.read left
    let b ← session.read right
    return some (← (a.join b).mapError .violated)
  | .joinAll operands =>
    match session.readEach operands with
    | .error failure => .quiet (.error failure)
    | .ok tys => (Ty.joinAll tys).map fun joined => (joined.mapError .violated).map some
  | .part of hop => .quiet do
    return (← session.read of).part? hop

/-! ## Taking steps -/

/-- What a step answers, and the session after it. -/
def act (session : Session) : Step → Logged (Except Failure (Answer × Session))
  | .define target recipe =>
    (session.make recipe).map fun made => made.map fun
      | some ty => (.defined ty, session.write target ty)
      | none => (.absent, session)
  | .compare left right => .quiet do
    let a ← session.read left
    let b ← session.read right
    return (.compared (a.compare b), session)
  | .display of => .quiet do
    return (.displayed (session.registry.display (← session.read of)), session)
  | .read of => .quiet do
    return (.held (← session.read of), session)
  | .put key value => .quiet do
    let ty ← session.read key
    let cache := session.cache.put ty value
    return (.cached (session.cache.value? ty) cache.size, { session with cache := cache })
  | .get key => .quiet do
    return (.found (session.cache.get? (← session.read key)), session)
  | .remove key => .quiet do
    let ty ← session.read key
    let cache := session.cache.erase ty
    return (.cached (session.cache.value? ty) cache.size, { session with cache := cache })

/-- Take one step. A failure leaves the session as it was. -/
def step (session : Session) (taken : Step) : Logged (Except Failure Answer) × Session :=
  match session.act taken with
  | ⟨.ok (answer, next), log⟩ => (⟨.ok answer, log⟩, next)
  | ⟨.error failure, log⟩ => (⟨.error failure, log⟩, session)

/-- Take the steps of a list, and collect what they answer. -/
def run (session : Session) : List Step → List (Logged (Except Failure Answer)) × Session
  | [] => ([], session)
  | taken :: rest =>
    let (reply, next) := session.step taken
    let (replies, last) := next.run rest
    (reply :: replies, last)

/-- A step that fails leaves the session as it was. -/
theorem step_eq_self_of_error {session : Session} {taken : Step} {failure : Failure}
    (h : (session.step taken).1.value = .error failure) : (session.step taken).2 = session := by
  unfold step at h ⊢
  split
  · next hact => simp [hact] at h
  · rfl

/-- Steps can be taken in two goes. -/
theorem run_append (session : Session) (front back : List Step) :
    session.run (front ++ back) =
      ((session.run front).1 ++ ((session.run front).2.run back).1,
        ((session.run front).2.run back).2) := by
  induction front generalizing session with
  | nil => rfl
  | cons taken rest ih => simp [run, ih]

/-- Every step is answered. -/
theorem length_run (session : Session) (steps : List Step) :
    (session.run steps).1.length = steps.length := by
  induction steps generalizing session with
  | nil => rfl
  | cons taken rest ih => simp [run, ih]

end MachineTypes.Session
