import MachineTypes.Ty.Basic

/-!
# The text of a type

Types are written `any`, `(t1,t2)`, `(a:t1,b:t2)` and `seq[t]`, and a primitive
by a spelling that the caller supplies for its kind. Names are written as they
are. Both compounds without components are written `()`, and the refinement of
an event is not shown.
-/

namespace MachineTypes.Ty

mutual

/-- The text of a type, with primitives spelled by `spell`. -/
def render (spell : Kind → String) : Ty → String
  | nil => spell .nil
  | bool => spell .bool
  | int => spell .int
  | id => spell .id
  | event _ => spell .event
  | state => spell .state
  | any => "any"
  | tuple elements => "(" ++ String.intercalate "," (renderEach spell elements) ++ ")"
  | namedTuple fields => "(" ++ String.intercalate "," (renderFields spell fields) ++ ")"
  | sequence element => "seq[" ++ render spell element ++ "]"

/-- The texts of the elements. -/
def renderEach (spell : Kind → String) : List Ty → List String
  | [] => []
  | ty :: rest => render spell ty :: renderEach spell rest

/-- The texts of the fields, each a name, a colon and a type. -/
def renderFields (spell : Kind → String) : List (String × Ty) → List String
  | [] => []
  | (name, ty) :: rest => (name ++ ":" ++ render spell ty) :: renderFields spell rest

end

theorem renderEach_eq_map (spell : Kind → String) (tys : List Ty) :
    renderEach spell tys = tys.map (render spell) := by
  induction tys with
  | nil => rfl
  | cons ty rest ih => simp [renderEach, ih]

theorem renderFields_eq_map (spell : Kind → String) (fields : List Field) :
    renderFields spell fields = fields.map fun field => field.1 ++ ":" ++ render spell field.2 := by
  induction fields with
  | nil => rfl
  | cons field rest ih => simp [renderFields, ih]

/-- The text of a type in canonical names. -/
def text (ty : Ty) : String := ty.render Kind.name

instance : ToString Ty := ⟨text⟩

/-- A primitive is written as the spelling of its kind. -/
theorem render_of_kind? {spell : Kind → String} {ty : Ty} {kind : Kind}
    (h : ty.kind? = some kind) : ty.render spell = spell kind := by
  cases ty <;> simp_all [kind?, render]

end MachineTypes.Ty
