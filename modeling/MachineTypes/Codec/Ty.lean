import MachineTypes.Codec.Basic
import MachineTypes.Ty.Canonical

/-!
# Written types

A type without components is written as the name of its former, any other as an
object with that name as its only key. An event is always an object, whose
value is `null` or the refinement. A field is written as an object with the
members `name` and `ty`.

Reading takes a little more than writing gives. A former without components may
also stand as a key, with the value `null`. A field may also be the array of
its name and its type, and a field object may have other members, which are not
looked at. The fields of a named tuple may come in any order.

Parts are read from left to right and the first failure is the failure of the
whole. The fields of a named tuple are checked for repeated names after all of
them have been read.
-/

namespace MachineTypes

namespace Former

/-- The former with the given name, or the names that would have been right. -/
def ofName (text : String) : Except DecodeError Former :=
  match ofName? text with
  | some former => .ok former
  | none => .error (.unknownVariant text (all.map name))

theorem ofName_eq_ok_iff {text : String} {former : Former} :
    ofName text = .ok former ↔ former.name = text := by
  rw [← ofName?_eq_some_iff, ofName]
  cases ofName? text <;> simp

@[simp] theorem ofName_name (former : Former) : ofName former.name = .ok former :=
  ofName_eq_ok_iff.mpr rfl

/-- The type that a former makes on its own, or a failure if it makes none. -/
def scalar (former : Former) : Except DecodeError Ty :=
  match former.scalar? with
  | some ty => .ok ty
  | none => .error .malformed

end Former

namespace Ty

/-! ## Writing -/

mutual

/-- The written form of a type. -/
def toJson : Ty → Json
  | nil => .str Former.nil.name
  | bool => .str Former.bool.name
  | int => .str Former.int.name
  | id => .str Former.id.name
  | event none => .obj [(Former.event.name, .null)]
  | event (some refinement) => .obj [(Former.event.name, .str refinement)]
  | state => .str Former.state.name
  | any => .str Former.any.name
  | tuple elements => .obj [(Former.tuple.name, .arr (toJsonEach elements))]
  | namedTuple fields => .obj [(Former.namedTuple.name, .arr (toJsonFields fields))]
  | sequence element => .obj [(Former.sequence.name, toJson element)]

/-- The written forms of the elements. -/
def toJsonEach : List Ty → List Json
  | [] => []
  | ty :: rest => toJson ty :: toJsonEach rest

/-- The written forms of the fields. -/
def toJsonFields : List (String × Ty) → List Json
  | [] => []
  | (name, ty) :: rest => .obj [("name", .str name), ("ty", toJson ty)] :: toJsonFields rest

end

/-! ## Reading -/

/-- The refinement of an event: `null` for none, or its name. -/
def refinementOfJson : Json → Except DecodeError (Option String)
  | .null => .ok none
  | .str name => .ok (some name)
  | _ => .error .malformed

/-- The `name` member of a field object, if it has one. -/
def nameMember (members : List (String × Json)) : Except DecodeError (Option String) :=
  match members.lookup "name" with
  | none => .ok none
  | some (.str name) => .ok (some name)
  | some _ => .error .malformed

mutual

/-- The type that a JSON value writes. -/
def ofJson : Json → Except DecodeError Ty
  | .str text => do (← Former.ofName text).scalar
  | .obj [(key, value)] => do
    match ← Former.ofName key with
    | .event => return event (← refinementOfJson value)
    | .tuple => return tuple (← elementsOfJson value)
    | .namedTuple => (ofFields (← fieldsOfJson value)).mapError .invalid
    | .sequence => return sequence (← ofJson value)
    | former => if value.isNull then former.scalar else .error .malformed
  | _ => .error .malformed

/-- The types that a JSON array writes. -/
def elementsOfJson : Json → Except DecodeError (List Ty)
  | .arr items => ofJsonEach items
  | _ => .error .malformed

/-- The types that the items of an array write. -/
def ofJsonEach : List Json → Except DecodeError (List Ty)
  | [] => return []
  | item :: rest => do
    let ty ← ofJson item
    return ty :: (← ofJsonEach rest)

/-- The fields that a JSON array writes, in the order of the array. -/
def fieldsOfJson : Json → Except DecodeError (List (String × Ty))
  | .arr items => ofJsonFields items
  | _ => .error .malformed

/-- The fields that the items of an array write. -/
def ofJsonFields : List Json → Except DecodeError (List (String × Ty))
  | [] => return []
  | item :: rest => do
    let field ← fieldOfJson item
    return field :: (← ofJsonFields rest)

/-- The field that a JSON value writes. The name is looked at before the type,
and a member that is missing is noticed after those that are there. -/
def fieldOfJson : Json → Except DecodeError (String × Ty)
  | .obj members => do
    match ← nameMember members, ← tyMember members with
    | some name, some ty => return (name, ty)
    | none, _ => .error (.missingField "name")
    | some _, none => .error (.missingField "ty")
  | .arr (.str name :: item :: rest) => do
    let ty ← ofJson item
    if rest.isEmpty then return (name, ty) else .error .malformed
  | _ => .error .malformed

/-- The `ty` member of a field object, if it has one. -/
def tyMember : List (String × Json) → Except DecodeError (Option Ty)
  | [] => return none
  | (key, value) :: rest => if key = "ty" then return some (← ofJson value) else tyMember rest

end

/-! ## Lists of parts -/

/-- Elements are read one after the other, up to the first failure. -/
theorem ofJsonEach_eq_mapM (items : List Json) : ofJsonEach items = items.mapM ofJson := by
  induction items with
  | nil => rfl
  | cons item rest ih => simp [ofJsonEach, ih]

/-- Fields are read one after the other, up to the first failure. -/
theorem ofJsonFields_eq_mapM (items : List Json) :
    ofJsonFields items = items.mapM fieldOfJson := by
  induction items with
  | nil => rfl
  | cons item rest ih => simp [ofJsonFields, ih]

/-- The `ty` member is the first member of that name, read as a type. -/
theorem tyMember_eq_lookup (members : List (String × Json)) :
    tyMember members =
      match members.lookup "ty" with
      | some value => some <$> ofJson value
      | none => .ok none := by
  induction members with
  | nil => rfl
  | cons member rest ih =>
    obtain ⟨key, value⟩ := member
    by_cases h : key = "ty"
    · subst h
      simp [tyMember]
    · have h' : ("ty" == key) = false := beq_eq_false_iff_ne.mpr fun heq => h heq.symm
      rw [tyMember, if_neg h, ih, List.lookup_cons, h']

/-! ## The grammar

Which JSON value writes which type, as a relation. The rules follow the forms of
the notation and say nothing of the order in which a reader meets them, nor of
the failures that it reports.
-/

/-- A JSON value has the form of a field with this name, whose type is written
by the given part. -/
inductive FieldForm : Json → String → Json → Prop where
  /-- An object with the two members, among any others. -/
  | members {members : List (String × Json)} {name : String} {written : Json}
      (hname : members.lookup "name" = some (.str name))
      (hty : members.lookup "ty" = some written) : FieldForm (.obj members) name written
  /-- The array of the two. -/
  | pair (name : String) (written : Json) : FieldForm (.arr [.str name, written]) name written

/-- A JSON value writes a type. -/
inductive Spells : Json → Ty → Prop where
  /-- A former that makes a type on its own, as a text. -/
  | scalar {former : Former} {ty : Ty} (h : former.scalar? = some ty) :
      Spells (.str former.name) ty
  /-- A former that makes a type on its own, as a key. -/
  | keyed {former : Former} {ty : Ty} (h : former.scalar? = some ty) :
      Spells (.obj [(former.name, .null)]) ty
  | event : Spells (.obj [(Former.event.name, .null)]) (event none)
  | refinedEvent (refinement : String) :
      Spells (.obj [(Former.event.name, .str refinement)]) (event (some refinement))
  | tuple {items : List Json} {elements : List Ty} (hlength : items.length = elements.length)
      (h : ∀ (i : Nat) (item : Json) (ty : Ty),
        items[i]? = some item → elements[i]? = some ty → Spells item ty) :
      Spells (.obj [(Former.tuple.name, .arr items)]) (tuple elements)
  /-- The fields stand in any order; `parts` names each and holds its written
  type, `fields` are the same fields read, and `sorted` is what they make. -/
  | namedTuple {items : List Json} {parts : List (String × Json)} {fields sorted : List Field}
      (hlength : items.length = parts.length)
      (hform : ∀ (i : Nat) (item : Json) (part : String × Json),
        items[i]? = some item → parts[i]? = some part → FieldForm item part.1 part.2)
      (hnames : Fields.names fields = parts.map Prod.fst)
      (h : ∀ (i : Nat) (part : String × Json) (field : Field),
        parts[i]? = some part → fields[i]? = some field → Spells part.2 field.2)
      (hperm : sorted.Perm fields) (hascending : Fields.Ascending sorted) :
      Spells (.obj [(Former.namedTuple.name, .arr items)]) (namedTuple sorted)
  | sequence {written : Json} {element : Ty} (h : Spells written element) :
      Spells (.obj [(Former.sequence.name, written)]) (sequence element)

end Ty

/-! ## Field lists -/

namespace Fields

/-- The written form of a field list. -/
def toJson (fields : List Field) : Json := .arr (Ty.toJsonFields fields)

/-- The field list of a named tuple that a JSON value writes. -/
def ofJson (value : Json) : Except DecodeError (List Field) := do
  (ofList (← Ty.fieldsOfJson value)).mapError .invalid

end Fields

end MachineTypes
