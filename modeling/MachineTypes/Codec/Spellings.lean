import MachineTypes.Codec.Basic
import MachineTypes.Registry.Spellings

/-!
# Written kinds and tables of spellings

A kind is written as its name. Reading also takes an object whose only member
has the name as its key and `null` as its value.

A table of spellings is written as an object with one member for each kind.
Reading takes an object with some of these members, or an array of the first few
spellings in declaration order; a kind that is left out keeps its canonical name.
The members of an object are judged in ascending order of their keys, so of two
faults the one under the smaller key is reported.
-/

namespace MachineTypes

namespace Kind

/-- The written form of a kind. -/
def toJson (kind : Kind) : Json := .str kind.name

/-- The kind with the given name, or the names that would have been right. -/
def ofName (text : String) : Except DecodeError Kind :=
  match ofName? text with
  | some kind => .ok kind
  | none => .error (.unknownVariant text (all.map name))

/-- The kind that a JSON value writes. -/
def ofJson : Json → Except DecodeError Kind
  | .str text => ofName text
  | .obj [(key, value)] =>
    match ofName key with
    | .ok kind => if value.isNull then .ok kind else .error .malformed
    | .error error => .error error
  | _ => .error .malformed

/-- What is read is a kind under its own name. -/
theorem ofName_eq_ok_iff {text : String} {kind : Kind} :
    ofName text = .ok kind ↔ kind.name = text := by
  rw [← ofName?_eq_some_iff, ofName]
  cases ofName? text <;> simp

/-- A kind is read from its name, as a text or as a key to `null`, and from nothing
else. -/
theorem ofJson_eq_ok_iff {json : Json} {kind : Kind} :
    ofJson json = .ok kind ↔ json = .str kind.name ∨ json = .obj [(kind.name, .null)] := by
  constructor
  · intro h
    unfold ofJson at h
    split at h
    · next text =>
      obtain rfl := ofName_eq_ok_iff.mp h
      exact .inl rfl
    · next key value =>
      split at h
      · next found hfound =>
        obtain rfl := ofName_eq_ok_iff.mp hfound
        cases value with
        | null =>
          obtain rfl := Except.ok.inj h
          exact .inr rfl
        | _ => cases h
      · cases h
    · cases h
  · have hname : ofName kind.name = .ok kind := ofName_eq_ok_iff.mpr rfl
    rintro (rfl | rfl)
    · exact hname
    · rw [ofJson, hname]
      rfl

/-- What is written is read back. -/
@[simp] theorem ofJson_toJson (kind : Kind) : ofJson kind.toJson = .ok kind :=
  ofJson_eq_ok_iff.mpr (.inl rfl)

end Kind

namespace Spellings

/-- The written form of a table. -/
def toJson (spellings : Spellings) : Json :=
  .obj (Kind.all.map fun kind => (kind.name, .str (spellings.spell kind)))

/-- The table that takes what it can from `given` and else the canonical names. -/
def overlay (given : Kind → Option String) : Spellings :=
  ⟨fun kind => (given kind).getD kind.name⟩

/-- What is wrong with one member of a table object. -/
def memberFault? : String × Json → Option DecodeError
  | (key, value) =>
    match Kind.ofName? key, value with
    | none, _ => some (.unknownField key (Kind.all.map Kind.name))
    | some _, .str _ => none
    | some _, _ => some .malformed

/-- What is wrong with the members of a table object, the smallest key first. -/
def fault? (members : List (String × Json)) : Option DecodeError :=
  (members.mergeSort fun a b => decide (a.1 ≤ b.1)).findSome? memberFault?

/-- The text under a key. -/
def textAt? (members : List (String × Json)) (key : String) : Option String :=
  match members.lookup key with
  | some (.str text) => some text
  | _ => none

/-- The texts of an array that holds nothing else. -/
def textsOfJson : List Json → Except DecodeError (List String)
  | [] => return []
  | .str text :: rest => return text :: (← textsOfJson rest)
  | _ :: _ => .error .malformed

/-- The table that a JSON value writes. -/
def ofJson : Json → Except DecodeError Spellings
  | .obj members =>
    match fault? members with
    | some error => .error error
    | none => .ok (overlay fun kind => textAt? members kind.name)
  | .arr items => do
    let texts ← textsOfJson items
    if texts.length ≤ Kind.all.length then
      return overlay fun kind => (Kind.all.zip texts).lookup kind
    else
      .error .malformed
  | _ => .error .malformed

end Spellings

end MachineTypes
