import MachineTypes.Codec.Ty
import MachineTypes.Proofs.Outcome
import MachineTypes.Proofs.Shape

/-!
# What is read is written by the rules

The reader of types goes through a JSON value and fails at the first part that
it cannot read. Where it does not fail, each step that it took is a rule of the
grammar, so the value writes the type that was read.

## Main results

* `spells_of_ofJson`, `spellsFields_of_fieldsOfJson` — the reader is sound for
  the grammar, for types and for field lists.
* `canonical_of_spells`, `canonical_of_ofJson` — only canonical types are
  written, and so only such types are read.
-/

namespace MachineTypes

namespace Ty

/-- The items of an array have the form of fields, with these names and written
types, and the types that are written are those of the fields. -/
structure SpellsFields (items : List Json) (parts : List (String × Json)) (fields : List Field) :
    Prop where
  length : items.length = parts.length
  form : ∀ (i : Nat) (item : Json) (part : String × Json),
    items[i]? = some item → parts[i]? = some part → FieldForm item part.1 part.2
  names : Fields.names fields = parts.map Prod.fst
  spells : ∀ (i : Nat) (part : String × Json) (field : Field),
    parts[i]? = some part → fields[i]? = some field → Spells part.2 field.2

theorem SpellsFields.nil : SpellsFields [] [] [] where
  length := rfl
  form := by simp
  names := rfl
  spells := by simp

theorem SpellsFields.cons {item written : Json} {name : String} {ty : Ty} {items : List Json}
    {parts : List (String × Json)} {fields : List Field} (hform : FieldForm item name written)
    (hty : Spells written ty) (h : SpellsFields items parts fields) :
    SpellsFields (item :: items) ((name, written) :: parts) ((name, ty) :: fields) where
  length := congrArg (· + 1) h.length
  form := forall_getElem?_cons.mpr ⟨hform, h.form⟩
  names := congrArg (name :: ·) h.names
  spells := forall_getElem?_cons.mpr ⟨hty, h.spells⟩

/-! ## The steps of the reader -/

theorem scalar_eq_ok_iff {former : Former} {ty : Ty} :
    former.scalar = .ok ty ↔ former.scalar? = some ty := by
  rw [Former.scalar]
  cases former.scalar? <;> simp

theorem refinementOfJson_eq_ok {value : Json} {refinement : Option String}
    (h : refinementOfJson value = .ok refinement) :
    Spells (.obj [(Former.event.name, value)]) (event refinement) := by
  cases value with
  | null =>
    obtain rfl : none = refinement := Except.ok.inj h
    exact .event
  | str name =>
    obtain rfl : some name = refinement := Except.ok.inj h
    exact .refinedEvent name
  | _ => cases h

/-- The name member is a text if it is there. -/
theorem nameMember_eq_ok_iff {members : List (String × Json)} {found : Option String} :
    nameMember members = .ok found ↔ members.lookup "name" = found.map .str := by
  unfold nameMember
  cases members.lookup "name" with
  | none => cases found <;> simp
  | some value => cases value <;> cases found <;> simp

/-- A former that makes a type on its own may be written as a key to `null`. -/
theorem spells_of_isNull {former : Former} {value : Json} {ty : Ty}
    (h : (if value.isNull then former.scalar else .error .malformed) = .ok ty) :
    Spells (.obj [(former.name, value)]) ty := by
  cases value with
  | null => exact .keyed (scalar_eq_ok_iff.mp h)
  | _ => cases h

/-- Fields that are read from an array make the named tuple that it writes. -/
theorem spells_of_ofFields {items : List Json} {parts : List (String × Json)}
    {fields : List Field} {ty : Ty} (hfields : SpellsFields items parts fields)
    (h : ofFields fields = .ok ty) : Spells (.obj [(Former.namedTuple.name, .arr items)]) ty := by
  obtain ⟨built, hbuilt, rfl⟩ := map_eq_ok_iff.mp h
  obtain ⟨rfl, hascending⟩ := Fields.ofList_eq_ok hbuilt
  exact .namedTuple hfields.length hfields.form hfields.names hfields.spells
    (Fields.sort_perm fields) hascending

mutual

/-- A type that is read from a JSON value is written by it. -/
theorem spells_of_ofJson : (json : Json) → {ty : Ty} → ofJson json = .ok ty → Spells json ty
  | .str text, ty, h => by
    rw [ofJson] at h
    obtain ⟨former, hname, hty⟩ := bind_eq_ok_iff.mp h
    obtain rfl := Former.ofName_eq_ok_iff.mp hname
    exact .scalar (scalar_eq_ok_iff.mp hty)
  | .obj [(key, value)], ty, h => by
    rw [ofJson] at h
    obtain ⟨former, hname, hty⟩ := bind_eq_ok_iff.mp h
    obtain rfl := Former.ofName_eq_ok_iff.mp hname
    cases former with
    | event =>
      obtain ⟨refinement, hrefinement, hevent⟩ := bind_eq_ok_iff.mp hty
      obtain rfl : event refinement = ty := Except.ok.inj hevent
      exact refinementOfJson_eq_ok hrefinement
    | tuple =>
      obtain ⟨elements, helements, htuple⟩ := bind_eq_ok_iff.mp hty
      obtain rfl : tuple elements = ty := Except.ok.inj htuple
      obtain ⟨items, rfl, hlength, hitems⟩ := spells_of_elementsOfJson value helements
      exact .tuple hlength hitems
    | namedTuple =>
      obtain ⟨fields, hfields, hbuilt⟩ := bind_eq_ok_iff.mp hty
      obtain ⟨items, parts, rfl, hparts⟩ := spellsFields_of_fieldsOfJson value hfields
      exact spells_of_ofFields hparts (mapError_eq_ok_iff.mp hbuilt)
    | sequence =>
      obtain ⟨element, helement, hsequence⟩ := bind_eq_ok_iff.mp hty
      obtain rfl : sequence element = ty := Except.ok.inj hsequence
      exact .sequence (spells_of_ofJson value helement)
    | _ => exact spells_of_isNull hty
  | .obj [], ty, h => by simp [ofJson] at h
  | .obj (_ :: _ :: _), ty, h => by simp [ofJson] at h
  | .null, ty, h | .bool _, ty, h | .num _ _, ty, h | .arr _, ty, h => by simp [ofJson] at h

/-- Elements that are read from a JSON value are written by the items of an
array. -/
theorem spells_of_elementsOfJson : (value : Json) → {tys : List Ty} →
    elementsOfJson value = .ok tys → ∃ items, value = .arr items ∧ items.length = tys.length ∧
      ∀ (i : Nat) (item : Json) (ty : Ty), items[i]? = some item → tys[i]? = some ty →
        Spells item ty
  | .arr items, tys, h => by
    rw [elementsOfJson] at h
    exact ⟨items, rfl, spells_of_ofJsonEach items h⟩
  | .null, tys, h | .bool _, tys, h | .num _ _, tys, h | .str _, tys, h | .obj _, tys, h => by
    simp [elementsOfJson] at h

private theorem spells_of_ofJsonEach : (items : List Json) → {tys : List Ty} →
    ofJsonEach items = .ok tys → items.length = tys.length ∧
      ∀ (i : Nat) (item : Json) (ty : Ty), items[i]? = some item → tys[i]? = some ty →
        Spells item ty
  | [], tys, h => by
    rw [ofJsonEach] at h
    cases h
    simp
  | item :: rest, tys, h => by
    rw [ofJsonEach] at h
    obtain ⟨head, hhead, h⟩ := bind_eq_ok_iff.mp h
    obtain ⟨tail, htail, h⟩ := bind_eq_ok_iff.mp h
    obtain rfl : head :: tail = tys := Except.ok.inj h
    obtain ⟨hlength, hrest⟩ := spells_of_ofJsonEach rest htail
    exact ⟨congrArg (· + 1) hlength,
      forall_getElem?_cons.mpr ⟨spells_of_ofJson item hhead, hrest⟩⟩

/-- Fields that are read from a JSON value are written by the items of an
array. -/
theorem spellsFields_of_fieldsOfJson : (value : Json) → {fields : List Field} →
    fieldsOfJson value = .ok fields → ∃ items parts, value = .arr items ∧
      SpellsFields items parts fields
  | .arr items, fields, h => by
    rw [fieldsOfJson] at h
    obtain ⟨parts, hparts⟩ := spellsFields_of_ofJsonFields items h
    exact ⟨items, parts, rfl, hparts⟩
  | .null, fields, h | .bool _, fields, h | .num _ _, fields, h | .str _, fields, h
  | .obj _, fields, h => by simp [fieldsOfJson] at h

private theorem spellsFields_of_ofJsonFields : (items : List Json) → {fields : List Field} →
    ofJsonFields items = .ok fields → ∃ parts, SpellsFields items parts fields
  | [], fields, h => by
    rw [ofJsonFields] at h
    cases h
    exact ⟨[], .nil⟩
  | item :: rest, fields, h => by
    rw [ofJsonFields] at h
    obtain ⟨⟨name, ty⟩, hhead, h⟩ := bind_eq_ok_iff.mp h
    obtain ⟨tail, htail, h⟩ := bind_eq_ok_iff.mp h
    obtain rfl : (name, ty) :: tail = fields := Except.ok.inj h
    obtain ⟨written, hform, hty⟩ := spells_of_fieldOfJson item hhead
    obtain ⟨parts, hparts⟩ := spellsFields_of_ofJsonFields rest htail
    exact ⟨(name, written) :: parts, .cons hform hty hparts⟩

/-- A field that is read from a JSON value has its form, with a part that writes its
type. -/
theorem spells_of_fieldOfJson (item : Json) {name : String} {ty : Ty}
    (h : fieldOfJson item = .ok (name, ty)) :
    ∃ written, FieldForm item name written ∧ Spells written ty := by
  unfold fieldOfJson at h
  split at h
  · next members =>
    obtain ⟨foundName, hname, h⟩ := bind_eq_ok_iff.mp h
    obtain ⟨foundTy, hty, h⟩ := bind_eq_ok_iff.mp h
    split at h
    · cases h
      obtain ⟨written, hwritten, hspells⟩ := spells_of_tyMember members hty
      exact ⟨written, .members (nameMember_eq_ok_iff.mp hname) hwritten, hspells⟩
    · cases h
    · cases h
  · next written rest =>
    obtain ⟨found, hfound, h⟩ := bind_eq_ok_iff.mp h
    cases rest with
    | nil =>
      cases h
      exact ⟨written, .pair _ written, spells_of_ofJson written hfound⟩
    | cons => cases h
  · cases h

private theorem spells_of_tyMember : (members : List (String × Json)) → {ty : Ty} →
    tyMember members = .ok (some ty) → ∃ written, members.lookup "ty" = some written ∧
      Spells written ty
  | [], ty, h => by
    rw [tyMember] at h
    cases h
  | (key, value) :: rest, ty, h => by
    rw [tyMember] at h
    by_cases hkey : key = "ty"
    · subst hkey
      rw [if_pos rfl] at h
      obtain ⟨found, hfound, h⟩ := bind_eq_ok_iff.mp h
      cases h
      exact ⟨value, by simp, spells_of_ofJson value hfound⟩
    · rw [if_neg hkey] at h
      obtain ⟨written, hwritten, hspells⟩ := spells_of_tyMember rest h
      have hne : ("ty" == key) = false := beq_eq_false_iff_ne.mpr (Ne.symm hkey)
      exact ⟨written, by rw [List.lookup_cons, hne]; exact hwritten, hspells⟩

end

/-! ## What is written is canonical -/

private theorem canonical_of_scalar? {former : Former} {ty : Ty}
    (h : former.scalar? = some ty) : ty.Canonical := by
  cases former <;> cases h <;> trivial

/-- Only canonical types are written. -/
theorem canonical_of_spells {json : Json} {ty : Ty} (h : Spells json ty) : ty.Canonical := by
  induction h with
  | scalar h => exact canonical_of_scalar? h
  | keyed h => exact canonical_of_scalar? h
  | event => trivial
  | refinedEvent => trivial
  | @tuple items elements hlength _ ih =>
    refine canonicalEach_iff.mpr fun ty hmem => ?_
    obtain ⟨i, hi⟩ := List.mem_iff_getElem?.mp hmem
    obtain ⟨item, hitem⟩ := exists_getElem?_of_length_eq hlength.symm hi
    exact ih i item ty hitem hi
  | @namedTuple items parts fields sorted _ _ hnames _ hperm hascending ih =>
    refine ⟨hascending, canonicalFields_iff.mpr fun field hmem => ?_⟩
    obtain ⟨i, hi⟩ := List.mem_iff_getElem?.mp (hperm.mem_iff.mp hmem)
    have hlength : fields.length = parts.length := by simpa using congrArg List.length hnames
    obtain ⟨part, hpart⟩ := exists_getElem?_of_length_eq hlength hi
    exact ih i part field hpart hi
  | sequence _ ih => exact ih

/-- Only canonical types are read. -/
theorem canonical_of_ofJson {json : Json} {ty : Ty} (h : ofJson json = .ok ty) : ty.Canonical :=
  canonical_of_spells (spells_of_ofJson json h)

/-- Only canonical field lists are read. -/
theorem canonical_of_fieldsOfJson {value : Json} {fields : List Field}
    (h : Fields.ofJson value = .ok fields) : (namedTuple fields).Canonical := by
  rw [Fields.ofJson] at h
  obtain ⟨given, hgiven, hbuilt⟩ := bind_eq_ok_iff.mp h
  have hfields : ofFields given = .ok (namedTuple fields) := by
    rw [ofFields, mapError_eq_ok_iff.mp hbuilt, Except.map]
  obtain ⟨items, parts, -, hparts⟩ := spellsFields_of_fieldsOfJson value hgiven
  exact canonical_of_spells (spells_of_ofFields hparts hfields)

end Ty

end MachineTypes
