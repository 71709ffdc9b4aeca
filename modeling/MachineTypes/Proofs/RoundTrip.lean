import MachineTypes.Proofs.Reading

/-!
# Reading gives back what was written

The written form of a type keeps everything there is in it, the refinements of
events included, and the reader takes it back to the type. The one thing that
the reader does of its own accord is to sort the fields of a named tuple, and
the fields of a canonical type are in order already.

Reading accepts more than writing gives, so a value that is read need not be the
written form of the type. But what is read is canonical, and so its written form
is read as the same type again.

## Main results

* `ofJson_toJson`, `fieldsOfJson_toJson` — a canonical type or field list is
  read back as it was.
* `toJson_inverted` — with what follows from it.
-/

namespace MachineTypes.Ty

/-- A written field is read back, once its type is. -/
theorem fieldOfJson_members {name : String} {ty : Ty} (h : ofJson ty.toJson = .ok ty) :
    fieldOfJson (.obj [("name", .str name), ("ty", ty.toJson)]) = .ok (name, ty) := by
  have hname : nameMember [("name", .str name), ("ty", ty.toJson)] = .ok (some name) := rfl
  have hty : tyMember [("name", .str name), ("ty", ty.toJson)] = .ok (some ty) := by
    rw [tyMember_eq_lookup]
    show some <$> ofJson ty.toJson = .ok (some ty)
    rw [h]
    rfl
  rw [fieldOfJson, hname, hty]
  rfl

mutual

/-- A canonical type is read back from its written form. -/
theorem ofJson_toJson : (ty : Ty) → ty.Canonical → ofJson ty.toJson = .ok ty
  | nil, _ | bool, _ | int, _ | id, _ | state, _ | any, _ => rfl
  | event none, _ | event (some _), _ => by
    simp only [toJson, ofJson, Former.ofName_name]
    rfl
  | tuple elements, h => by
    simp only [toJson, ofJson, Former.ofName_name, elementsOfJson,
      ofJsonEach_toJsonEach elements h]
    rfl
  | namedTuple fields, ⟨hascending, hfields⟩ => by
    simp only [toJson, ofJson, Former.ofName_name, fieldsOfJson,
      ofJsonFields_toJsonFields fields hfields]
    show (ofFields fields).mapError DecodeError.invalid = _
    rw [ofFields, Fields.ofList_of_ascending hascending]
    rfl
  | sequence element, h => by
    simp only [toJson, ofJson, Former.ofName_name, ofJson_toJson element h]
    rfl

private theorem ofJsonEach_toJsonEach :
    (tys : List Ty) → CanonicalEach tys → ofJsonEach (toJsonEach tys) = .ok tys
  | [], _ => by
    rw [toJsonEach, ofJsonEach]
    rfl
  | ty :: rest, ⟨hty, hrest⟩ => by
    rw [toJsonEach, ofJsonEach, ofJson_toJson ty hty, ofJsonEach_toJsonEach rest hrest]
    rfl

/-- Canonical fields are read back in the order in which they were written. -/
theorem ofJsonFields_toJsonFields :
    (fields : List Field) → CanonicalFields fields →
      ofJsonFields (toJsonFields fields) = .ok fields
  | [], _ => by
    rw [toJsonFields, ofJsonFields]
    rfl
  | (name, ty) :: rest, ⟨hty, hrest⟩ => by
    rw [toJsonFields, ofJsonFields, fieldOfJson_members (ofJson_toJson ty hty),
      ofJsonFields_toJsonFields rest hrest]
    rfl

end

/-- A canonical field list is read back from its written form. -/
theorem fieldsOfJson_toJson {fields : List Field} (h : (namedTuple fields).Canonical) :
    Fields.ofJson (Fields.toJson fields) = .ok fields := by
  rw [Fields.ofJson, Fields.toJson, fieldsOfJson, ofJsonFields_toJsonFields fields h.2]
  show (Fields.ofList fields).mapError DecodeError.invalid = _
  rw [Fields.ofList_of_ascending h.1]
  rfl

/-- Values that are read back are told apart by what is written. -/
private theorem write_inj {α : Type} {write : α → Json} {read : Json → Except DecodeError α}
    {a b : α} (ha : read (write a) = .ok a) (hb : read (write b) = .ok b) :
    write a = write b ↔ a = b := by
  constructor
  · intro h
    rw [h, hb] at ha
    exact (Except.ok.inj ha).symm
  · rintro rfl
    rfl

/-- **Reading undoes writing**, refinements included: a canonical type is read
back as it was, so two canonical types are equal when they are written alike,
and whatever value a type is read from, its written form is read as that type.
The same holds of field lists. -/
theorem toJson_inverted :
    (∀ ty : Ty, ty.Canonical → ofJson ty.toJson = .ok ty) ∧
    (∀ a b : Ty, a.Canonical → b.Canonical → (a.toJson = b.toJson ↔ a = b)) ∧
    (∀ (json : Json) (ty : Ty), ofJson json = .ok ty → ofJson ty.toJson = .ok ty) ∧
    (∀ fields : List Field, (namedTuple fields).Canonical →
      Fields.ofJson (Fields.toJson fields) = .ok fields) ∧
    (∀ as bs : List Field, (namedTuple as).Canonical → (namedTuple bs).Canonical →
      (Fields.toJson as = Fields.toJson bs ↔ as = bs)) ∧
    ∀ (json : Json) (fields : List Field), Fields.ofJson json = .ok fields →
      Fields.ofJson (Fields.toJson fields) = .ok fields := by
  refine ⟨ofJson_toJson, fun a b ha hb => ?_, fun json ty h => ?_, fun fields h => ?_,
    fun as bs has hbs => ?_, fun json fields h => ?_⟩
  · exact write_inj (ofJson_toJson a ha) (ofJson_toJson b hb)
  · exact ofJson_toJson ty (canonical_of_ofJson h)
  · exact fieldsOfJson_toJson h
  · exact write_inj (fieldsOfJson_toJson has) (fieldsOfJson_toJson hbs)
  · exact fieldsOfJson_toJson (canonical_of_fieldsOfJson h)

/-- Two events that differ in their refinement only, inside two fields that were
read out of order and in different forms. -/
theorem toJson_inverted_fields :
    ofJson (namedTuple [("a", event (some "x")), ("b", event none)]).toJson =
        .ok (namedTuple [("a", event (some "x")), ("b", event none)]) ∧
      (tuple [event (some "x")]).toJson ≠ (tuple [event none]).toJson ∧
      Fields.ofJson (Fields.toJson [("a", event (some "x")), ("b", event none)]) =
        .ok [("a", event (some "x")), ("b", event none)] := by
  obtain ⟨-, htell, hread, hfields, -, -⟩ := toJson_inverted
  have hcanonical : (namedTuple [("a", event (some "x")), ("b", event none)]).Canonical :=
    ⟨by decide, by simp [CanonicalFields, Canonical]⟩
  have hsource : ofJson (.obj [("named_tuple", .arr [.arr [.str "b", .obj [("event", .null)]],
      .obj [("name", .str "a"), ("ty", .obj [("event", .str "x")])]])]) =
        .ok (namedTuple [("a", event (some "x")), ("b", event none)]) := by
    have hbuilt : ofFields [("b", event none), ("a", event (some "x"))] =
        .ok (namedTuple [("a", event (some "x")), ("b", event none)]) := by
      simp [ofFields, Fields.ofList, Fields.sort, List.mergeSort, Fields.adjacentRepeat?,
        Except.map]
    show (ofFields [("b", event none), ("a", event (some "x"))]).mapError _ = _
    rw [hbuilt]
    rfl
  refine ⟨hread _ _ hsource, fun h => ?_, hfields _ hcanonical⟩
  have heq := (htell (tuple [event (some "x")]) (tuple [event none])
    (by simp [CanonicalEach, Canonical]) (by simp [CanonicalEach, Canonical])).mp h
  cases heq

end MachineTypes.Ty
