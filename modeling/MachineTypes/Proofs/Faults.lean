import MachineTypes.Proofs.FieldOrder

/-!
# What can be wrong with a written type

The reader goes through a written type from left to right and stops at the first thing
that it cannot read. This module says what one step of it can fail with. Either a value
has a fault of its own (`Fault`), or the failure is that of a part that the reader enters
(`Enters`): a part that it comes to as a type, with all that stands before it read.

The faults are listed by the form of the value, like the rules of the grammar, each with
its error. A fault that is noticed late says what has to be read before: a missing name
or an item too many comes after the type of the field, and repeated names come after all
fields.

## Main results

* `ofJson_tuple_eq_error_iff`, `ofJson_namedTuple_eq_error_iff`, `ofJson_fields_eq_error_iff`
  — how written elements and written fields fail.
* `fieldOfJson_eq_error_iff`, `ofJson_eq_error_iff_step` — a fault, or a part that fails.
-/

namespace MachineTypes

namespace Former

/-- A text is refused when it is the name of no former. -/
theorem ofName_eq_error_iff {text : String} {e : DecodeError} :
    ofName text = .error e ↔
      (∀ former : Former, former.name ≠ text) ∧ e = .unknownVariant text (all.map name) := by
  have hnone : ofName? text = none ↔ ∀ former : Former, former.name ≠ text := by
    rw [Option.eq_none_iff_forall_ne_some]
    exact forall_congr' fun former => not_congr ofName?_eq_some_iff
  rw [← hnone, ofName]
  cases ofName? text <;> simp [eq_comm]

theorem scalar_eq_error_iff {former : Former} {e : DecodeError} :
    former.scalar = .error e ↔ former.scalar? = none ∧ e = .malformed := by
  rw [scalar]
  cases former.scalar? <;> simp [eq_comm]

end Former

namespace Ty

/-! ## Written elements and fields -/

/-- Written elements fail with the first failure of an element. -/
theorem ofJson_tuple_eq_error_iff {items : List Json} {e : DecodeError} :
    ofJson (.obj [(Former.tuple.name, .arr items)]) = .error e ↔
      FirstFailure ofJson items e := by
  rw [ofJson, Former.ofName_name]
  show (elementsOfJson (.arr items) >>= fun elements =>
    (Except.ok (tuple elements) : Except DecodeError Ty)) = .error e ↔ _
  rw [bind_eq_error_iff, elementsOfJson, ofJsonEach_eq_mapM, mapM_eq_error_iff]
  simp only [reduceCtorEq, and_false, exists_false, or_false]

/-- How written fields fail: with the first failure of a field; or all of them are read
and names are repeated, and then with the smallest of these names. -/
inductive FieldsFail (items : List Json) : DecodeError → Prop where
  | item {e : DecodeError} (h : FirstFailure fieldOfJson items e) : FieldsFail items e
  | repeated {fields : List Field} {name : String}
      (hread : List.Forall₂ (fun item field => fieldOfJson item = .ok field) items fields)
      (hname : Fields.SmallestRepeat fields name) :
      FieldsFail items (.invalid (.duplicateField name))

/-- Fields are read to the end before anything is built from them. -/
theorem bind_fieldsOfJson_eq_error_iff {α : Type} {items : List Json} {e : DecodeError}
    {build : List Field → Except Error α}
    (hbuild : ∀ fields error, build fields = .error error ↔ Fields.ofList fields = .error error) :
    (fieldsOfJson (.arr items) >>= fun fields => (build fields).mapError DecodeError.invalid) =
      .error e ↔ FieldsFail items e := by
  rw [bind_eq_error_iff, fieldsOfJson, ofJsonFields_eq_mapM, mapM_eq_error_iff]
  constructor
  · rintro (hitem | ⟨fields, hread, hrefused⟩)
    · exact .item hitem
    · obtain ⟨error, herror, rfl⟩ := mapError_eq_error_iff.mp hrefused
      obtain ⟨name, rfl, hname⟩ := Fields.ofList_eq_error_iff.mp ((hbuild _ _).mp herror)
      exact .repeated (mapM_eq_ok_iff.mp hread) hname
  · intro h
    cases h with
    | item hitem => exact .inl hitem
    | @repeated fields name hread hname =>
      have herror : build fields = .error (.duplicateField name) :=
        (hbuild _ _).mpr (Fields.ofList_eq_error_iff.mpr ⟨name, rfl, hname⟩)
      exact .inr ⟨fields, mapM_eq_ok_iff.mpr hread, mapError_eq_error_iff.mpr ⟨_, herror, rfl⟩⟩

theorem ofJson_namedTuple_eq_error_iff {items : List Json} {e : DecodeError} :
    ofJson (.obj [(Former.namedTuple.name, .arr items)]) = .error e ↔ FieldsFail items e := by
  rw [ofJson, Former.ofName_name]
  exact bind_fieldsOfJson_eq_error_iff fun fields error => map_eq_error_iff

theorem ofJson_fields_eq_error_iff {items : List Json} {e : DecodeError} :
    Fields.ofJson (.arr items) = .error e ↔ FieldsFail items e :=
  bind_fieldsOfJson_eq_error_iff fun _ _ => Iff.rfl

/-! ## The members of a field object -/

section Members

variable {members : List (String × Json)} {e : DecodeError}

/-- A name member that is there is a text. -/
theorem exists_nameMember_iff :
    (∃ found, nameMember members = .ok found) ↔
      ∀ value, members.lookup "name" = some value → ∃ name, value = .str name := by
  unfold nameMember
  cases members.lookup "name" with
  | none => simp
  | some value => cases value <;> simp

theorem nameMember_eq_error_iff :
    nameMember members = .error e ↔
      (∃ value, members.lookup "name" = some value ∧ ∀ text, value ≠ .str text) ∧
        e = .malformed := by
  unfold nameMember
  cases members.lookup "name" with
  | none => simp
  | some value => cases value <;> simp [eq_comm]

theorem tyMember_eq_ok_iff {found : Option Ty} :
    tyMember members = .ok found ↔
      (members.lookup "ty" = none ∧ found = none) ∨
        ∃ part ty, members.lookup "ty" = some part ∧ ofJson part = .ok ty ∧ found = some ty := by
  rw [tyMember_eq_lookup]
  cases members.lookup "ty" with
  | none => simp [eq_comm]
  | some part =>
    show (ofJson part).map some = .ok found ↔ _
    rw [map_eq_ok_iff]
    simp [eq_comm]

theorem tyMember_eq_none_iff : tyMember members = .ok none ↔ members.lookup "ty" = none := by
  simp [tyMember_eq_ok_iff]

theorem tyMember_eq_error_iff :
    tyMember members = .error e ↔
      ∃ part, members.lookup "ty" = some part ∧ ofJson part = .error e := by
  rw [tyMember_eq_lookup]
  cases members.lookup "ty" with
  | none => simp
  | some part =>
    show (ofJson part).map some = .error e ↔ _
    simp [map_eq_error_iff]

/-- A type member that is there can be read. -/
theorem exists_tyMember_iff :
    (∃ found, tyMember members = .ok found) ↔
      ∀ part, members.lookup "ty" = some part → ∃ ty, ofJson part = .ok ty := by
  simp only [tyMember_eq_ok_iff]
  cases members.lookup "ty" <;> simp

end Members

/-! ## Parts of a value -/

/-- In a written field the reader comes to this part as the field's type: the name, if
there is one before it, is a text. -/
inductive FieldEnters : Json → Json → Prop where
  | members {members : List (String × Json)} {part : Json}
      (hname : ∀ value, members.lookup "name" = some value → ∃ name, value = .str name)
      (hty : members.lookup "ty" = some part) : FieldEnters (.obj members) part
  | items (name : String) (part : Json) (rest : List Json) :
      FieldEnters (.arr (.str name :: part :: rest)) part

/-- In a value the reader comes to this part as the type of a component: all that stands
before it is read. -/
inductive Enters : Json → Json → Prop where
  | element {front back : List Json} {part : Json}
      (hfront : ∀ item ∈ front, ∃ ty, ofJson item = .ok ty) :
      Enters (.obj [(Former.tuple.name, .arr (front ++ part :: back))]) part
  | field {front back : List Json} {item part : Json}
      (hfront : ∀ other ∈ front, ∃ field, fieldOfJson other = .ok field)
      (hitem : FieldEnters item part) :
      Enters (.obj [(Former.namedTuple.name, .arr (front ++ item :: back))]) part
  | inner (part : Json) : Enters (.obj [(Former.sequence.name, part)]) part

/-- A field fails with what its type fails with. -/
theorem fieldOfJson_eq_error_of_enters {item part : Json} {e : DecodeError}
    (henters : FieldEnters item part) (h : ofJson part = .error e) :
    fieldOfJson item = .error e := by
  cases henters with
  | @members members _ hname hty =>
    obtain ⟨found, hfound⟩ := exists_nameMember_iff.mpr hname
    rw [fieldOfJson, hfound, tyMember_eq_lookup, hty]
    simp only [h]
    rfl
  | items name part rest =>
    rw [fieldOfJson, h]
    rfl

/-- A sequence fails with what its element fails with. -/
theorem ofJson_sequence_eq_error_iff {part : Json} {e : DecodeError} :
    ofJson (.obj [(Former.sequence.name, part)]) = .error e ↔ ofJson part = .error e := by
  rw [ofJson, Former.ofName_name]
  show (ofJson part >>= fun element =>
    (Except.ok (sequence element) : Except DecodeError Ty)) = .error e ↔ _
  rw [bind_eq_error_iff]
  simp only [reduceCtorEq, and_false, exists_false, or_false]

/-- One step outwards: a value fails with what a part fails with that is entered. -/
theorem ofJson_eq_error_of_enters {json part : Json} {e : DecodeError}
    (henters : Enters json part) (h : ofJson part = .error e) : ofJson json = .error e := by
  cases henters with
  | @element front back _ hfront =>
    exact ofJson_tuple_eq_error_iff.mpr ⟨front, part, back, rfl, hfront, h⟩
  | @field front back item _ hfront hitem =>
    have hfails := fieldOfJson_eq_error_of_enters hitem h
    exact ofJson_namedTuple_eq_error_iff.mpr (.item ⟨front, item, back, rfl, hfront, hfails⟩)
  | inner => exact ofJson_sequence_eq_error_iff.mpr h

/-! ## Faults -/

/-- What is wrong with a written field itself: the type in it is read if it stands
before the fault. -/
inductive FieldFault : Json → DecodeError → Prop where
  /-- Neither an object nor an array that begins with a text and one more item. -/
  | shape {item : Json} (hmembers : ∀ members, item ≠ .obj members)
      (hitems : ∀ name part rest, item ≠ .arr (.str name :: part :: rest)) :
      FieldFault item .malformed
  /-- The name is no text. -/
  | name {members : List (String × Json)} {value : Json}
      (hname : members.lookup "name" = some value) (hvalue : ∀ text, value ≠ .str text) :
      FieldFault (.obj members) .malformed
  /-- There is no name, which is noticed after the type. -/
  | missingName {members : List (String × Json)} (hname : members.lookup "name" = none)
      (hty : ∀ part, members.lookup "ty" = some part → ∃ ty, ofJson part = .ok ty) :
      FieldFault (.obj members) (.missingField "name")
  | missingTy {members : List (String × Json)} {name : String}
      (hname : members.lookup "name" = some (.str name)) (hty : members.lookup "ty" = none) :
      FieldFault (.obj members) (.missingField "ty")
  /-- There is an item too many, which is noticed after the type. -/
  | tooLong {name : String} {part extra : Json} {rest : List Json} {ty : Ty}
      (hty : ofJson part = .ok ty) :
      FieldFault (.arr (.str name :: part :: extra :: rest)) .malformed

/-- What is wrong with a written type itself: its components are read if they stand
before the fault. -/
inductive Fault : Json → DecodeError → Prop where
  /-- Neither a text nor an object with one member. -/
  | shape {json : Json} (htext : ∀ text, json ≠ .str text)
      (hmember : ∀ member, json ≠ .obj [member]) : Fault json .malformed
  /-- A text that is the name of no former. -/
  | unknownText {text : String} (h : ∀ former : Former, former.name ≠ text) :
      Fault (.str text) (.unknownVariant text (Former.all.map Former.name))
  /-- A key that is the name of no former, whatever is under it. -/
  | unknownKey {key : String} (value : Json) (h : ∀ former : Former, former.name ≠ key) :
      Fault (.obj [(key, value)]) (.unknownVariant key (Former.all.map Former.name))
  /-- The mere name of a former that makes no type on its own. -/
  | bare {former : Former} (h : former.scalar? = none) : Fault (.str former.name) .malformed
  /-- Something under the name of a former that makes a type on its own. -/
  | notNull {former : Former} {ty : Ty} {value : Json} (h : former.scalar? = some ty)
      (hvalue : value ≠ .null) : Fault (.obj [(former.name, value)]) .malformed
  /-- The refinement of an event is `null` or a text. -/
  | refinement {value : Json} (hnull : value ≠ .null) (htext : ∀ text, value ≠ .str text) :
      Fault (.obj [(Former.event.name, value)]) .malformed
  /-- No array under the name of a former that takes several components. -/
  | items {former : Former} {value : Json} (hformer : former = .tuple ∨ former = .namedTuple)
      (h : ∀ items, value ≠ .arr items) : Fault (.obj [(former.name, value)]) .malformed
  | field {front back : List Json} {item : Json} {e : DecodeError}
      (hfront : ∀ other ∈ front, ∃ field, fieldOfJson other = .ok field)
      (hitem : FieldFault item e) :
      Fault (.obj [(Former.namedTuple.name, .arr (front ++ item :: back))]) e
  /-- All fields are read, and names are repeated. -/
  | repeated {items : List Json} {fields : List Field} {name : String}
      (hread : List.Forall₂ (fun item field => fieldOfJson item = .ok field) items fields)
      (hname : Fields.SmallestRepeat fields name) :
      Fault (.obj [(Former.namedTuple.name, .arr items)]) (.invalid (.duplicateField name))

/-! ## Faults are reported -/

/-- An event fails with its refinement, which is `null` or a text. -/
theorem ofJson_event_eq_error_iff {value : Json} {e : DecodeError} :
    ofJson (.obj [(Former.event.name, value)]) = .error e ↔
      (value ≠ .null ∧ ∀ text, value ≠ .str text) ∧ e = .malformed := by
  rw [ofJson, Former.ofName_name]
  show (refinementOfJson value >>= fun refinement =>
    (Except.ok (event refinement) : Except DecodeError Ty)) = .error e ↔ _
  rw [bind_eq_error_iff]
  cases value <;> simp [refinementOfJson, eq_comm]

/-- The former of an array takes nothing else. -/
theorem ofJson_of_not_arr {former : Former} {value : Json}
    (hformer : former = .tuple ∨ former = .namedTuple) (h : ∀ items, value ≠ .arr items) :
    ofJson (.obj [(former.name, value)]) = .error .malformed := by
  rw [ofJson, Former.ofName_name]
  cases value with
  | arr items => exact absurd rfl (h items)
  | _ => rcases hformer with rfl | rfl <;> rfl

/-- Under the name of a former that makes a type on its own stands `null`. -/
theorem ofJson_keyed_eq_error_iff {former : Former} {ty : Ty} {value : Json} {e : DecodeError}
    (h : former.scalar? = some ty) :
    ofJson (.obj [(former.name, value)]) = .error e ↔ value ≠ .null ∧ e = .malformed := by
  have hkeyed : ofJson (.obj [(former.name, value)]) =
      if value.isNull then former.scalar else .error .malformed := by
    rw [ofJson, Former.ofName_name]
    cases former <;> cases h <;> rfl
  rw [hkeyed, Former.scalar, h]
  cases value <;> simp [Json.isNull, eq_comm]

/-- A field fails with a fault of its own. -/
theorem fieldOfJson_eq_error_of_fault {item : Json} {e : DecodeError} (h : FieldFault item e) :
    fieldOfJson item = .error e := by
  cases h with
  | shape hmembers hitems =>
    unfold fieldOfJson
    split
    · next members => exact absurd rfl (hmembers members)
    · next name part rest => exact absurd rfl (hitems name part rest)
    · rfl
  | @name members value hname hvalue =>
    rw [fieldOfJson]
    apply bind_eq_error_iff.mpr
    exact .inl (nameMember_eq_error_iff.mpr ⟨⟨value, hname, hvalue⟩, rfl⟩)
  | @missingName members hname hty =>
    obtain ⟨ty, hread⟩ := exists_tyMember_iff.mpr hty
    have hfound : nameMember members = .ok none := nameMember_eq_ok_iff.mpr hname
    rw [fieldOfJson, hfound, hread]
    rfl
  | @missingTy members name hname hty =>
    have hfound : nameMember members = .ok (some name) := nameMember_eq_ok_iff.mpr hname
    rw [fieldOfJson, hfound, tyMember_eq_none_iff.mpr hty]
    rfl
  | tooLong hty =>
    rw [fieldOfJson, hty]
    rfl

/-- A field fails for a fault of its own, or with what its type fails with. -/
theorem fieldOfJson_eq_error_iff {item : Json} {e : DecodeError} :
    fieldOfJson item = .error e ↔
      FieldFault item e ∨ ∃ part, FieldEnters item part ∧ ofJson part = .error e := by
  constructor
  · intro h
    unfold fieldOfJson at h
    split at h
    · next members =>
      -- The name is looked at, then the type, and then what is missing.
      rcases bind_eq_error_iff.mp h with hname | ⟨name, hname, h⟩
      · obtain ⟨⟨value, hlookup, hvalue⟩, rfl⟩ := nameMember_eq_error_iff.mp hname
        exact .inl (.name hlookup hvalue)
      · have hlookup := nameMember_eq_ok_iff.mp hname
        rcases bind_eq_error_iff.mp h with hty | ⟨ty, hty, h⟩
        · obtain ⟨part, hpart, hfails⟩ := tyMember_eq_error_iff.mp hty
          exact .inr ⟨part, .members (exists_nameMember_iff.mp ⟨name, hname⟩) hpart, hfails⟩
        · cases name with
          | none =>
            obtain rfl := Except.error.inj h
            exact .inl (.missingName hlookup (exists_tyMember_iff.mp ⟨ty, hty⟩))
          | some name =>
            cases ty with
            | none =>
              obtain rfl := Except.error.inj h
              exact .inl (.missingTy hlookup (tyMember_eq_none_iff.mp hty))
            | some ty => cases h
    · next name part rest =>
      rcases bind_eq_error_iff.mp h with hpart | ⟨ty, hty, h⟩
      · exact .inr ⟨part, .items name part rest, hpart⟩
      · cases rest with
        | nil => cases h
        | cons extra rest =>
          obtain rfl := Except.error.inj h
          exact .inl (.tooLong hty)
    · next hmembers hitems =>
      obtain rfl := Except.error.inj h
      exact .inl (.shape hmembers hitems)
  · rintro (hfault | ⟨part, henters, h⟩)
    · exact fieldOfJson_eq_error_of_fault hfault
    · exact fieldOfJson_eq_error_of_enters henters h

/-- A value fails with a fault of its own. -/
theorem ofJson_eq_error_of_fault {json : Json} {e : DecodeError} (h : Fault json e) :
    ofJson json = .error e := by
  cases h with
  | shape htext hmember =>
    unfold ofJson
    split
    · next text => exact absurd rfl (htext text)
    · next key value => exact absurd rfl (hmember (key, value))
    · rfl
  | unknownText h =>
    rw [ofJson]
    exact bind_eq_error_iff.mpr (.inl (Former.ofName_eq_error_iff.mpr ⟨h, rfl⟩))
  | unknownKey value h =>
    rw [ofJson]
    exact bind_eq_error_iff.mpr (.inl (Former.ofName_eq_error_iff.mpr ⟨h, rfl⟩))
  | bare h =>
    rw [ofJson, Former.ofName_name]
    exact Former.scalar_eq_error_iff.mpr ⟨h, rfl⟩
  | notNull h hvalue =>
    exact (ofJson_keyed_eq_error_iff h).mpr ⟨hvalue, rfl⟩
  | refinement hnull htext => exact ofJson_event_eq_error_iff.mpr ⟨⟨hnull, htext⟩, rfl⟩
  | items hformer hvalue => exact ofJson_of_not_arr hformer hvalue
  | @field front back item _ hfront hitem =>
    have hfails := fieldOfJson_eq_error_of_fault hitem
    exact ofJson_namedTuple_eq_error_iff.mpr (.item ⟨front, item, back, rfl, hfront, hfails⟩)
  | repeated hread hname => exact ofJson_namedTuple_eq_error_iff.mpr (.repeated hread hname)

/-! ## One step of the reader -/

/-- The first failure of a field is a fault of the field or comes from its type. -/
theorem fault_or_enters_of_firstFailure {items : List Json} {e : DecodeError}
    (h : FirstFailure fieldOfJson items e) :
    Fault (.obj [(Former.namedTuple.name, .arr items)]) e ∨
      ∃ part, Enters (.obj [(Former.namedTuple.name, .arr items)]) part ∧
        ofJson part = .error e := by
  obtain ⟨front, item, back, rfl, hfront, hitem⟩ := h
  rcases fieldOfJson_eq_error_iff.mp hitem with hfault | ⟨part, henters, hpart⟩
  · exact .inl (.field hfront hfault)
  · exact .inr ⟨part, .field hfront henters, hpart⟩

theorem fault_of_not_arr {former : Former} {value : Json} {e : DecodeError}
    (hformer : former = .tuple ∨ former = .namedTuple) (hvalue : ∀ items, value ≠ .arr items)
    (h : ofJson (.obj [(former.name, value)]) = .error e) :
    Fault (.obj [(former.name, value)]) e := by
  rw [ofJson_of_not_arr hformer hvalue] at h
  obtain rfl := Except.error.inj h
  exact .items hformer hvalue

/-- A value under the name of a former fails for a fault there, or a part of it fails. -/
theorem fault_or_enters_of_former {former : Former} {value : Json} {e : DecodeError}
    (h : ofJson (.obj [(former.name, value)]) = .error e) :
    Fault (.obj [(former.name, value)]) e ∨
      ∃ part, Enters (.obj [(former.name, value)]) part ∧ ofJson part = .error e := by
  cases hscalar : former.scalar? with
  | some ty =>
    obtain ⟨hvalue, rfl⟩ := (ofJson_keyed_eq_error_iff hscalar).mp h
    exact .inl (.notNull hscalar hvalue)
  | none =>
    cases former with
    | event =>
      obtain ⟨⟨hnull, htext⟩, rfl⟩ := ofJson_event_eq_error_iff.mp h
      exact .inl (.refinement hnull htext)
    | tuple =>
      by_cases hvalue : ∃ items, value = .arr items
      · obtain ⟨items, rfl⟩ := hvalue
        obtain ⟨front, part, back, rfl, hfront, hpart⟩ := ofJson_tuple_eq_error_iff.mp h
        exact .inr ⟨part, .element hfront, hpart⟩
      · exact .inl (fault_of_not_arr (.inl rfl) (not_exists.mp hvalue) h)
    | namedTuple =>
      by_cases hvalue : ∃ items, value = .arr items
      · obtain ⟨items, rfl⟩ := hvalue
        cases ofJson_namedTuple_eq_error_iff.mp h with
        | item hfirst => exact fault_or_enters_of_firstFailure hfirst
        | repeated hread hname => exact .inl (.repeated hread hname)
      · exact .inl (fault_of_not_arr (.inr rfl) (not_exists.mp hvalue) h)
    | sequence => exact .inr ⟨value, .inner value, ofJson_sequence_eq_error_iff.mp h⟩
    | _ => cases hscalar

/-- One step inwards: a value fails for a fault of its own, or a part of it fails. -/
theorem ofJson_eq_error_iff_step {json : Json} {e : DecodeError} :
    ofJson json = .error e ↔
      Fault json e ∨ ∃ part, Enters json part ∧ ofJson part = .error e := by
  constructor
  · intro h
    have hwhole := h
    unfold ofJson at h
    split at h
    · next text =>
      rcases bind_eq_error_iff.mp h with hname | ⟨former, hname, hscalar⟩
      · obtain ⟨hunknown, rfl⟩ := Former.ofName_eq_error_iff.mp hname
        exact .inl (.unknownText hunknown)
      · obtain rfl := Former.ofName_eq_ok_iff.mp hname
        obtain ⟨hbare, rfl⟩ := Former.scalar_eq_error_iff.mp hscalar
        exact .inl (.bare hbare)
    · next key value =>
      rcases bind_eq_error_iff.mp h with hname | ⟨former, hname, -⟩
      · obtain ⟨hunknown, rfl⟩ := Former.ofName_eq_error_iff.mp hname
        exact .inl (.unknownKey value hunknown)
      · obtain rfl := Former.ofName_eq_ok_iff.mp hname
        exact fault_or_enters_of_former hwhole
    · next htext hmember =>
      obtain rfl := Except.error.inj h
      exact .inl (.shape htext fun member => hmember member.1 member.2)
  · rintro (hfault | ⟨part, henters, h⟩)
    · exact ofJson_eq_error_of_fault hfault
    · exact ofJson_eq_error_of_enters henters h

end Ty

end MachineTypes
