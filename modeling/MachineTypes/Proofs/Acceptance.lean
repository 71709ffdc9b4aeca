import MachineTypes.Proofs.Reading
import Mathlib.Data.List.Perm.Basic

/-!
# The grammar is what is read

`MachineTypes.Proofs.Reading` shows that the reader keeps to the grammar. Here it is
shown to read all of it: where a JSON value writes a type, no step of the reader fails,
and it ends at that type.

The items of a list are read one by one, so a list is read to `ys` when its items are
read to the members of `ys` (`mapM_eq_ok_iff`). Fields in another order are then read
to the same fields in another order, and these make the same named tuple, as an
ascending list is determined by its members (`Fields.ofList_eq_ok_iff`). The array of
the fields may stand anywhere in a value. What is around it sees the value only through
what the reader makes of it, which `ReadsAs` puts together: it is kept by every place
of an array and by every member of an object.

## Main results

* `Ty.ofJson_of_spells` — the reader is complete for the grammar.
* `Ty.readsAs_of_reordered` — whatever is read of a value is read of it with fields
  reordered.
* `Ty.ofJson_iff_spells` — a type is read when it is written, for any order of fields.
-/

namespace MachineTypes

/-! ## Lists -/

/-- Items in another order are read to the same in another order. -/
theorem exists_mapM_of_perm {ε α β : Type} {f : α → Except ε β} {xs xs' : List α} {ys : List β}
    (hperm : xs.Perm xs') (h : xs.mapM f = .ok ys) :
    ∃ ys', xs'.mapM f = .ok ys' ∧ ys'.Perm ys := by
  obtain ⟨ys', hread, hys⟩ := List.perm_comp_forall₂ hperm.symm (mapM_eq_ok_iff.mp h)
  exact ⟨ys', mapM_eq_ok_iff.mpr hread, hys⟩

/-- An item may stand for another that is read to the same. -/
theorem mapM_replace {ε α β : Type} {f : α → Except ε β} {front back : List α} {x x' : α}
    {ys : List β} (hx : ∀ y, f x = .ok y → f x' = .ok y)
    (h : (front ++ x :: back).mapM f = .ok ys) : (front ++ x' :: back).mapM f = .ok ys := by
  rw [mapM_eq_ok_iff] at h ⊢
  induction front generalizing ys with
  | nil =>
    cases h with
    | cons hy hrest => exact .cons (hx _ hy) hrest
  | cons first rest ih =>
    cases h with
    | cons hy hrest => exact .cons hy (ih hrest)

/-- A value may stand for another: what is looked up is that value, or what it was. -/
theorem lookup_replace {α β : Type} [BEq α] [LawfulBEq α] {front back : List (α × β)}
    {key other : α} {b found : β} (b' : β)
    (h : (front ++ (key, b) :: back).lookup other = some found) :
    (other = key ∧ found = b ∧ (front ++ (key, b') :: back).lookup other = some b') ∨
      (front ++ (key, b') :: back).lookup other = some found := by
  rw [List.lookup_append, List.lookup_cons] at h
  rw [List.lookup_append, List.lookup_cons]
  cases hfront : front.lookup other with
  | some value => exact .inr (by simpa [hfront] using h)
  | none =>
    by_cases hkey : other = key
    · subst hkey
      exact .inl ⟨rfl, by simpa [hfront, eq_comm] using h, by simp⟩
    · refine .inr ?_
      simpa [hfront, beq_eq_false_iff_ne.mpr hkey] using h

private theorem forall₂_of_getElem? {α β : Type} {R : α → β → Prop} {as : List α} {bs : List β}
    (hlength : as.length = bs.length)
    (h : ∀ (i : Nat) (a : α) (b : β), as[i]? = some a → bs[i]? = some b → R a b) :
    List.Forall₂ R as bs :=
  List.forall₂_iff_get.mpr ⟨hlength, fun i ha hb =>
    h i _ _ (List.getElem?_eq_getElem ha) (List.getElem?_eq_getElem hb)⟩

namespace Fields

/-- What is built is the ascending list of the given fields. -/
theorem ofList_eq_ok_iff {fields built : List Field} :
    ofList fields = .ok built ↔ built.Perm fields ∧ Ascending built := by
  constructor
  · intro h
    obtain ⟨rfl, hascending⟩ := ofList_eq_ok h
    exact ⟨sort_perm fields, hascending⟩
  · rintro ⟨hperm, hascending⟩
    have hsorted : (sort fields).Perm built := (sort_perm fields).trans hperm.symm
    -- As the names are distinct, there is one way to put the fields in order.
    have hnames : (names (sort fields)).Nodup :=
      (hsorted.map Prod.fst).nodup_iff.mpr hascending.nodup
    have hlt : Ascending (sort fields) :=
      (names_sort_pairwise fields).imp₂ (fun a b hle hne => Decidable.byContradiction fun hn =>
        hne (String.le_antisymm hle (String.not_lt.mp hn))) hnames
    have hsort : sort fields = built :=
      hsorted.eq_of_pairwise
        (fun a b _ _ hab hba => absurd (String.lt_trans hab hba) (String.lt_irrefl a.1))
        (List.pairwise_map.mp hlt) (List.pairwise_map.mp hascending)
    have hbuilt := ofList_of_ascending hascending
    rw [ofList, ← (ofList_eq_ok hbuilt).1] at hbuilt
    rw [ofList, hsort]
    exact hbuilt

end Fields

namespace Ty

/-! ## What is written is read -/

theorem ofFields_eq_ok_iff {fields : List Field} {ty : Ty} :
    ofFields fields = .ok ty ↔
      ∃ built, built.Perm fields ∧ Fields.Ascending built ∧ namedTuple built = ty := by
  simp only [ofFields, map_eq_ok_iff, Fields.ofList_eq_ok_iff, and_assoc]

/-- A named tuple is read when its fields are and can be put in ascending order. -/
theorem ofJson_fields_eq_ok_iff {items : List Json} {ty : Ty} :
    ofJson (.obj [(Former.namedTuple.name, .arr items)]) = .ok ty ↔
      ∃ fields, items.mapM fieldOfJson = .ok fields ∧
        ∃ built, built.Perm fields ∧ Fields.Ascending built ∧ namedTuple built = ty := by
  rw [ofJson, Former.ofName_name]
  show (fieldsOfJson (.arr items) >>= fun fields => (ofFields fields).mapError .invalid) = _ ↔ _
  simp only [bind_eq_ok_iff, mapError_eq_ok_iff, ofFields_eq_ok_iff, fieldsOfJson,
    ofJsonFields_eq_mapM]

/-- A field is read from a value that has its form when its type is. -/
theorem fieldOfJson_of_form {item written : Json} {name : String} {ty : Ty}
    (hform : FieldForm item name written) (h : ofJson written = .ok ty) :
    fieldOfJson item = .ok (name, ty) := by
  cases hform with
  | members hname hwritten =>
    rw [fieldOfJson, nameMember, hname, tyMember_eq_lookup, hwritten]
    simp only [h]
    rfl
  | pair name written =>
    rw [fieldOfJson, h]
    rfl

/-- The type that a JSON value writes is read from it. -/
theorem ofJson_of_spells {json : Json} {ty : Ty} (h : Spells json ty) : ofJson json = .ok ty := by
  induction h with
  | scalar h =>
    rw [ofJson, Former.ofName_name]
    exact scalar_eq_ok_iff.mpr h
  | @keyed former ty h =>
    rw [ofJson, Former.ofName_name]
    cases former <;> cases h <;> rfl
  | event => rfl
  | refinedEvent refinement => rfl
  | @tuple items elements hlength _ ih =>
    have helements : elementsOfJson (.arr items) = .ok elements := by
      rw [elementsOfJson, ofJsonEach_eq_mapM]
      exact mapM_eq_ok_iff.mpr (forall₂_of_getElem? hlength ih)
    rw [ofJson]
    exact bind_eq_ok_iff.mpr
      ⟨.tuple, Former.ofName_name _, bind_eq_ok_iff.mpr ⟨elements, helements, rfl⟩⟩
  | @namedTuple items parts fields sorted hlength hform hnames _ hperm hascending ih =>
    have hparts : fields.length = parts.length := by simpa using congrArg List.length hnames
    refine ofJson_fields_eq_ok_iff.mpr ⟨fields, ?_, sorted, hperm, hascending, rfl⟩
    refine mapM_eq_ok_iff.mpr
      (forall₂_of_getElem? (hlength.trans hparts.symm) fun i item field hitem hfield => ?_)
    obtain ⟨part, hpart⟩ := exists_getElem?_of_length_eq hparts hfield
    have hname : field.1 = part.1 := by
      have h := congrArg (·[i]?) hnames
      simpa [Fields.names, hfield, hpart] using h
    have hform := hform i item part hitem hpart
    rw [← hname] at hform
    exact fieldOfJson_of_form hform (ih i part field hpart hfield)
  | @sequence written element _ ih =>
    rw [ofJson]
    exact bind_eq_ok_iff.mpr
      ⟨.sequence, Former.ofName_name _, bind_eq_ok_iff.mpr ⟨element, ih, rfl⟩⟩

/-- A field is read from a value that has its form, and whose part is read. -/
theorem fieldOfJson_eq_ok_iff {item : Json} {field : Field} :
    fieldOfJson item = .ok field ↔
      ∃ written, FieldForm item field.1 written ∧ ofJson written = .ok field.2 := by
  constructor
  · intro h
    obtain ⟨written, hform, hspells⟩ := spells_of_fieldOfJson item h
    exact ⟨written, hform, ofJson_of_spells hspells⟩
  · rintro ⟨written, hform, h⟩
    exact fieldOfJson_of_form hform h

/-- A type is read only from an object that has one member. -/
theorem exists_member_of_ofJson {members : List (String × Json)} {ty : Ty}
    (h : ofJson (.obj members) = .ok ty) : ∃ member, members = [member] := by
  cases members with
  | nil => simp [ofJson] at h
  | cons member rest =>
    cases rest with
    | nil => exact ⟨member, rfl⟩
    | cons => simp [ofJson] at h

/-! ## Fields in another order -/

/-- The two JSON values are the same but for the order in which fields of named tuples
stand in their arrays, at any depth. -/
inductive Reordered : Json → Json → Prop where
  | refl (json : Json) : Reordered json json
  | trans {first second third : Json} (h : Reordered first second)
      (h' : Reordered second third) : Reordered first third
  /-- The items of an array that is the member for the fields of a named tuple. -/
  | fields {front back : List (String × Json)} {items items' : List Json}
      (h : items.Perm items') :
      Reordered (.obj (front ++ (Former.namedTuple.name, .arr items) :: back))
        (.obj (front ++ (Former.namedTuple.name, .arr items') :: back))
  /-- Within an item of an array. -/
  | item {front back : List Json} {json json' : Json} (h : Reordered json json') :
      Reordered (.arr (front ++ json :: back)) (.arr (front ++ json' :: back))
  /-- Within a member of an object. -/
  | member {front back : List (String × Json)} {key : String} {json json' : Json}
      (h : Reordered json json') :
      Reordered (.obj (front ++ (key, json) :: back)) (.obj (front ++ (key, json') :: back))

theorem Reordered.symm {json json' : Json} (h : Reordered json json') :
    Reordered json' json := by
  induction h with
  | refl json => exact .refl json
  | trans _ _ ih ih' => exact ih'.trans ih
  | fields h => exact .fields h.symm
  | item _ ih => exact ih.item
  | member _ ih => exact ih.member

/-- Whatever is read of the one JSON value is read of the other as well. -/
structure ReadsAs (json json' : Json) : Prop where
  ty : ∀ {ty : Ty}, ofJson json = .ok ty → ofJson json' = .ok ty
  elements : ∀ {tys : List Ty}, elementsOfJson json = .ok tys → elementsOfJson json' = .ok tys
  field : ∀ {field : Field}, fieldOfJson json = .ok field → fieldOfJson json' = .ok field
  fields : ∀ {fields : List Field}, fieldsOfJson json = .ok fields →
    fieldsOfJson json' = .ok fields
  null : json = .null → json' = .null
  str : ∀ {text : String}, json = .str text → json' = .str text

namespace ReadsAs

variable {json json' json'' : Json}

theorem refl (json : Json) : ReadsAs json json where
  ty h := h
  elements h := h
  field h := h
  fields h := h
  null h := h
  str h := h

theorem trans (h : ReadsAs json json') (h' : ReadsAs json' json'') : ReadsAs json json'' where
  ty hread := h'.ty (h.ty hread)
  elements hread := h'.elements (h.elements hread)
  field hread := h'.field (h.field hread)
  fields hread := h'.fields (h.fields hread)
  null heq := h'.null (h.null heq)
  str heq := h'.str (h.str heq)

theorem refinement (h : ReadsAs json json') {refinement : Option String}
    (hread : refinementOfJson json = .ok refinement) :
    refinementOfJson json' = .ok refinement := by
  cases json with
  | null => rw [h.null rfl, hread]
  | str name => rw [h.str rfl, hread]
  | _ => cases hread

theorem scalar (h : ReadsAs json json') {former : Former} {ty : Ty}
    (hread : (if json.isNull then former.scalar else .error .malformed) = .ok ty) :
    (if json'.isNull then former.scalar else .error .malformed) = .ok ty := by
  cases json with
  | null => rw [h.null rfl, hread]
  | _ => cases hread

/-- An object with one member is read by what is read of the member. -/
theorem ofJson_obj (h : ReadsAs json json') {key : String} {ty : Ty}
    (hread : ofJson (.obj [(key, json)]) = .ok ty) : ofJson (.obj [(key, json')]) = .ok ty := by
  rw [ofJson] at hread ⊢
  obtain ⟨former, hname, hread⟩ := bind_eq_ok_iff.mp hread
  refine bind_eq_ok_iff.mpr ⟨former, hname, ?_⟩
  cases former with
  | event =>
    obtain ⟨refinement, hrefinement, hevent⟩ := bind_eq_ok_iff.mp hread
    exact bind_eq_ok_iff.mpr ⟨refinement, h.refinement hrefinement, hevent⟩
  | tuple =>
    obtain ⟨elements, helements, htuple⟩ := bind_eq_ok_iff.mp hread
    exact bind_eq_ok_iff.mpr ⟨elements, h.elements helements, htuple⟩
  | namedTuple =>
    obtain ⟨fields, hfields, hbuilt⟩ := bind_eq_ok_iff.mp hread
    exact bind_eq_ok_iff.mpr ⟨fields, h.fields hfields, hbuilt⟩
  | sequence =>
    obtain ⟨element, helement, hsequence⟩ := bind_eq_ok_iff.mp hread
    exact bind_eq_ok_iff.mpr ⟨element, h.ty helement, hsequence⟩
  | _ => exact h.scalar hread

/-- What is read of an object is read of it with one member changed, when neither the
type that it may write nor the field that it may be depend on the change. -/
theorem of_member {front back : List (String × Json)} {key : String}
    (hobj : ∀ {ty : Ty}, ofJson (.obj [(key, json)]) = .ok ty →
      ofJson (.obj [(key, json')]) = .ok ty)
    (hname : key = "name" → ∀ {text : String}, json = .str text → json' = .str text)
    (hty : key = "ty" → ∀ {ty : Ty}, ofJson json = .ok ty → ofJson json' = .ok ty) :
    ReadsAs (.obj (front ++ (key, json) :: back)) (.obj (front ++ (key, json') :: back)) where
  ty := by
    intro ty h
    obtain ⟨member, hmember⟩ := exists_member_of_ofJson h
    obtain ⟨rfl, hback⟩ | ⟨-, hback⟩ := List.append_eq_singleton_iff.mp hmember
    · obtain ⟨-, rfl⟩ := List.cons.inj hback
      exact hobj h
    · cases hback
  elements h := by simp [elementsOfJson] at h
  field := by
    intro field h
    obtain ⟨written, hform, hread⟩ := fieldOfJson_eq_ok_iff.mp h
    cases hform with
    | members hnameMember htyMember =>
      have hname' : (front ++ (key, json') :: back).lookup "name" = some (.str field.1) := by
        obtain ⟨hkey, hfound, hlookup⟩ | hlookup := lookup_replace json' hnameMember
        · rw [hlookup, hname hkey.symm hfound.symm]
        · exact hlookup
      obtain ⟨hkey, rfl, hlookup⟩ | hlookup := lookup_replace json' htyMember
      · exact fieldOfJson_eq_ok_iff.mpr
          ⟨json', .members hname' hlookup, hty hkey.symm hread⟩
      · exact fieldOfJson_eq_ok_iff.mpr ⟨written, .members hname' hlookup, hread⟩
  fields h := by simp [fieldsOfJson] at h
  null := nofun
  str := nofun

/-- What is read of an array is read of it with one item changed. -/
theorem of_item {front back : List Json} (h : ReadsAs json json') :
    ReadsAs (.arr (front ++ json :: back)) (.arr (front ++ json' :: back)) where
  ty h := by simp [ofJson] at h
  elements := by
    intro tys hread
    rw [elementsOfJson, ofJsonEach_eq_mapM] at hread ⊢
    exact mapM_replace (fun _ => h.ty) hread
  field := by
    rintro ⟨name, ty⟩ hread
    obtain ⟨written, hform, hty⟩ := fieldOfJson_eq_ok_iff.mp hread
    generalize hitems : front ++ json :: back = items at hform
    cases hform with
    | pair =>
      -- The item that was changed is the name, which is then the same, or the type.
      obtain ⟨rfl, hback⟩ | ⟨rest, rfl, hrest⟩ := List.append_eq_cons_iff.mp hitems
      · obtain ⟨hname, rfl⟩ := List.cons.inj hback
        rw [h.str hname]
        exact fieldOfJson_of_form (.pair name written) hty
      · obtain ⟨rfl, hback⟩ | ⟨-, hback⟩ := List.append_eq_singleton_iff.mp hrest.symm
        · obtain ⟨rfl, rfl⟩ := List.cons.inj hback
          exact fieldOfJson_of_form (.pair name json') (h.ty hty)
        · cases hback
  fields := by
    intro fields hread
    rw [fieldsOfJson, ofJsonFields_eq_mapM] at hread ⊢
    exact mapM_replace (fun _ => h.field) hread
  null := nofun
  str := nofun

end ReadsAs

/-- The fields of a named tuple may be written in another order. -/
theorem ofJson_of_perm {items items' : List Json} (hperm : items.Perm items') {ty : Ty}
    (h : ofJson (.obj [(Former.namedTuple.name, .arr items)]) = .ok ty) :
    ofJson (.obj [(Former.namedTuple.name, .arr items')]) = .ok ty := by
  obtain ⟨fields, hfields, built, hbuilt, hascending, rfl⟩ := ofJson_fields_eq_ok_iff.mp h
  obtain ⟨fields', hfields', hsame⟩ := exists_mapM_of_perm hperm hfields
  exact ofJson_fields_eq_ok_iff.mpr
    ⟨fields', hfields', built, hbuilt.trans hsame.symm, hascending, rfl⟩

/-- Whatever is read of a JSON value is read of it with fields in another order. -/
theorem readsAs_of_reordered {json json' : Json} (h : Reordered json json') :
    ReadsAs json json' := by
  induction h with
  | refl json => exact .refl json
  | trans _ _ ih ih' => exact ih.trans ih'
  | fields h => exact .of_member (ofJson_of_perm h) nofun nofun
  | item _ ih => exact ih.of_item
  | member _ ih => exact .of_member ih.ofJson_obj (fun _ => ih.str) (fun _ => ih.ty)

/-! ## What is read -/

/-- **Types are read from what writes them and from nothing else.** What is read of a
JSON value is what it writes by the rules of the grammar, and it is canonical; and a
value with its fields in another order, at any depth, is read to the same type or not
at all. -/
theorem ofJson_iff_spells :
    (∀ (json : Json) (ty : Ty), ofJson json = .ok ty ↔ Spells json ty) ∧
    (∀ (json : Json) (ty : Ty), ofJson json = .ok ty → ty.Canonical) ∧
    ∀ json json' : Json, Reordered json json' →
      ∀ ty : Ty, ofJson json = .ok ty ↔ ofJson json' = .ok ty :=
  ⟨fun json _ => ⟨spells_of_ofJson json, ofJson_of_spells⟩, fun _ _ => canonical_of_ofJson,
    fun _ _ h _ => ⟨(readsAs_of_reordered h).ty, (readsAs_of_reordered h.symm).ty⟩⟩

/-- Two fields out of order, one of them an object with another member and one an array,
in a sequence. -/
theorem ofJson_iff_spells_fields :
    Spells (.obj [("sequence", .obj [("named_tuple", .arr
        [.obj [("name", .str "y"), ("note", .null), ("ty", .obj [("event", .null)])],
          .arr [.str "x", .str "int"]])])])
      (sequence (namedTuple [("x", int), ("y", event none)])) ∧
    (sequence (namedTuple [("x", int), ("y", event none)])).Canonical ∧
    ofJson (.obj [("sequence", .obj [("named_tuple", .arr
        [.arr [.str "x", .str "int"],
          .obj [("name", .str "y"), ("note", .null), ("ty", .obj [("event", .null)])]])])]) =
      .ok (sequence (namedTuple [("x", int), ("y", event none)])) := by
  obtain ⟨hspells, hcanonical, hreordered⟩ := ofJson_iff_spells
  have hfields : ofJson (.obj [("named_tuple", .arr
        [.obj [("name", .str "y"), ("note", .null), ("ty", .obj [("event", .null)])],
          .arr [.str "x", .str "int"]])]) =
      .ok (namedTuple [("x", int), ("y", event none)]) :=
    ofJson_fields_eq_ok_iff.mpr ⟨[("y", event none), ("x", int)], rfl,
      [("x", int), ("y", event none)], .swap _ _ _, by decide, rfl⟩
  have hread {part : Json} {element : Ty} (h : ofJson part = .ok element) :
      ofJson (.obj [("sequence", part)]) = .ok (sequence element) := by
    rw [ofJson]
    exact bind_eq_ok_iff.mpr ⟨.sequence, rfl, bind_eq_ok_iff.mpr ⟨element, h, rfl⟩⟩
  have hwritten := hread hfields
  refine ⟨(hspells _ _).mp hwritten, hcanonical _ _ hwritten, (hreordered _ _ ?_ _).mp hwritten⟩
  exact @Reordered.member [] [] _ _ _ (@Reordered.fields [] [] _ _ (.swap _ _ _))

end Ty

end MachineTypes
