import MachineTypes.Fields.Lookup
import MachineTypes.Proofs.Faults
import Mathlib.Logic.Relation

/-!
# The first failure is the one that is reported

A written type can be wrong in several places at once, and in ways that compete: a part
has the wrong shape, a name is unknown, a member is missing, a field name stands twice,
at the level of one array or of an array inside it. The reader stops at the first thing
that it cannot read, so which error is reported is a matter of what it comes to first.
Repeated names are looked for when all fields of an array have been read, and so they
are always come to last.

For one array this is said by `FirstFailure`: an item fails, and all items before it
are read. For a value as a whole it is said by the parts that are entered, in any number
of steps. What such a part fails with, everything around it fails with
(`ofJson_eq_error_of_entered`, by induction on the steps). In the other direction a
failure can be followed inwards, to parts that are ever smaller, until it is the fault of
the part that has been reached (`ofJson_eq_error_iff`).

## Main results

* `ofJson_eq_error_of_entered` — failures are passed outwards.
* `ofJson_eq_error_iff` — where failures come from.
* `ofJson_reports_first_failure` — all of it together.
-/

namespace MachineTypes.Ty

/-- Fields that are read make a named tuple when their names are distinct. -/
theorem exists_ofJson_fields_iff {items : List Json} {fields : List Field}
    (h : List.Forall₂ (fun item field => fieldOfJson item = .ok field) items fields) :
    (∃ ty, ofJson (.obj [(Former.namedTuple.name, .arr items)]) = .ok ty) ↔
      (Fields.names fields).Nodup := by
  rw [(ofJson_of_items (mapM_eq_ok_iff.mpr h)).2, ← Fields.exists_ofList_iff]
  simp only [mapError_eq_ok_iff, ofFields, map_eq_ok_iff]
  constructor
  · rintro ⟨ty, built, hbuilt, -⟩
    exact ⟨built, hbuilt⟩
  · rintro ⟨built, hbuilt⟩
    exact ⟨namedTuple built, built, hbuilt, rfl⟩

/-! ## Outwards and inwards -/

/-- All steps outwards: the failure of a part is passed through everything around it. -/
theorem ofJson_eq_error_of_entered {json part : Json} {e : DecodeError}
    (hentered : Relation.ReflTransGen Enters json part) (h : ofJson part = .error e) :
    ofJson json = .error e := by
  induction hentered with
  | refl => exact h
  | tail _ henters ih =>
    apply ih
    exact ofJson_eq_error_of_enters henters h

theorem sizeOf_lt_of_fieldEnters {item part : Json} (h : FieldEnters item part) :
    sizeOf part < sizeOf item := by
  cases h with
  | @members members _ _ hty =>
    have hmem : sizeOf ("ty", part) < sizeOf members :=
      List.sizeOf_lt_of_mem (Fields.mem_of_lookup hty)
    simp only [Prod.mk.sizeOf_spec] at hmem
    simp only [Json.obj.sizeOf_spec]
    omega
  | items name part rest =>
    simp only [Json.arr.sizeOf_spec, List.cons.sizeOf_spec]
    omega

theorem sizeOf_lt_of_enters {json part : Json} (h : Enters json part) :
    sizeOf part < sizeOf json := by
  cases h with
  | @element front back _ _ =>
    have hmem : sizeOf part < sizeOf (front ++ part :: back) := List.sizeOf_lt_of_mem (by simp)
    simp only [Json.obj.sizeOf_spec, Json.arr.sizeOf_spec, List.cons.sizeOf_spec,
      Prod.mk.sizeOf_spec]
    omega
  | @field front back item _ _ hitem =>
    have hpart := sizeOf_lt_of_fieldEnters hitem
    have hmem : sizeOf item < sizeOf (front ++ item :: back) := List.sizeOf_lt_of_mem (by simp)
    simp only [Json.obj.sizeOf_spec, Json.arr.sizeOf_spec, List.cons.sizeOf_spec,
      Prod.mk.sizeOf_spec]
    omega
  | inner =>
    simp only [Json.obj.sizeOf_spec, List.cons.sizeOf_spec, Prod.mk.sizeOf_spec]
    omega

/-- A value fails with the faults of the parts that are entered. -/
theorem ofJson_eq_error_iff (json : Json) (e : DecodeError) :
    ofJson json = .error e ↔
      ∃ part, Relation.ReflTransGen Enters json part ∧ Fault part e := by
  constructor
  · intro h
    rcases ofJson_eq_error_iff_step.mp h with hfault | ⟨part, henters, hpart⟩
    · exact ⟨json, .refl, hfault⟩
    · have : sizeOf part < sizeOf json := sizeOf_lt_of_enters henters
      obtain ⟨inner, hentered, hfault⟩ := (ofJson_eq_error_iff part e).mp hpart
      exact ⟨inner, .head henters hentered, hfault⟩
  · rintro ⟨part, hentered, hfault⟩
    exact ofJson_eq_error_of_entered hentered (ofJson_eq_error_of_fault hfault)
termination_by sizeOf json

/-! ## What is reported -/

/-- **The first failure is reported, and repeated names are found last.** An array of
elements fails with its first failure, whatever follows. So does an array of fields; it
fails for a repeated name only when all of its fields are read, and then for the smallest
such name, and fields that are read are refused exactly when names are repeated. What
fails inside a value, where all before it is read, is the failure of the value too,
through any number of tuples, fields and sequences; and every failure is a fault of a
part that is come to in this way. -/
theorem ofJson_reports_first_failure :
    (∀ (items : List Json) (e : DecodeError),
      (ofJson (.obj [(Former.tuple.name, .arr items)]) = .error e ↔
        FirstFailure ofJson items e) ∧
      (ofJson (.obj [(Former.namedTuple.name, .arr items)]) = .error e ↔
        FieldsFail items e) ∧
      (Fields.ofJson (.arr items) = .error e ↔ FieldsFail items e)) ∧
    (∀ (items : List Json) (fields : List Field),
      List.Forall₂ (fun item field => fieldOfJson item = .ok field) items fields →
        ((∃ ty, ofJson (.obj [(Former.namedTuple.name, .arr items)]) = .ok ty) ↔
          (Fields.names fields).Nodup)) ∧
    (∀ (json part : Json) (e : DecodeError), Relation.ReflTransGen Enters json part →
      ofJson part = .error e → ofJson json = .error e) ∧
    ∀ (json : Json) (e : DecodeError), ofJson json = .error e ↔
      ∃ part, Relation.ReflTransGen Enters json part ∧ Fault part e :=
  ⟨fun _ _ => ⟨ofJson_tuple_eq_error_iff, ofJson_namedTuple_eq_error_iff,
      ofJson_fields_eq_error_iff⟩,
    fun _ _ => exists_ofJson_fields_iff, fun _ _ _ => ofJson_eq_error_of_entered,
    ofJson_eq_error_iff⟩

/-- A sequence of named tuples with a repeated name, an unknown name deeper in a later
field, and misshapen items after both: the unknown name is reported. And fields that are
all read, with two repeated names: the smaller one is. -/
theorem ofJson_reports_first_failure_nested :
    ofJson (.str "float") = .error (.unknownVariant "float" (Former.all.map Former.name)) ∧
    ofJson (.obj [("sequence", .obj [("named_tuple", .arr
        [.arr [.str "b", .str "int"], .obj [("name", .str "b"), ("ty", .str "bool")],
          .obj [("ty", .obj [("tuple", .arr [.str "nil", .str "float", .str "event"])])],
          .null])])]) =
      .error (.unknownVariant "float" (Former.all.map Former.name)) ∧
    Fields.ofJson (.arr [.arr [.str "b", .str "int"], .arr [.str "a", .str "nil"],
        .arr [.str "b", .str "bool"], .arr [.str "a", .str "any"]]) =
      .error (.invalid (.duplicateField "a")) ∧
    ¬ (∃ ty, ofJson (.obj [("named_tuple", .arr [.arr [.str "b", .str "int"],
        .arr [.str "a", .str "nil"], .arr [.str "b", .str "bool"],
        .arr [.str "a", .str "any"]])]) = .ok ty) ∧
    ofJson (.obj [("sequence", .obj [("named_tuple", .arr [.arr [.str "b", .str "int"],
        .arr [.str "a", .str "nil"], .arr [.str "b", .str "bool"],
        .arr [.str "a", .str "any"]])])]) = .error (.invalid (.duplicateField "a")) := by
  obtain ⟨harrays, hdistinct, houtwards, hfaults⟩ := ofJson_reports_first_failure
  have hread : List.Forall₂ (fun item field => fieldOfJson item = .ok field)
      [.arr [.str "b", .str "int"], .arr [.str "a", .str "nil"],
        .arr [.str "b", .str "bool"], .arr [.str "a", .str "any"]]
      [("b", int), ("a", nil), ("b", bool), ("a", any)] :=
    .cons rfl (.cons rfl (.cons rfl (.cons rfl .nil)))
  have hname : Fields.SmallestRepeat [("b", int), ("a", nil), ("b", bool), ("a", any)] "a" := by
    refine ⟨by decide, fun other hother => ?_⟩
    have hmem : other ∈ ["b", "a", "b", "a"] :=
      List.count_pos_iff.mp (Nat.lt_of_lt_of_le Nat.zero_lt_two hother)
    simp only [List.mem_cons, List.not_mem_nil, or_false] at hmem
    rcases hmem with rfl | rfl | rfl | rfl <;> decide
  have hfloat : ofJson (.str "float") =
      .error (.unknownVariant "float" (Former.all.map Former.name)) := by
    refine (hfaults _ _).mpr ⟨_, .refl, .unknownText fun former => ?_⟩
    cases former <;> decide
  have helement : Enters (.obj [("tuple", .arr [.str "nil", .str "float", .str "event"])])
      (.str "float") :=
    @Enters.element [.str "nil"] [.str "event"] _ (List.forall_mem_singleton.mpr ⟨nil, rfl⟩)
  have hfield : Enters (.obj [("named_tuple", .arr
        [.arr [.str "b", .str "int"], .obj [("name", .str "b"), ("ty", .str "bool")],
          .obj [("ty", .obj [("tuple", .arr [.str "nil", .str "float", .str "event"])])],
          .null])]) (.obj [("tuple", .arr [.str "nil", .str "float", .str "event"])]) :=
    @Enters.field [.arr [.str "b", .str "int"], .obj [("name", .str "b"), ("ty", .str "bool")]]
      [.null] _ _ (List.forall_mem_cons.mpr ⟨⟨("b", int), rfl⟩,
        List.forall_mem_singleton.mpr ⟨("b", bool), rfl⟩⟩)
      (.members (by intro value hname; cases hname) rfl)
  refine ⟨hfloat, houtwards _ _ _ (.head (.inner _) (.head hfield (.single helement))) hfloat,
    (harrays _ _).2.2.mpr (.repeated hread hname), fun hty => ?_, ?_⟩
  · exact absurd ((hdistinct _ _ hread).mp hty) (by decide)
  · exact (hfaults _ _).mpr ⟨_, .single (.inner _), .repeated hread hname⟩

end MachineTypes.Ty
