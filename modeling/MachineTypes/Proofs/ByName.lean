import MachineTypes.Fields.Lookup
import MachineTypes.Proofs.LeastUpperBound
import Mathlib.Data.List.Sort

/-!
# Named tuples, name by name

A named tuple is meant as a finite map from names to types. Equality, subtyping
and join do not treat it as one: they go through two field lists side by side
and pair what stands in the same place. This module shows that for ascending
field lists the two readings agree.

The reason is that an ascending list of names is determined by the set of its
members (`names_eq_iff_sameNames`). Two field lists with the same set of names
therefore have the same name in every place, and what stands in that place is
what a search for the name finds (`relatedByName_iff_places`). Equality,
subtyping and join each follow from this one fact.

## Main results

* `relatedByName_iff_places` — related name by name, and related place by place.
* `namedTuple_beq_iff_byName`, `namedTuple_isSubtype_iff_byName`,
  `join_namedTuple_byName`, `join_namedTuple_of_not_sameNames` — what the three
  operations say of the types under each name.
* `namedTuple_byName` — all of it together, for fields given in any order.
-/

namespace MachineTypes

namespace Fields

/-! ## Names as a set -/

/-- The two field lists have the same names, in whatever order. -/
def SameNames (as bs : List Field) : Prop :=
  ∀ name : String, name ∈ names as ↔ name ∈ names bs

/-- The two field lists have the same names, and what is found under a name in
the one is related to what is found under it in the other. -/
structure RelatedByName (R : Ty → Ty → Prop) (as bs : List Field) : Prop where
  names : SameNames as bs
  types : ∀ name ∈ Fields.names as,
    ∃ x y, find? name as = some x ∧ find? name bs = some y ∧ R x y

/-- Ascending field lists with the same set of names have the same list of names. -/
theorem names_eq_iff_sameNames {as bs : List Field} (ha : Ascending as) (hb : Ascending bs) :
    names as = names bs ↔ SameNames as bs := by
  constructor
  · intro h name
    rw [h]
  · intro h
    exact List.Pairwise.eq_of_mem_iff ha hb h

/-- Building a field list neither adds fields nor drops any. -/
theorem find?_ofList_eq_some_iff {given built : List Field} {name : String} {ty : Ty}
    (h : ofList given = .ok built) : find? name built = some ty ↔ (name, ty) ∈ given := by
  have hbuilt := ofList_eq_ok h
  rw [find?_eq_some_iff_mem hbuilt.2, hbuilt.1]
  exact (sort_perm given).mem_iff

/-! ## Names and places -/

/-- What stands in the place of a name is what a search for the name finds. -/
theorem find?_of_place {fields : List Field} {i : Nat} {name : String} {ty : Ty}
    (h : Ascending fields) (hname : (names fields)[i]? = some name)
    (hty : (fields.map Prod.snd)[i]? = some ty) : find? name fields = some ty := by
  rw [names, List.getElem?_map, Option.map_eq_some_iff] at hname
  rw [List.getElem?_map, Option.map_eq_some_iff] at hty
  obtain ⟨field, hfield, rfl⟩ := hname
  obtain ⟨other, hother, rfl⟩ := hty
  have heq : field = other := Option.some.inj (hfield.symm.trans hother)
  rw [find?_eq_some_iff_mem h, ← heq]
  exact List.mem_of_getElem? hfield

/-- Every place of the list of names is a place of the list of types. -/
theorem exists_type_of_name {fields : List Field} {i : Nat} {name : String}
    (h : (names fields)[i]? = some name) : ∃ ty, (fields.map Prod.snd)[i]? = some ty :=
  Ty.exists_getElem?_of_length_eq (by simp) h

/-- Field lists are related name by name exactly when their names are the same
and they are related place by place. -/
theorem relatedByName_iff_places {R : Ty → Ty → Prop} {as bs : List Field}
    (ha : Ascending as) (hb : Ascending bs) :
    RelatedByName R as bs ↔ names as = names bs ∧
      ∀ (i : Nat) (x y : Ty), (as.map Prod.snd)[i]? = some x →
        (bs.map Prod.snd)[i]? = some y → R x y := by
  constructor
  · intro h
    have hnames : names as = names bs := (names_eq_iff_sameNames ha hb).mpr h.names
    refine ⟨hnames, fun i x y hx hy => ?_⟩
    have hlength : (as.map Prod.snd).length = (names as).length := by simp
    obtain ⟨name, hname⟩ := Ty.exists_getElem?_of_length_eq hlength hx
    have hfindx : find? name as = some x := find?_of_place ha hname hx
    have hfindy : find? name bs = some y := find?_of_place hb (hnames ▸ hname) hy
    obtain ⟨u, v, hu, hv, huv⟩ := h.types name (List.mem_of_getElem? hname)
    rw [hfindx] at hu
    rw [hfindy] at hv
    rw [Option.some.inj hu, Option.some.inj hv]
    exact huv
  · intro h
    obtain ⟨hnames, hplaces⟩ := h
    refine ⟨(names_eq_iff_sameNames ha hb).mp hnames, fun name hmem => ?_⟩
    obtain ⟨i, hname⟩ := List.mem_iff_getElem?.mp hmem
    have hnameb : (names bs)[i]? = some name := hnames ▸ hname
    obtain ⟨x, hx⟩ := exists_type_of_name hname
    obtain ⟨y, hy⟩ := exists_type_of_name hnameb
    exact ⟨x, y, find?_of_place ha hname hx, find?_of_place hb hnameb hy, hplaces i x y hx hy⟩

end Fields

namespace Ty

open Fields (Ascending SameNames RelatedByName)

variable {as bs : List Field}

/-! ## Equality and subtyping -/

/-- Named tuples with the same list of names have one shape. -/
private theorem shape?_of_names_eq (h : Fields.names as = Fields.names bs) :
    (namedTuple bs).shape? = some (.namedTuple (Fields.names as)) := by
  rw [shape?, h]

/-- A named tuple is below another only if the two have the same list of names. -/
private theorem names_eq_of_isSubtype (h : (namedTuple as).isSubtype (namedTuple bs) = true) :
    Fields.names as = Fields.names bs := by
  have hshape : (namedTuple bs).shape? = (namedTuple as).shape? :=
    shape?_eq_of_isSubtype h (ne_of_shape? rfl rfl)
  simpa [shape?] using hshape.symm

/-- Equal named tuples have the same names, and under each name equal types. -/
theorem namedTuple_beq_iff_byName (ha : Ascending as) (hb : Ascending bs) :
    (namedTuple as == namedTuple bs) = true ↔
      RelatedByName (fun x y => (x == y) = true) as bs := by
  rw [Fields.relatedByName_iff_places ha hb]
  constructor
  · intro h
    have hnames := names_eq_of_isSubtype (isSubtype_of_beq h)
    exact ⟨hnames, (beq_iff_parts rfl (shape?_of_names_eq hnames)).mp h⟩
  · intro h
    exact (beq_iff_parts rfl (shape?_of_names_eq h.1)).mpr h.2

/-- A named tuple is below the named tuples with the same names and, under each
name, a type above its own. -/
theorem namedTuple_isSubtype_iff_byName (ha : Ascending as) (hb : Ascending bs) :
    (namedTuple as).isSubtype (namedTuple bs) = true ↔
      RelatedByName (fun x y => x.isSubtype y = true) as bs := by
  rw [Fields.relatedByName_iff_places ha hb]
  constructor
  · intro h
    have hnames := names_eq_of_isSubtype h
    exact ⟨hnames, (isSubtype_iff_parts rfl (shape?_of_names_eq hnames)).mp h⟩
  · intro h
    exact (isSubtype_iff_parts rfl (shape?_of_names_eq h.1)).mpr h.2

/-! ## Join -/

/-- Named tuples whose names differ meet in `any`. -/
theorem join_namedTuple_of_not_sameNames {j : Ty} (h : ¬ SameNames as bs)
    (hjoin : (namedTuple as).join (namedTuple bs) = .ok j) : j = any := by
  have hnames : Fields.names as ≠ Fields.names bs := by
    intro heq
    exact h fun name => by rw [heq]
  rw [join_namedTuple_of_names_ne hnames] at hjoin
  exact (Except.ok.inj hjoin).symm

/-- Named tuples with the same names are joined to one with these names, in
which each name has the join of what the two have under it. -/
theorem join_namedTuple_byName {j : Ty} (ha : Ascending as) (hb : Ascending bs)
    (h : SameNames as bs) (hjoin : (namedTuple as).join (namedTuple bs) = .ok j) :
    ∃ js, j = namedTuple js ∧ Ascending js ∧ SameNames js as ∧
      ∀ name ∈ Fields.names as, ∃ x y z, Fields.find? name as = some x ∧
        Fields.find? name bs = some y ∧ Fields.find? name js = some z ∧ x.join y = .ok z := by
  have hnames : Fields.names as = Fields.names bs := (Fields.names_eq_iff_sameNames ha hb).mpr h
  obtain ⟨hshape, hplaces⟩ := (join_eq_ok_iff_parts rfl (shape?_of_names_eq hnames)).mp hjoin
  cases j <;> simp only [shape?, Option.some.injEq, reduceCtorEq] at hshape
  case namedTuple js =>
    have hjs : Fields.names js = Fields.names as := Shape.namedTuple.inj hshape
    have hasc : Ascending js := by
      rw [Ascending, hjs]
      exact ha
    refine ⟨js, rfl, hasc, fun name => by rw [hjs], fun name hmem => ?_⟩
    obtain ⟨i, hname⟩ := List.mem_iff_getElem?.mp hmem
    have hnameb : (Fields.names bs)[i]? = some name := hnames ▸ hname
    have hnamej : (Fields.names js)[i]? = some name := hjs ▸ hname
    obtain ⟨x, hx⟩ := Fields.exists_type_of_name hname
    obtain ⟨y, hy⟩ := Fields.exists_type_of_name hnameb
    obtain ⟨z, hz⟩ := Fields.exists_type_of_name hnamej
    exact ⟨x, y, z, Fields.find?_of_place ha hname hx, Fields.find?_of_place hb hnameb hy,
      Fields.find?_of_place hasc hnamej hz, hplaces i x y z hx hy hz⟩

/-! ## Fields given in any order -/

/-- **A named tuple is a map from names to types.** Equality, subtyping and join
of ascending field lists, which pair the fields by their places, say what they
should of the types found under each name; and a list built from fields in any
order is ascending and has under each name what was given. -/
theorem namedTuple_byName :
    (∀ as bs : List Field, Ascending as → Ascending bs →
      ((namedTuple as == namedTuple bs) = true ↔
        RelatedByName (fun x y => (x == y) = true) as bs) ∧
      ((namedTuple as).isSubtype (namedTuple bs) = true ↔
        RelatedByName (fun x y => x.isSubtype y = true) as bs) ∧
      ∀ j : Ty, (namedTuple as).join (namedTuple bs) = .ok j →
        (¬ SameNames as bs → j = any) ∧
        (SameNames as bs → ∃ js, j = namedTuple js ∧ Ascending js ∧ SameNames js as ∧
          ∀ name ∈ Fields.names as, ∃ x y z, Fields.find? name as = some x ∧
            Fields.find? name bs = some y ∧ Fields.find? name js = some z ∧
            x.join y = .ok z)) ∧
    ∀ given built : List Field, Fields.ofList given = .ok built →
      Ascending built ∧ ∀ (name : String) (ty : Ty),
        Fields.find? name built = some ty ↔ (name, ty) ∈ given := by
  refine ⟨fun as bs ha hb => ⟨namedTuple_beq_iff_byName ha hb,
    namedTuple_isSubtype_iff_byName ha hb, fun j hjoin => ⟨fun hnames => ?_, fun hnames => ?_⟩⟩,
    fun given built hbuilt => ⟨?_, fun name ty => ?_⟩⟩
  · exact join_namedTuple_of_not_sameNames hnames hjoin
  · exact join_namedTuple_byName ha hb hnames hjoin
  · exact (Fields.ofList_eq_ok hbuilt).2
  · exact Fields.find?_ofList_eq_some_iff hbuilt

/-- Two fields declared in the one order and in the other: what is found under a
name, and the join of the two named tuples under it. -/
theorem namedTuple_byName_pair :
    Fields.ofList [("b", nil), ("a", int)] = .ok [("a", int), ("b", nil)] ∧
      Fields.find? "b" [("a", int), ("b", nil)] = some nil ∧
      (namedTuple [("a", int), ("b", nil)]).join (namedTuple [("a", bool), ("b", id)]) =
        .ok (namedTuple [("a", any), ("b", id)]) ∧
      (∃ x y z, Fields.find? "b" [("a", int), ("b", nil)] = some x ∧
        Fields.find? "b" [("a", bool), ("b", id)] = some y ∧
        Fields.find? "b" [("a", any), ("b", id)] = some z ∧ x.join y = .ok z) ∧
      RelatedByName (fun x y => x.isSubtype y = true)
        [("a", int), ("b", nil)] [("a", any), ("b", id)] := by
  obtain ⟨hpairs, hbuilt⟩ := namedTuple_byName
  have hgiven : Fields.ofList [("b", nil), ("a", int)] = .ok [("a", int), ("b", nil)] := by
    simp [Fields.ofList, Fields.sort, List.mergeSort, Fields.adjacentRepeat?]
  have ha : Ascending [("a", int), ("b", nil)] := by decide
  have hb : Ascending [("a", bool), ("b", id)] := by decide
  have hj : Ascending [("a", any), ("b", id)] := by decide
  have hjoin : (namedTuple [("a", int), ("b", nil)]).join (namedTuple [("a", bool), ("b", id)]) =
      .ok (namedTuple [("a", any), ("b", id)]) := rfl
  refine ⟨hgiven, ((hbuilt _ _ hgiven).2 "b" nil).mpr (by simp), hjoin, ?_, ?_⟩
  · have hsame : SameNames [("a", int), ("b", nil)] [("a", bool), ("b", id)] := fun _ => Iff.rfl
    obtain ⟨js, hjs, -, -, htypes⟩ := ((hpairs _ _ ha hb).2.2 _ hjoin).2 hsame
    cases hjs
    exact htypes "b" (by decide)
  · exact (hpairs _ _ ha hj).2.1.mp rfl

end Ty

end MachineTypes
