import MachineTypes.Proofs.ByName
import MachineTypes.Proofs.CanonicalRun
import MachineTypes.Proofs.FieldOrder

/-!
# A field is found by its name

Looking a field up bisects the list, so it compares the name with a few of the names
that stand there and takes their order for granted. In a list that is out of order it
can miss a field that is there. So that it finds every field, the order in which a
list is put when it is built has to be the one that the search compares by, and a
join, which makes a list without sorting it, has to keep it.

`Searchable` says what is expected of the search: it finds the one row of the name and
nothing else. An ascending list is searchable (`searchable_of_ascending`), and all lists
that are built, read or joined ascend.

## Main results

* `onlyRow_iff_mem` — where names are distinct, a field is the only row of its name.
* `find?_eq_none_iff` — when nothing is found.
* `searchable_of_within` — every named tuple in a canonical type is searchable.
* `find?_finds_fields` — with where such types come from, and what is found of fields
  that were given in any order.
-/

namespace MachineTypes

namespace Fields

section Search

variable {fields : List Field} {name : String} {ty : Ty}

/-- A row of the list pairs the name with the type, and no other row has the name. -/
def OnlyRow (fields : List Field) (name : String) (ty : Ty) : Prop :=
  ∃ front back, fields = front ++ (name, ty) :: back ∧
    name ∉ names front ∧ name ∉ names back

/-- A search finds the type in the only row of a name, and nothing under a name that
has no row. -/
structure Searchable (fields : List Field) : Prop where
  found : ∀ (name : String) (ty : Ty), find? name fields = some ty ↔ OnlyRow fields name ty
  absent : ∀ name : String, find? name fields = none ↔ name ∉ names fields

/-- Where all names are distinct, a field is the only row of its name. -/
theorem onlyRow_iff_mem (h : (names fields).Nodup) :
    OnlyRow fields name ty ↔ (name, ty) ∈ fields := by
  constructor
  · rintro ⟨front, back, rfl, -, -⟩
    exact List.mem_append_right front List.mem_cons_self
  · intro hmem
    obtain ⟨front, back, rfl⟩ := List.append_of_mem hmem
    rw [names_append, names_cons, List.nodup_middle, List.nodup_cons, List.mem_append] at h
    exact ⟨front, back, rfl, fun hfront => h.1 (.inl hfront), fun hback => h.1 (.inr hback)⟩

/-- A name is one of a list when the list pairs it with a type. -/
theorem mem_names_iff : name ∈ names fields ↔ ∃ ty, (name, ty) ∈ fields := by
  rw [names, List.mem_map]
  constructor
  · rintro ⟨⟨other, ty⟩, hmem, rfl⟩
    exact ⟨ty, hmem⟩
  · rintro ⟨ty, hmem⟩
    exact ⟨(name, ty), hmem, rfl⟩

/-- In an ascending list nothing is found exactly under the names that it has not. -/
theorem find?_eq_none_iff (h : Ascending fields) :
    find? name fields = none ↔ name ∉ names fields := by
  rw [mem_names_iff, Option.eq_none_iff_forall_ne_some]
  simp only [ne_eq, find?_eq_some_iff_mem h, not_exists]

/-- An ascending list is searchable. -/
theorem searchable_of_ascending (h : Ascending fields) : Searchable fields where
  found name ty := by rw [find?_eq_some_iff_mem h, onlyRow_iff_mem h.nodup]
  absent _ := find?_eq_none_iff h

/-- What is built from fields in any order has the names of these fields. -/
theorem find?_ofList_eq_none_iff {built : List Field} (h : ofList fields = .ok built) :
    find? name built = none ↔ name ∉ names fields := by
  rw [mem_names_iff, Option.eq_none_iff_forall_ne_some]
  simp only [ne_eq, find?_ofList_eq_some_iff h, not_exists]

end Search

end Fields

namespace Ty

/-- Every named tuple in a canonical type is searchable. -/
theorem searchable_of_within {ty : Ty} {fields : List Field} (hty : ty.Canonical)
    (h : Within (namedTuple fields) ty) : Fields.Searchable fields :=
  Fields.searchable_of_ascending (canonical_iff_within.mp hty fields h)

end Ty

namespace Fields

/-- **The fields that are found are those that were put in.** Fields with distinct
names, given in any order, are built to a list in which a search finds the type that
was given with a name, and nothing under any other name. In every ascending list a
search finds the type in the only row of a name, if the list has the name. Such are
the field lists that are built or read, and those of the named tuples, at any depth,
in a type that is read or is a join of canonical types. -/
theorem find?_finds_fields :
    (∀ given : List Field, (names given).Nodup → ∃ built, ofList given = .ok built ∧
      ∀ name : String, (∀ ty, find? name built = some ty ↔ (name, ty) ∈ given) ∧
        (find? name built = none ↔ name ∉ names given)) ∧
    (∀ fields : List Field, Ascending fields → Searchable fields) ∧
    (∀ given built : List Field, ofList given = .ok built → Searchable built) ∧
    (∀ (json : Json) (fields : List Field), ofJson json = .ok fields → Searchable fields) ∧
    (∀ (json : Json) (ty : Ty), Ty.ofJson json = .ok ty →
      ∀ fields : List Field, Ty.Within (.namedTuple fields) ty → Searchable fields) ∧
    ∀ a b j : Ty, a.Canonical → b.Canonical → a.join b = .ok j →
      ∀ fields : List Field, Ty.Within (.namedTuple fields) j → Searchable fields := by
  refine ⟨fun given hnodup => ?_, fun fields => searchable_of_ascending,
    fun given built h => ?_, fun json fields h => ?_, fun json ty h fields => ?_,
    fun a b j ha hb h fields => ?_⟩
  · obtain ⟨built, hbuilt⟩ := exists_ofList_iff.mpr hnodup
    refine ⟨built, hbuilt, fun name => ⟨fun ty => ?_, ?_⟩⟩
    · exact find?_ofList_eq_some_iff hbuilt
    · exact find?_ofList_eq_none_iff hbuilt
  · exact searchable_of_ascending (ofList_eq_ok h).2
  · exact searchable_of_ascending (Ty.canonical_of_fieldsOfJson h).1
  · exact Ty.searchable_of_within (Ty.canonical_of_ofJson h)
  · exact Ty.searchable_of_within (Ty.canonical_of_join ha hb h)

/-- Two fields given out of order: what is found of them once they are built, when
they are written and read again, and in a join, where one of them is widened. -/
theorem find?_finds_fields_pair :
    (∃ built, ofList [("b", .event (some "e")), ("a", .nil)] = .ok built ∧
      find? "b" built = some (.event (some "e")) ∧ find? "ab" built = none) ∧
    OnlyRow [("a", .nil), ("b", .event (some "e"))] "b" (.event (some "e")) ∧
    (Ty.namedTuple [("a", .nil), ("b", .event (some "e"))]).join
        (.namedTuple [("a", .id), ("b", .nil)]) =
      .ok (.namedTuple [("a", .id), ("b", .event (some "e"))]) ∧
    find? "c" [("a", .id), ("b", .event (some "e"))] = none := by
  obtain ⟨hgiven, -, -, hread, -, hjoin⟩ := find?_finds_fields
  have hascends : ∀ x y : Ty, Ascending [("a", x), ("b", y)] := by
    intro x y
    show ["a", "b"].Pairwise (· < ·)
    decide
  have hleft : (Ty.namedTuple [("a", .nil), ("b", .event (some "e"))]).Canonical :=
    ⟨hascends _ _, trivial, trivial, trivial⟩
  have hright : (Ty.namedTuple [("a", .id), ("b", .nil)]).Canonical :=
    ⟨hascends _ _, trivial, trivial, trivial⟩
  have hjoined : (Ty.namedTuple [("a", .nil), ("b", .event (some "e"))]).join
      (.namedTuple [("a", .id), ("b", .nil)]) =
        .ok (.namedTuple [("a", .id), ("b", .event (some "e"))]) := rfl
  have hfields : ofJson (toJson [("a", .nil), ("b", .event (some "e"))]) =
      .ok [("a", .nil), ("b", .event (some "e"))] :=
    Ty.fieldsOfJson_toJson hleft
  have hsearch := hread _ _ hfields
  have hsearchJoin := hjoin _ _ _ hleft hright hjoined _ (.refl _)
  refine ⟨?_, (hsearch.found "b" _).mp ?_, hjoined, ?_⟩
  · obtain ⟨built, hbuilt, hfound⟩ :=
      hgiven [("b", .event (some "e")), ("a", .nil)] (by decide)
    exact ⟨built, hbuilt, ((hfound "b").1 _).mpr (by simp), (hfound "ab").2.mpr (by decide)⟩
  · exact (find?_eq_some_iff_mem (hascends _ _)).mpr (by simp)
  · exact (hsearchJoin.absent "c").mpr (by decide)

end Fields

end MachineTypes
