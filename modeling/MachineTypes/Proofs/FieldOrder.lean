import MachineTypes.Proofs.Acceptance
import MachineTypes.Proofs.RoundTrip

/-!
# Fields in any order

The fields of a named tuple may be given in any order. They are sorted by name, and
a repeated name is looked for among neighbours only. This is enough: in a sorted
list equal names stand side by side, so the first of them that is followed by itself
is the smallest name that occurs twice.

What is built, and which name is reported, can therefore be said of the given list
without its order (`ofList_eq_ok_iff`, `ofList_eq_error_iff`), and two orders of the
same fields have one outcome. This is less plain for a refused list than for an
accepted one, as fields that share a name may differ in their types, and the two
orders are then not sorted to the same list.

All other ways to make a named tuple go through the same list, so that they accept
and refuse the same fields: the two constructors, and reading a written field list.

## Main results

* `smallest_of_adjacentRepeat?` — what is found among neighbours.
* `ofList_eq_error_iff`, `exists_ofList_iff`, `ofList_perm` — when fields are refused
  and with which name, when they are accepted, and that their order is of no account.
* `Ty.ofJson_of_items` — what is read of written fields.
* `ofList_in_any_order` — all of it together.
-/

namespace MachineTypes

namespace Fields

/-! ## Repeated names -/

/-- The name occurs at least twice, and no smaller name does. -/
structure SmallestRepeat (fields : List Field) (name : String) : Prop where
  repeated : 2 ≤ (names fields).count name
  smallest : ∀ other, 2 ≤ (names fields).count other → name ≤ other

theorem SmallestRepeat.unique {fields : List Field} {name other : String}
    (h : SmallestRepeat fields name) (h' : SmallestRepeat fields other) : name = other :=
  String.le_antisymm (h.smallest other h'.repeated) (h'.smallest name h.repeated)

/-- How often names occur does not depend on the order of the fields. -/
theorem SmallestRepeat.of_perm {fields others : List Field} {name : String}
    (hperm : others.Perm fields) (h : SmallestRepeat fields name) :
    SmallestRepeat others name := by
  have hcount : ∀ other, (names others).count other = (names fields).count other :=
    fun other => (hperm.map Prod.fst).count_eq other
  refine ⟨?_, fun other hother => ?_⟩
  · rw [hcount]
    exact h.repeated
  · rw [hcount] at hother
    exact h.smallest other hother

/-- In a sorted list a name that differs from the next one does not occur again. -/
private theorem not_mem_of_ne_next {a b : String} {rest : List String}
    (hsorted : (a :: b :: rest).Pairwise (· ≤ ·)) (hab : a ≠ b) : a ∉ b :: rest := by
  obtain ⟨hfirst, hrest⟩ := List.pairwise_cons.mp hsorted
  intro hmem
  rcases List.mem_cons.mp hmem with heq | hmem
  · exact hab heq
  · have hba : b ≤ a := (List.pairwise_cons.mp hrest).1 a hmem
    exact hab (String.le_antisymm (hfirst b List.mem_cons_self) hba)

/-- The first name of a sorted list that is followed by itself is the smallest of
those that occur twice. -/
theorem smallest_of_adjacentRepeat? {texts : List String} {name : String}
    (hsorted : texts.Pairwise (· ≤ ·)) (h : adjacentRepeat? texts = some name) :
    2 ≤ texts.count name ∧ ∀ other, 2 ≤ texts.count other → name ≤ other := by
  fun_induction adjacentRepeat? texts with
  | case1 a rest =>
    obtain rfl : a = name := Option.some.inj h
    obtain ⟨hfirst, -⟩ := List.pairwise_cons.mp hsorted
    refine ⟨by simp, fun other hother => ?_⟩
    have hmem : other ∈ a :: a :: rest := List.count_pos_iff.mp (by omega)
    rcases List.mem_cons.mp hmem with rfl | hmem
    · exact String.le_refl other
    · exact hfirst other hmem
  | case2 a b rest hab ih =>
    obtain ⟨-, hrest⟩ := List.pairwise_cons.mp hsorted
    obtain ⟨hrepeated, hsmallest⟩ := ih hrest h
    have hnew : a ∉ b :: rest := not_mem_of_ne_next hsorted hab
    refine ⟨Nat.le_trans hrepeated List.count_le_count_cons, fun other hother => ?_⟩
    by_cases hother' : other = a
    · subst hother'
      rw [List.count_cons_self, List.count_eq_zero.mpr hnew] at hother
      omega
    · rw [List.count_cons_of_ne (Ne.symm hother')] at hother
      exact hsmallest other hother
  | case3 => cases h

/-! ## Building a field list -/

section Building

variable {fields others : List Field}

/-- A field list is accepted when its names are distinct. -/
theorem exists_ofList_iff : (∃ built, ofList fields = .ok built) ↔ (names fields).Nodup := by
  constructor
  · rintro ⟨built, hbuilt⟩
    obtain ⟨hperm, hascending⟩ := ofList_eq_ok_iff.mp hbuilt
    exact (hperm.map Prod.fst).nodup_iff.mp hascending.nodup
  · intro hnodup
    unfold ofList
    split
    · next name hname =>
      obtain ⟨hrepeated, -⟩ := smallest_of_adjacentRepeat? (names_sort_pairwise fields) hname
      have hsorted : (names (sort fields)).Nodup :=
        ((sort_perm fields).map Prod.fst).nodup_iff.mpr hnodup
      have hone := List.nodup_iff_count.mp hsorted name
      omega
    · exact ⟨sort fields, rfl⟩

/-- A field list is refused for the smallest name that it repeats. -/
theorem ofList_eq_error_iff {error : Error} :
    ofList fields = .error error ↔
      ∃ name, error = .duplicateField name ∧ SmallestRepeat fields name := by
  have hrefused : ∀ error, ofList fields = .error error →
      ∃ name, error = .duplicateField name ∧ SmallestRepeat fields name := by
    intro error h
    unfold ofList at h
    split at h
    · next name hname =>
      obtain ⟨hrepeated, hsmallest⟩ :=
        smallest_of_adjacentRepeat? (names_sort_pairwise fields) hname
      have hsorted : SmallestRepeat (sort fields) name := ⟨hrepeated, hsmallest⟩
      exact ⟨name, (Except.error.inj h).symm, hsorted.of_perm (sort_perm fields).symm⟩
    · cases h
  constructor
  · exact hrefused error
  · rintro ⟨name, rfl, hname⟩
    cases h : ofList fields with
    | ok built =>
      have hone := List.nodup_iff_count.mp (exists_ofList_iff.mp ⟨built, h⟩) name
      have htwo := hname.repeated
      omega
    | error error =>
      obtain ⟨other, rfl, hother⟩ := hrefused error h
      rw [hother.unique hname]

/-- Fields in another order have the same outcome, accepted or refused. -/
theorem ofList_perm (hperm : others.Perm fields) : ofList others = ofList fields := by
  cases h : ofList fields with
  | ok built =>
    obtain ⟨hbuilt, hascending⟩ := ofList_eq_ok_iff.mp h
    exact ofList_eq_ok_iff.mpr ⟨hbuilt.trans hperm.symm, hascending⟩
  | error error =>
    obtain ⟨name, rfl, hname⟩ := ofList_eq_error_iff.mp h
    exact ofList_eq_error_iff.mpr ⟨name, rfl, hname.of_perm hperm⟩

end Building

end Fields

/-! ## The other ways to make a named tuple -/

namespace Ty

/-- The constructor for distinct names breaks off where the other one fails, and
reports the same cause. -/
theorem ofDistinctFields_eq_error_iff {fields : List Field} {violation : Violation} :
    ofDistinctFields fields = .error violation ↔
      ∃ name, Fields.ofList fields = .error (.duplicateField name) ∧
        violation = .fieldsRefused (.duplicateField name) := by
  rw [ofDistinctFields, mapError_eq_error_iff]
  simp only [ofFields, map_eq_error_iff]
  constructor
  · rintro ⟨error, herror, rfl⟩
    obtain ⟨name, rfl, -⟩ := Fields.ofList_eq_error_iff.mp herror
    exact ⟨name, herror, rfl⟩
  · rintro ⟨name, hname, rfl⟩
    exact ⟨.duplicateField name, hname, rfl⟩

/-- Items that are read as fields are read as a field list, and as a named tuple, with
the outcome that the fields have themselves. -/
theorem ofJson_of_items {items : List Json} {fields : List Field}
    (h : items.mapM fieldOfJson = .ok fields) :
    Fields.ofJson (.arr items) = (Fields.ofList fields).mapError .invalid ∧
      ofJson (.obj [(Former.namedTuple.name, .arr items)]) =
        (ofFields fields).mapError .invalid := by
  have hfields : fieldsOfJson (.arr items) = .ok fields := by
    rw [fieldsOfJson, ofJsonFields_eq_mapM, h]
  constructor
  · rw [Fields.ofJson, hfields]
    rfl
  · rw [ofJson, Former.ofName_name]
    show (fieldsOfJson (.arr items) >>= fun given =>
      (ofFields given).mapError DecodeError.invalid) = _
    rw [hfields]
    rfl

/-- Canonical fields are read from the items that they are written as. -/
theorem mapM_fieldOfJson_toJsonFields {fields : List Field} (h : CanonicalFields fields) :
    (toJsonFields fields).mapM fieldOfJson = .ok fields := by
  rw [← ofJsonFields_eq_mapM]
  exact ofJsonFields_toJsonFields fields h

end Ty

namespace Fields

/-- **The order in which fields are given is of no account**, nor is the way in which
they are made a named tuple. A field list is accepted when its names are distinct,
and then it is put in ascending order; else it is refused for the smallest name that
it repeats. Another order of the fields has the same outcome. The two constructors
of named tuples have this outcome too, a refusal being a violation for the one that
takes names to be distinct; so have the written fields when they are read again,
the types of which are canonical as all types are that were built. And a list that
is in order is built to itself. -/
theorem ofList_in_any_order :
    (∀ fields : List Field,
      ((∃ built, ofList fields = .ok built) ↔ (names fields).Nodup) ∧
      (∀ built, ofList fields = .ok built ↔ built.Perm fields ∧ Ascending built) ∧
      (∀ error, ofList fields = .error error ↔
        ∃ name, error = .duplicateField name ∧ SmallestRepeat fields name) ∧
      (∀ others : List Field, others.Perm fields → ofList others = ofList fields) ∧
      Ty.ofFields fields = (ofList fields).map .namedTuple ∧
      (∀ ty, Ty.ofDistinctFields fields = .ok ty ↔ Ty.ofFields fields = .ok ty) ∧
      (∀ violation, Ty.ofDistinctFields fields = .error violation ↔
        ∃ name, ofList fields = .error (.duplicateField name) ∧
          violation = .fieldsRefused (.duplicateField name)) ∧
      (Ty.CanonicalFields fields →
        ofJson (toJson fields) = (ofList fields).mapError .invalid ∧
        Ty.ofJson (.obj [(Former.namedTuple.name, toJson fields)]) =
          (Ty.ofFields fields).mapError .invalid)) ∧
    ∀ built : List Field, Ascending built → ofList built = .ok built := by
  refine ⟨fun fields => ⟨exists_ofList_iff, fun built => ofList_eq_ok_iff,
    fun error => ofList_eq_error_iff, fun others => ofList_perm, rfl,
    fun ty => mapError_eq_ok_iff, fun violation => Ty.ofDistinctFields_eq_error_iff,
    fun h => ?_⟩, fun built => ofList_of_ascending⟩
  exact Ty.ofJson_of_items (Ty.mapM_fieldOfJson_toJsonFields h)

/-- Two names that both occur twice, with different types, in one order and in
another: what is reported, when they are given and when they are read; and two
fields that are in order. -/
theorem ofList_in_any_order_repeats :
    ofList [("b", .nil), ("a", .int), ("b", .event (some "e")), ("a", .bool)] =
        .error (.duplicateField "a") ∧
      ofList [("a", .bool), ("b", .event (some "e")), ("a", .int), ("b", .nil)] =
        .error (.duplicateField "a") ∧
      Ty.ofJson (.obj [(Former.namedTuple.name,
        toJson [("b", .nil), ("a", .int), ("b", .event (some "e")), ("a", .bool)])]) =
          .error (.invalid (.duplicateField "a")) ∧
      ofList [("a", .int), ("b", .event (some "e"))] =
        .ok [("a", .int), ("b", .event (some "e"))] := by
  have hrefused : ofList [("b", .nil), ("a", .int), ("b", .event (some "e")), ("a", .bool)] =
      .error (.duplicateField "a") := by
    simp [ofList, sort, List.mergeSort, adjacentRepeat?]
  obtain ⟨hgiven, hbuilt⟩ := ofList_in_any_order
  obtain ⟨-, -, -, hperm, hmade, -, -, hread⟩ :=
    hgiven [("b", .nil), ("a", .int), ("b", .event (some "e")), ("a", .bool)]
  refine ⟨hrefused, ?_, ?_, hbuilt _ (by decide)⟩
  · rw [← hrefused]
    exact hperm _ (List.reverse_perm
      [("b", Ty.nil), ("a", Ty.int), ("b", Ty.event (some "e")), ("a", Ty.bool)])
  · rw [(hread (by simp [Ty.CanonicalFields, Ty.Canonical])).2, hmade, hrefused]
    rfl

end Fields

end MachineTypes
