import MachineTypes.Error

/-!
# Field lists

The fields of a named tuple stand in ascending order of their names, and no
name occurs twice. `Ascending` states this, and `ofList` builds such a list from
fields in any order or reports a repeated name.

Names are ordered by code points. The sort is stable, and a repetition is
reported as the first one in sorted order: the smallest repeated name.

* `ofList_eq_ok` — what is built is the given fields, sorted, and ascending.
* `ofList_of_ascending` — a list in order already is left as it is.
-/

namespace MachineTypes.Fields

/-! ## Names in order -/

/-- The names of the fields, in their order. -/
def names (fields : List Field) : List String := fields.map Prod.fst

/-- Each name is smaller than all that follow it. -/
def Ascending (fields : List Field) : Prop := (names fields).Pairwise (· < ·)

instance (fields : List Field) : Decidable (Ascending fields) :=
  inferInstanceAs (Decidable (List.Pairwise _ _))

@[simp] theorem names_nil : names [] = [] := rfl

@[simp] theorem names_cons (field : Field) (rest : List Field) :
    names (field :: rest) = field.1 :: names rest := rfl

@[simp] theorem length_names (fields : List Field) : (names fields).length = fields.length := by
  simp [names]

@[simp] theorem names_append (lower upper : List Field) :
    names (lower ++ upper) = names lower ++ names upper := by
  simp [names]

theorem Ascending.nodup {fields : List Field} (h : Ascending fields) : (names fields).Nodup :=
  h.imp fun hlt => fun heq => String.lt_irrefl _ (heq ▸ hlt)

/-! ## Building a field list -/

/-- The fields in order of their names; fields of one name keep their order. -/
def sort (fields : List Field) : List Field :=
  fields.mergeSort fun a b => decide (a.1 ≤ b.1)

/-- The first name that is followed by itself. -/
def adjacentRepeat? : List String → Option String
  | a :: b :: rest => if a = b then some a else adjacentRepeat? (b :: rest)
  | _ => none

/-- The field list of a named tuple with the given fields. -/
def ofList (fields : List Field) : Except Error (List Field) :=
  match adjacentRepeat? (names (sort fields)) with
  | some name => .error (.duplicateField name)
  | none => .ok (sort fields)

theorem sort_perm (fields : List Field) : (sort fields).Perm fields :=
  List.mergeSort_perm _ _

/-- After sorting by name no name is greater than one that follows it, whatever the
names stand for. -/
theorem pairwise_mergeSort_name {α : Type} (entries : List (String × α)) :
    (entries.mergeSort fun a b => decide (a.1 ≤ b.1)).Pairwise fun a b => a.1 ≤ b.1 := by
  have h : (entries.mergeSort fun a b => decide (a.1 ≤ b.1)).Pairwise
      fun a b => decide (a.1 ≤ b.1) = true := by
    refine List.pairwise_mergeSort (fun a b c hab hbc => ?_) (fun a b => ?_) entries
    · simp only [decide_eq_true_eq] at *
      exact String.le_trans hab hbc
    · simpa using String.le_total a.1 b.1
  exact h.imp fun hab => by simpa using hab

/-- After sorting no name is greater than one that follows it. -/
theorem names_sort_pairwise (fields : List Field) :
    (names (sort fields)).Pairwise (· ≤ ·) :=
  List.pairwise_map.mpr (pairwise_mergeSort_name fields)

/-- A list that does not descend and has no adjacent repetition ascends. -/
private theorem pairwise_lt_of_adjacentRepeat?_eq_none :
    (names : List String) → names.Pairwise (· ≤ ·) → adjacentRepeat? names = none →
      names.Pairwise (· < ·)
  | [], _, _ => .nil
  | [_], _, _ => List.pairwise_singleton _ _
  | a :: b :: rest, hle, hnone => by
    obtain ⟨ha, hrest⟩ := List.pairwise_cons.mp hle
    by_cases hab : a = b
    · simp [adjacentRepeat?, hab] at hnone
    · simp only [adjacentRepeat?, hab, if_false] at hnone
      have ih := pairwise_lt_of_adjacentRepeat?_eq_none (b :: rest) hrest hnone
      have hlt : a < b := Decidable.byContradiction fun hn =>
        hab (String.le_antisymm (ha b List.mem_cons_self) (String.not_lt.mp hn))
      refine List.pairwise_cons.mpr ⟨fun c hc => ?_, ih⟩
      rcases List.mem_cons.mp hc with rfl | hc
      · exact hlt
      · exact String.lt_trans hlt ((List.pairwise_cons.mp ih).1 c hc)

/-- A list that ascends has no adjacent repetition. -/
private theorem adjacentRepeat?_eq_none_of_pairwise_lt :
    (names : List String) → names.Pairwise (· < ·) → adjacentRepeat? names = none
  | [], _ => rfl
  | [_], _ => rfl
  | a :: b :: rest, hlt => by
    obtain ⟨ha, hrest⟩ := List.pairwise_cons.mp hlt
    have hab : a ≠ b := fun h => String.lt_irrefl _ (h ▸ ha b List.mem_cons_self)
    simp [adjacentRepeat?, hab, adjacentRepeat?_eq_none_of_pairwise_lt (b :: rest) hrest]

/-- What is built is the given fields, sorted, and it ascends. -/
theorem ofList_eq_ok {fields built : List Field} (h : ofList fields = .ok built) :
    built = sort fields ∧ Ascending built := by
  unfold ofList at h
  split at h
  · cases h
  · next hnone =>
    cases h
    exact ⟨rfl, pairwise_lt_of_adjacentRepeat?_eq_none _ (names_sort_pairwise fields) hnone⟩

/-- A list in order already is left as it is. -/
theorem ofList_of_ascending {fields : List Field} (h : Ascending fields) :
    ofList fields = .ok fields := by
  have hsort : sort fields = fields :=
    List.mergeSort_of_pairwise ((List.pairwise_map.mp h).imp fun hab => by
      simpa using String.not_lt.mp fun hba => String.lt_irrefl _ (String.lt_trans hab hba))
  simp [ofList, hsort, adjacentRepeat?_eq_none_of_pairwise_lt _ h]

end MachineTypes.Fields
