import MachineTypes.Fields.Basic

/-!
# Looking a field up

The names of a field list ascend, so a field is found by bisection: the middle
name decides which half can hold the name that is asked for. `find?_eq_lookup`
says that on an ascending list this finds what a search from the front finds,
and `find?_eq_some_iff_mem` that this is the type of the one field of that name.
-/

namespace MachineTypes.Fields

/-- The type of the field called `name`, by bisection. The middle field decides
which half can hold the name. -/
def find? (name : String) (fields : List Field) : Option Ty :=
  match _h : fields.drop (fields.length / 2) with
  | [] => none
  | (middle, ty) :: upper =>
    if name = middle then some ty
    else if name < middle then find? name (fields.take (fields.length / 2))
    else find? name upper
termination_by fields.length
decreasing_by
  all_goals
    have := congrArg List.length _h
    simp only [List.length_drop, List.length_cons, List.length_take] at *
    omega

/-- Around a field of an ascending list: the names before it are smaller, the
names after it are greater, and both parts ascend. -/
private theorem ascending_split {lower upper : List Field} {middle : String} {ty : Ty}
    (h : Ascending (lower ++ (middle, ty) :: upper)) :
    Ascending lower ∧ Ascending upper ∧
      (∀ name ∈ names lower, name < middle) ∧ ∀ name ∈ names upper, middle < name := by
  simp only [Ascending, names_append, names_cons, List.pairwise_append,
    List.pairwise_cons] at h
  exact ⟨h.1, h.2.1.2, fun name hname => h.2.2 name hname middle List.mem_cons_self, h.2.1.1⟩

private theorem lookup_eq_none {name : String} {fields : List Field}
    (h : name ∉ names fields) : fields.lookup name = none := by
  rw [List.lookup_eq_none_iff]
  intro field hfield
  exact bne_iff_ne.mpr fun heq => h (heq ▸ List.mem_map_of_mem hfield)

/-- In an ascending list bisection finds what a search from the front finds:
the type of the one field called `name`, if there is one. -/
theorem find?_eq_lookup {name : String} {fields : List Field} (h : Ascending fields) :
    find? name fields = fields.lookup name := by
  have split : ∀ {fields upper : List Field} {middle : String} {ty : Ty},
      fields.drop (fields.length / 2) = (middle, ty) :: upper →
        fields = fields.take (fields.length / 2) ++ (middle, ty) :: upper := by
    intro fields upper middle ty hmid
    rw [← hmid, List.take_append_drop]
  fun_induction find? name fields with
  | case1 fields hmid =>
    have hlen := congrArg List.length hmid
    simp only [List.length_drop, List.length_nil] at hlen
    obtain rfl : fields = [] := List.length_eq_zero_iff.mp (by omega)
    rfl
  | case2 fields ty upper hmid =>
    rw [split hmid] at h ⊢
    obtain ⟨-, -, hlower, -⟩ := ascending_split h
    have hnone := lookup_eq_none fun hmem => String.lt_irrefl _ (hlower name hmem)
    simp [List.lookup_append, hnone]
  | case3 fields middle ty upper hmid hne hlt ih =>
    have hsplit := split hmid
    rw [hsplit] at h
    obtain ⟨hasc, -, -, hupper⟩ := ascending_split h
    have hnone := lookup_eq_none fun hmem =>
      String.lt_irrefl _ (String.lt_trans hlt (hupper name hmem))
    rw [ih hasc]
    conv => rhs; rw [hsplit]
    simp [List.lookup_append, List.lookup_cons, beq_eq_false_iff_ne.mpr hne, hnone]
  | case4 fields middle ty upper hmid hne hlt ih =>
    have hsplit := split hmid
    rw [hsplit] at h
    obtain ⟨-, hasc, hlower, -⟩ := ascending_split h
    have hnone := lookup_eq_none fun hmem => hlt (hlower name hmem)
    rw [ih hasc, hsplit]
    simp [List.lookup_append, List.lookup_cons, beq_eq_false_iff_ne.mpr hne, hnone]

/-- What a search from the front finds is an entry, whatever the entries hold. -/
theorem mem_of_lookup {α : Type} {name : String} {value : α} {entries : List (String × α)}
    (h : entries.lookup name = some value) : (name, value) ∈ entries := by
  obtain ⟨front, back, rfl, -⟩ := List.lookup_eq_some_iff.mp h
  simp

/-- In a list without repeated names a search finds the type of every field, and
nothing else. -/
theorem lookup_eq_some_iff_mem {name : String} {ty : Ty} {fields : List Field}
    (h : (names fields).Nodup) : fields.lookup name = some ty ↔ (name, ty) ∈ fields := by
  induction fields with
  | nil => simp
  | cons field rest ih =>
    obtain ⟨other, bound⟩ := field
    obtain ⟨hother, hrest⟩ := List.nodup_cons.mp h
    rw [List.lookup_cons, List.mem_cons]
    by_cases heq : name = other
    · subst heq
      have hnot : (name, ty) ∉ rest := fun hmem => hother (List.mem_map.mpr ⟨_, hmem, rfl⟩)
      simp [hnot, eq_comm]
    · simp [beq_eq_false_iff_ne.mpr heq, heq, ih hrest]

/-- So does bisection in an ascending list. -/
theorem find?_eq_some_iff_mem {name : String} {ty : Ty} {fields : List Field}
    (h : Ascending fields) : find? name fields = some ty ↔ (name, ty) ∈ fields := by
  rw [find?_eq_lookup h, lookup_eq_some_iff_mem h.nodup]

end MachineTypes.Fields
