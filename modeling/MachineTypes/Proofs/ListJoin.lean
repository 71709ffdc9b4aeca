import MachineTypes.Lattice.Fold
import MachineTypes.Proofs.LeastUpperBound

/-!
# The join of a list is its least upper bound

`joinAll` is a left fold, so its result could depend on the order in which the
types of the list stand. It does not, up to refinements. While the fold runs,
the type joined so far is the least upper bound of the types seen so far; at
the end it is the least upper bound of the whole list, and a least upper bound
is determined by what is in the list alone.

The invariant is `LeastUpperBound`. A single join keeps it by
`LeastUpperBound.append`, and a whole run of the fold by
`LeastUpperBound.foldlM`.

## Main results

* `leastUpperBound_joinAll` — what the join of a non-empty list ends in.
* `LeastUpperBound.beq`, `LeastUpperBound.of_same_classes` — a least upper bound
  is unique up to `==`, and is shared by lists with the same types up to `==`.
* `exists_joinAll` — a list of types without `state` has a join.
-/

namespace MachineTypes.Ty

/-! ## Upper bounds of a list -/

/-- Every type of the list is a subtype of the bound. -/
def UpperBound (tys : List Ty) (bound : Ty) : Prop :=
  ∀ ty ∈ tys, ty.isSubtype bound = true

/-- An upper bound of the list that is below every other. -/
structure LeastUpperBound (tys : List Ty) (least : Ty) : Prop where
  upper : UpperBound tys least
  below : ∀ bound : Ty, UpperBound tys bound → least.isSubtype bound = true

theorem upperBound_append {front back : List Ty} {bound : Ty} :
    UpperBound (front ++ back) bound ↔ UpperBound front bound ∧ UpperBound back bound :=
  List.forall_mem_append

theorem upperBound_singleton {ty bound : Ty} :
    UpperBound [ty] bound ↔ ty.isSubtype bound = true :=
  List.forall_mem_singleton

theorem UpperBound.trans {tys : List Ty} {bound other : Ty} (h : UpperBound tys bound)
    (hle : bound.isSubtype other = true) : UpperBound tys other :=
  fun ty hty => isSubtype_trans (h ty hty) hle

/-- Bounds do not depend on the refinements in the list, nor on how often and
in which order its types stand there. -/
theorem UpperBound.of_same_classes {tys others : List Ty} {bound : Ty}
    (h : ∀ other ∈ others, ∃ ty ∈ tys, (other == ty) = true) (hbound : UpperBound tys bound) :
    UpperBound others bound := by
  intro other hother
  obtain ⟨ty, hty, heq⟩ := h other hother
  exact isSubtype_trans (isSubtype_of_beq heq) (hbound ty hty)

namespace LeastUpperBound

variable {tys others : List Ty} {a b : Ty}

theorem singleton (ty : Ty) : LeastUpperBound [ty] ty where
  upper := upperBound_singleton.mpr (isSubtype_refl ty)
  below _ hbound := upperBound_singleton.mp hbound

/-- A list has one least upper bound, up to refinements. -/
theorem beq (ha : LeastUpperBound tys a) (hb : LeastUpperBound tys b) : (a == b) = true :=
  beq_of_isSubtype (ha.below b hb.upper) (hb.below a ha.upper)

/-- Lists with the same types, up to refinements, have the same least upper
bounds. -/
theorem of_same_classes (h : ∀ ty ∈ tys, ∃ other ∈ others, (ty == other) = true)
    (hback : ∀ other ∈ others, ∃ ty ∈ tys, (other == ty) = true)
    (ha : LeastUpperBound tys a) : LeastUpperBound others a where
  upper := ha.upper.of_same_classes hback
  below bound hbound := ha.below bound (hbound.of_same_classes h)

/-- The join of the least upper bounds of two lists is that of both together. -/
theorem append {front back : List Ty} {j : Ty} (hfront : LeastUpperBound front a)
    (hback : LeastUpperBound back b) (h : a.join b = .ok j) :
    LeastUpperBound (front ++ back) j where
  upper := by
    obtain ⟨hleft, hright⟩ := isSubtype_join h
    exact upperBound_append.mpr ⟨hfront.upper.trans hleft, hback.upper.trans hright⟩
  below bound hbound := by
    obtain ⟨hleft, hright⟩ := upperBound_append.mp hbound
    exact join_isSubtype h (hfront.below bound hleft) (hback.below bound hright)

end LeastUpperBound

/-! ## The fold -/

theorem foldlM_join_cons_eq_ok_iff {acc ty j : Ty} {rest : List Ty} :
    (ty :: rest).foldlM join acc = .ok j ↔
      ∃ joined, acc.join ty = .ok joined ∧ rest.foldlM join joined = .ok j := by
  rw [List.foldlM_cons, bind_eq_ok_iff]

/-- A run of the fold turns the least upper bound of what was seen before into
the least upper bound of all. -/
theorem LeastUpperBound.foldlM {seen rest : List Ty} {acc j : Ty}
    (hacc : LeastUpperBound seen acc) (h : rest.foldlM join acc = .ok j) :
    LeastUpperBound (seen ++ rest) j := by
  induction rest generalizing seen acc with
  | nil =>
    obtain rfl : acc = j := Except.ok.inj h
    rw [List.append_nil]
    exact hacc
  | cons ty rest ih =>
    obtain ⟨joined, hjoined, hrest⟩ := foldlM_join_cons_eq_ok_iff.mp h
    have hall := ih (hacc.append (.singleton ty) hjoined) hrest
    rwa [List.append_assoc, List.singleton_append] at hall

/-- A list that is not empty is joined to its least upper bound. -/
theorem leastUpperBound_joinAll {tys : List Ty} {j : Ty} (hne : tys ≠ [])
    (h : (joinAll tys).value = .ok j) : LeastUpperBound tys j := by
  cases tys with
  | nil => exact absurd rfl hne
  | cons first rest =>
    rw [joinAll_cons_value] at h
    exact (LeastUpperBound.singleton first).foldlM h

/-- The fold runs to its end when nothing in it holds `state`. -/
theorem exists_foldlM_join {acc : Ty} {tys : List Ty} (hacc : acc.holdsState = false)
    (h : ∀ ty ∈ tys, ty.holdsState = false) :
    ∃ j, tys.foldlM join acc = .ok j ∧ j.holdsState = false := by
  induction tys generalizing acc with
  | nil => exact ⟨acc, rfl, hacc⟩
  | cons ty rest ih =>
    obtain ⟨hty, hrest⟩ := List.forall_mem_cons.mp h
    obtain ⟨joined, hjoined⟩ := exists_join hacc hty
    obtain ⟨j, hj, hjstate⟩ := ih (holdsState_of_join hjoined) hrest
    exact ⟨j, foldlM_join_cons_eq_ok_iff.mpr ⟨joined, hjoined, hj⟩, hjstate⟩

/-- A list of types without `state` has a join, which is free of it too. -/
theorem exists_joinAll {tys : List Ty} (h : ∀ ty ∈ tys, ty.holdsState = false) :
    ∃ j, (joinAll tys).value = .ok j ∧ j.holdsState = false := by
  cases tys with
  | nil => exact ⟨nil, rfl, rfl⟩
  | cons first rest =>
    obtain ⟨hfirst, hrest⟩ := List.forall_mem_cons.mp h
    rw [joinAll_cons_value]
    exact exists_foldlM_join hfirst hrest

/-- **The join of a list depends on its types alone**: it is their least upper
bound, two lists with the same types up to `==` have joins that are `==`, and
a list without `state` at any depth has a join. -/
theorem joinAll_determined_by_members :
    (∀ (tys : List Ty) (j : Ty), tys ≠ [] → (joinAll tys).value = .ok j →
      (∀ ty ∈ tys, ty.isSubtype j = true) ∧
        ∀ c : Ty, (∀ ty ∈ tys, ty.isSubtype c = true) → j.isSubtype c = true) ∧
    (∀ (tys others : List Ty) (j k : Ty), tys ≠ [] → others ≠ [] →
      (∀ ty ∈ tys, ∃ other ∈ others, (ty == other) = true) →
      (∀ other ∈ others, ∃ ty ∈ tys, (other == ty) = true) →
      (joinAll tys).value = .ok j → (joinAll others).value = .ok k → (j == k) = true) ∧
    ∀ tys : List Ty, (∀ ty ∈ tys, ty.holdsState = false) →
      ∃ j, (joinAll tys).value = .ok j := by
  refine ⟨fun tys j hne hj => ?_, fun tys others j k hne hone h hback hj hk => ?_, fun tys h => ?_⟩
  · obtain ⟨hupper, hbelow⟩ := leastUpperBound_joinAll hne hj
    exact ⟨hupper, hbelow⟩
  · have hothers := (leastUpperBound_joinAll hne hj).of_same_classes h hback
    exact hothers.beq (leastUpperBound_joinAll hone hk)
  · obtain ⟨j, hj, _⟩ := exists_joinAll h
    exact ⟨j, hj⟩

/-- Two orders of the same pairs, with an event refined in one way and in
another: what each is joined to, and what the statement says of it. -/
theorem joinAll_determined_by_members_pairs :
    (joinAll [tuple [nil, int], tuple [event (some "a"), int], tuple [nil, bool]]).value =
        .ok (tuple [event (some "a"), any]) ∧
      (joinAll [tuple [event none, int], tuple [nil, bool], tuple [nil, int]]).value =
        .ok (tuple [event none, any]) ∧
      (tuple [event (some "a"), any]).isSubtype (tuple [any, any]) = true ∧
      (tuple [event (some "a"), any] == tuple [event none, any]) = true ∧
      ∃ j, (joinAll [tuple [nil, int], tuple [nil, bool]]).value = .ok j := by
  have hj : (joinAll [tuple [nil, int], tuple [event (some "a"), int], tuple [nil, bool]]).value =
      .ok (tuple [event (some "a"), any]) := rfl
  have hk : (joinAll [tuple [event none, int], tuple [nil, bool], tuple [nil, int]]).value =
      .ok (tuple [event none, any]) := rfl
  obtain ⟨hleast, hsame, hreturns⟩ := joinAll_determined_by_members
  refine ⟨hj, hk, ?_, ?_, ?_⟩
  · exact (hleast _ _ (by simp) hj).2 _ (by decide)
  · exact hsame _ _ _ _ (by simp) (by simp) (by decide) (by decide) hj hk
  · exact hreturns _ (by decide)

end MachineTypes.Ty
