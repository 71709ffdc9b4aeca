import MachineTypes.Proofs.CommonPosition

/-!
# The first event wins

Refinements take no part in a join, but one of them is kept wherever the join
has an event. It is the one that was met first: an event meets `nil` or another
event and stays as it is, and only `nil`, which has no refinement to lose, gives
way to an event on its right. Over a list this makes the refinement at a
position that of the first type with an event there, whether that event is
refined or not.

What the types of a list have at one position is read from the front
(`FirstEvent`). A join can be put for its two operands in such a reading, and
by that the fold is taken back operand by operand to the list it was given.

## Main results

* `join_eq_nil_iff`, `join_eq_event_iff` — how a join comes to be `nil` or an
  event.
* `firstEvent_joined_iff` — a join reads as its operands do.
* `at?_foldlM_join_eq_event_iff` — where a fold has an event, and which one.
* `eq_left_of_beq` — operands that are the same up to refinements are joined to
  the first.
* `joinAll_keeps_first_event` — the two for lists and for pairs of types.
-/

namespace MachineTypes.Ty

/-! ## Joins that are `nil` or an event -/

/-- Nothing but `nil` with itself makes `nil`. -/
theorem join_eq_nil_iff {a b : Ty} : a.join b = .ok nil ↔ a = nil ∧ b = nil := by
  constructor
  · intro h
    cases joinOutcome_of_join h with
    | left _ hb => cases b <;> simp [isSubtype] at hb ⊢
    | right _ ha _ => cases a <;> simp [isSubtype] at ha ⊢
    | parts _ _ hj _ => exact absurd rfl (ne_of_shape? hj rfl)
  · rintro ⟨rfl, rfl⟩
    rfl

/-- An event is made by the event itself on the left, or by the event on the
right of `nil`. -/
theorem join_eq_event_iff {a b : Ty} {refinement : Option String} :
    a.join b = .ok (event refinement) ↔
      a = event refinement ∧ (b = nil ∨ ∃ other, b = event other) ∨
        a = nil ∧ b = event refinement := by
  constructor
  · intro h
    cases joinOutcome_of_join h with
    | left _ hb => cases b <;> simp [isSubtype] at hb ⊢
    | right _ ha hstrict => cases a <;> simp [isSubtype] at ha hstrict ⊢
    | parts _ _ hj _ => exact absurd rfl (ne_of_shape? hj rfl)
  · rintro (⟨rfl, rfl | ⟨other, rfl⟩⟩ | ⟨rfl, rfl⟩) <;> rfl

/-- Types that are the same up to refinements are joined to the first of them,
with its refinements. -/
theorem eq_left_of_beq {a b j : Ty} (heq : (a == b) = true) (h : a.join b = .ok j) : j = a := by
  induction a using parts_induction generalizing b j with
  | step a ih =>
    cases joinOutcome_of_join h with
    | left => rfl
    | right _ _ hstrict =>
      rw [isSubtype_of_beq (BEq.symm heq)] at hstrict
      cases hstrict
    | top htop => exact (htop a (isSubtype_refl a) (isSubtype_of_beq (BEq.symm heq))).symm
    | parts ha hb hj hjoins =>
      refine eq_of_parts hj ha fun i z x hz hx => ?_
      obtain ⟨y, hy⟩ := exists_part_of_shape?_eq (ha.trans hb.symm) hx
      have hxy : (x == y) = true := (beq_iff_parts ha hb).mp heq i x y hx hy
      exact ih i x hx hxy (hjoins i x y z hx hy hz)

/-! ## Reading a position from the front -/

/-- What some types have at one position, read in their order: `nil` is passed
over, the first event has the refinement, and after it there are events and
`nil` only. -/
inductive FirstEvent (refinement : Option String) : List (Option Ty) → Prop where
  | here {rest : List (Option Ty)}
      (h : ∀ found ∈ rest, found = some nil ∨ ∃ other, found = some (event other)) :
      FirstEvent refinement (some (event refinement) :: rest)
  | later {rest : List (Option Ty)} (h : FirstEvent refinement rest) :
      FirstEvent refinement (some nil :: rest)

theorem firstEvent_cons_iff {refinement : Option String} {found : Option Ty}
    {rest : List (Option Ty)} :
    FirstEvent refinement (found :: rest) ↔
      found = some (event refinement) ∧
          (∀ found ∈ rest, found = some nil ∨ ∃ other, found = some (event other)) ∨
        found = some nil ∧ FirstEvent refinement rest := by
  constructor
  · intro h
    cases h with
    | here h => exact .inl ⟨rfl, h⟩
    | later h => exact .inr ⟨rfl, h⟩
  · rintro (⟨rfl, h⟩ | ⟨rfl, h⟩)
    · exact .here h
    · exact .later h

/-- A join reads as its two operands do. -/
theorem firstEvent_joined_iff {refinement : Option String} {x y z : Option Ty}
    {rest : List (Option Ty)} (h : JoinedAt x y z) :
    FirstEvent refinement (z :: rest) ↔ FirstEvent refinement (x :: y :: rest) := by
  cases h with
  | outside => simp [firstEvent_cons_iff]
  | @inside x y z hz =>
    have hnil : z = nil ↔ x = nil ∧ y = nil := by
      rw [← join_eq_nil_iff, hz, Except.ok.injEq]
    have hevent : z = event refinement ↔
        x = event refinement ∧ (y = nil ∨ ∃ other, y = event other) ∨
          x = nil ∧ y = event refinement := by
      rw [← join_eq_event_iff, hz, Except.ok.injEq]
    simp only [firstEvent_cons_iff, Option.some.injEq, List.forall_mem_cons, hnil, hevent]
    constructor
    · rintro (⟨⟨hx, hy⟩ | ⟨hx, hy⟩, hrest⟩ | ⟨⟨hx, hy⟩, hrest⟩)
      · exact .inl ⟨hx, hy, hrest⟩
      · exact .inr ⟨hx, .inl ⟨hy, hrest⟩⟩
      · exact .inr ⟨hx, .inr ⟨hy, hrest⟩⟩
    · rintro (⟨hx, hy, hrest⟩ | ⟨hx, ⟨hy, hrest⟩ | ⟨hy, hrest⟩⟩)
      · exact .inl ⟨.inl ⟨hx, hy⟩, hrest⟩
      · exact .inl ⟨.inr ⟨hx, hy⟩, hrest⟩
      · exact .inr ⟨⟨hx, hy⟩, hrest⟩

/-- The reading, said of the types: all have `nil` or an event there, and the
first to have an event has the refinement. -/
theorem firstEvent_map_iff {refinement : Option String} {tys : List Ty} {position : Position} :
    FirstEvent refinement (tys.map (·.at? position)) ↔
      (∀ ty ∈ tys, ty.at? position = some nil ∨
        ∃ other, ty.at? position = some (event other)) ∧
      ∃ front first back, tys = front ++ first :: back ∧
        (∀ ty ∈ front, ty.at? position = some nil) ∧
        first.at? position = some (event refinement) := by
  constructor
  · intro h
    induction tys with
    | nil => cases h
    | cons ty rest ih =>
      rw [List.map_cons, firstEvent_cons_iff, List.forall_mem_map] at h
      rcases h with ⟨hty, hrest⟩ | ⟨hty, hrest⟩
      · refine ⟨List.forall_mem_cons.mpr ⟨.inr ⟨refinement, hty⟩, hrest⟩, ?_⟩
        exact ⟨[], ty, rest, rfl, by simp, hty⟩
      · obtain ⟨hall, front, first, back, rfl, hfront, hfirst⟩ := ih hrest
        refine ⟨List.forall_mem_cons.mpr ⟨.inl hty, hall⟩, ?_⟩
        exact ⟨ty :: front, first, back, rfl, List.forall_mem_cons.mpr ⟨hty, hfront⟩, hfirst⟩
  · rintro ⟨hall, front, first, back, rfl, hfront, hfirst⟩
    induction front with
    | nil =>
      obtain ⟨-, hback⟩ := List.forall_mem_cons.mp hall
      refine firstEvent_cons_iff.mpr (.inl ⟨hfirst, ?_⟩)
      exact List.forall_mem_map.mpr hback
    | cons ty front ih =>
      obtain ⟨-, hall⟩ := List.forall_mem_cons.mp hall
      obtain ⟨hty, hfront⟩ := List.forall_mem_cons.mp hfront
      exact firstEvent_cons_iff.mpr (.inr ⟨hty, ih hall hfront⟩)

/-! ## The fold -/

/-- A fold has an event at a position exactly when the position is common to the
types that were joined and they read as that event. -/
theorem at?_foldlM_join_eq_event_iff {acc j : Ty} {tys : List Ty} {position : Position}
    {refinement : Option String} (hacc : acc.Canonical) (htys : ∀ ty ∈ tys, ty.Canonical)
    (h : tys.foldlM join acc = .ok j) :
    j.at? position = some (event refinement) ↔
      Common (acc :: tys) position ∧
        FirstEvent refinement ((acc :: tys).map (·.at? position)) := by
  induction tys generalizing acc with
  | nil =>
    obtain rfl : acc = j := Except.ok.inj h
    rw [List.map_singleton, firstEvent_cons_iff]
    constructor
    · intro hevent
      exact ⟨common_singleton_of_at? hevent, .inl ⟨hevent, by simp⟩⟩
    · rintro ⟨-, ⟨hevent, -⟩ | ⟨-, hnone⟩⟩
      · exact hevent
      · cases hnone
  | cons ty rest ih =>
    obtain ⟨hty, hrest⟩ := List.forall_mem_cons.mp htys
    obtain ⟨joined, hjoined, hfold⟩ := foldlM_join_cons_eq_ok_iff.mp h
    rw [ih (canonical_of_join hacc hty hjoined) hrest hfold, common_join_iff hacc hty hjoined]
    refine and_congr_right fun hcommon => ?_
    have hpair : Common [acc, ty] position := hcommon.mono (by simp)
    exact firstEvent_joined_iff (joinedAt_at? hacc hty hjoined hpair)

/-- **The first event wins.** The join of a list has an event at a position
exactly when the position is common to the types of the list, all of them have
`nil` or an event there, and one has an event; the refinement is that of the
first one that has, even if it is none. And two types that are the same up to
refinements are joined to the first of them as it stands. -/
theorem joinAll_keeps_first_event :
    (∀ (tys : List Ty) (j : Ty), tys ≠ [] → (∀ ty ∈ tys, ty.Canonical) →
      (joinAll tys).value = .ok j → ∀ (position : Position) (refinement : Option String),
      j.at? position = some (event refinement) ↔
        Common tys position ∧
        (∀ ty ∈ tys, ty.at? position = some nil ∨
          ∃ other, ty.at? position = some (event other)) ∧
        ∃ front first back, tys = front ++ first :: back ∧
          (∀ ty ∈ front, ty.at? position = some nil) ∧
          first.at? position = some (event refinement)) ∧
    ∀ a b j : Ty, (a == b) = true → a.join b = .ok j → j = a := by
  refine ⟨fun tys j hne htys h position refinement => ?_, fun a b j => eq_left_of_beq⟩
  obtain ⟨acc, rest, rfl⟩ := List.exists_cons_of_ne_nil hne
  obtain ⟨hacc, hrest⟩ := List.forall_mem_cons.mp htys
  rw [joinAll_cons_value] at h
  rw [at?_foldlM_join_eq_event_iff hacc hrest h, firstEvent_map_iff]

/-- Three named tuples of which the second is the first to have an event in the
field, one without a refinement; and a sequence that is joined with itself under
another refinement. -/
theorem joinAll_keeps_first_event_fields :
    (joinAll [namedTuple [("x", nil)], namedTuple [("x", event none)],
        namedTuple [("x", event (some "a"))]]).value = .ok (namedTuple [("x", event none)]) ∧
      (∃ front first back, [namedTuple [("x", nil)], namedTuple [("x", event none)],
          namedTuple [("x", event (some "a"))]] = front ++ first :: back ∧
        (∀ ty ∈ front, ty.at? [.name "x"] = some nil) ∧
        first.at? [.name "x"] = some (event none)) ∧
      ∃ j, (sequence (event (some "a"))).join (sequence (event (some "b"))) = .ok j ∧
        j = sequence (event (some "a")) := by
  have hj : (joinAll [namedTuple [("x", nil)], namedTuple [("x", event none)],
      namedTuple [("x", event (some "a"))]]).value = .ok (namedTuple [("x", event none)]) := rfl
  have hascends : ∀ ty : Ty, Fields.Ascending [("x", ty)] :=
    fun _ => List.pairwise_singleton _ _
  have htys : ∀ ty ∈ [namedTuple [("x", nil)], namedTuple [("x", event none)],
      namedTuple [("x", event (some "a"))]], ty.Canonical := by
    simp [Canonical, CanonicalFields, hascends]
  have hevent : (namedTuple [("x", event none)]).at? [.name "x"] = some (event none) := by
    rw [at?_cons, part?, (Fields.find?_eq_some_iff_mem (hascends _)).mpr List.mem_cons_self]
    rfl
  obtain ⟨hlist, hpair⟩ := joinAll_keeps_first_event
  exact ⟨hj, ((hlist _ _ (by simp) htys hj _ _).mp hevent).2.2, _, rfl,
    hpair _ (sequence (event (some "b"))) _ rfl rfl⟩

end MachineTypes.Ty
