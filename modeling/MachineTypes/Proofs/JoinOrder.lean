import MachineTypes.Proofs.LeastUpperBound

/-!
# Join and the order

`join` and `isSubtype` go through two types by rules of their own, and each can be
checked against the other: a type is below another when their join is the other.
That much follows from bounds alone. What does not is when there is a join to
compare with, since a `state` that two operands meet leaves them without one.

A `state` inside an operand is no obstacle unless the other operand has a part in
its place, and this is the same in either order. Nor does widening an operand
bring two parts together that were apart: a supertype has the shape of its
subtype or none at all, so parts that meet after widening have met before.

## Main results

* `exists_join_of_isSubtype`, `join_widened` — wider operands still have a join,
  and it is above.
* `exists_join_swap`, `beq_of_join_swap` — so do swapped operands, and it is the
  same.
* `isSubtype_iff_join_beq_right`, `isSubtype_iff_join_beq_left`,
  `order_iff_join` — the order, read off a join.
-/

namespace MachineTypes.Ty

variable {a a' b b' j : Ty}

/-! ## Wider operands -/

/-- Types above two that have a join have one too. -/
theorem exists_join_of_isSubtype (ha : a.isSubtype a' = true) (hb : b.isSubtype b' = true)
    (h : ∃ j, a.join b = .ok j) : ∃ j, a'.join b' = .ok j := by
  induction a using parts_induction generalizing a' b b' with
  | step a ih =>
    obtain ⟨hane, hbne, hparts⟩ := exists_join_iff.mp h
    have hane' : a' ≠ state := fun heq => hane (isSubtype_state_iff.mp (heq ▸ ha))
    have hbne' : b' ≠ state := fun heq => hbne (isSubtype_state_iff.mp (heq ▸ hb))
    refine exists_join_iff.mpr ⟨hane', hbne', fun shape ha' hb' i x' y' hx' hy' => ?_⟩
    -- A supertype that has a shape has it from its subtype: the parts were in line before.
    have has : a.shape? = some shape :=
      (shape?_eq_of_isSubtype ha (ne_of_shape? ha' rfl)).symm.trans ha'
    have hbs : b.shape? = some shape :=
      (shape?_eq_of_isSubtype hb (ne_of_shape? hb' rfl)).symm.trans hb'
    obtain ⟨x, hx⟩ := exists_part_of_shape?_eq (ha'.trans has.symm) hx'
    obtain ⟨y, hy⟩ := exists_part_of_shape?_eq (hb'.trans hbs.symm) hy'
    have hxx' : x.isSubtype x' = true := (isSubtype_iff_parts has ha').mp ha i x x' hx hx'
    have hyy' : y.isSubtype y' = true := (isSubtype_iff_parts hbs hb').mp hb i y y' hy hy'
    exact ih i x hx hxx' hyy' (hparts shape has hbs i x y hx hy)

/-- **Widening the operands of a join widens the join.** It does not make the
join fail, whatever `state` the operands hold. -/
theorem join_widened (ha : a.isSubtype a' = true) (hb : b.isSubtype b' = true)
    (h : a.join b = .ok j) : ∃ j', a'.join b' = .ok j' ∧ j.isSubtype j' = true := by
  obtain ⟨j', hj'⟩ := exists_join_of_isSubtype ha hb ⟨j, h⟩
  obtain ⟨hleft, hright⟩ := isSubtype_join hj'
  exact ⟨j', hj', join_isSubtype h (isSubtype_trans ha hleft) (isSubtype_trans hb hright)⟩

/-- Two triples with `state` inside the second and the third part, each opposite
a type of another shape. Widened, one `state` is left, and it still meets
nothing. -/
theorem join_widened_triples :
    (tuple [nil, tuple [state], int]).isSubtype (tuple [id, any, int]) = true ∧
      (tuple [nil, bool, sequence state]).isSubtype (tuple [event none, bool, sequence state]) =
        true ∧
      ∃ j', (tuple [id, any, int]).join (tuple [event none, bool, sequence state]) = .ok j' ∧
        (tuple [nil, any, any]).isSubtype j' = true := by
  have hleft : (tuple [nil, tuple [state], int]).isSubtype (tuple [id, any, int]) = true := rfl
  have hright : (tuple [nil, bool, sequence state]).isSubtype
      (tuple [event none, bool, sequence state]) = true := rfl
  have hjoin : (tuple [nil, tuple [state], int]).join (tuple [nil, bool, sequence state]) =
      .ok (tuple [nil, any, any]) := rfl
  exact ⟨hleft, hright, join_widened hleft hright hjoin⟩

/-! ## Swapped operands -/

/-- Types that have a join have one in the opposite order. -/
theorem exists_join_swap (h : ∃ j, a.join b = .ok j) : ∃ j, b.join a = .ok j := by
  induction a using parts_induction generalizing b with
  | step a ih =>
    obtain ⟨hane, hbne, hparts⟩ := exists_join_iff.mp h
    refine exists_join_iff.mpr ⟨hbne, hane, fun shape hb ha i y x hy hx => ?_⟩
    exact ih i x hx (hparts shape ha hb i x y hx hy)

/-- The two orders end in the same type, up to refinements. -/
theorem beq_of_join_swap {k : Ty} (h : a.join b = .ok j) (hk : b.join a = .ok k) :
    (k == j) = true := by
  obtain ⟨haj, hbj⟩ := isSubtype_join h
  obtain ⟨hbk, hak⟩ := isSubtype_join hk
  exact beq_of_isSubtype (join_isSubtype hk hbj haj) (join_isSubtype h hak hbk)

/-! ## The order, read off a join -/

/-- The left operand is below the right one when their join is the right one. -/
theorem isSubtype_iff_join_beq_right (h : a.join b = .ok j) :
    a.isSubtype b = true ↔ (j == b) = true := by
  obtain ⟨haj, hbj⟩ := isSubtype_join h
  constructor
  · intro hab
    exact beq_of_isSubtype (join_isSubtype h hab (isSubtype_refl b)) hbj
  · intro heq
    exact isSubtype_trans haj (isSubtype_of_beq heq)

/-- The right operand is below the left one when their join is the left one. -/
theorem isSubtype_iff_join_beq_left (h : a.join b = .ok j) :
    b.isSubtype a = true ↔ (j == a) = true := by
  obtain ⟨haj, hbj⟩ := isSubtype_join h
  constructor
  · intro hba
    exact beq_of_isSubtype (join_isSubtype h (isSubtype_refl a) hba) haj
  · intro heq
    exact isSubtype_trans hbj (isSubtype_of_beq heq)

/-- **The order can be read off a join**, wherever there is one: a type is a
subtype of another when their join is the other, and the two can be compared
when it is one of them. In the opposite order the join is the same up to
refinements, and it fails if it fails in this one. -/
theorem order_iff_join (a b : Ty) :
    (∀ j, a.join b = .ok j →
      (a.isSubtype b = true ↔ (j == b) = true) ∧
      (b.isSubtype a = true ↔ (j == a) = true) ∧
      (a.isRelated b = true ↔ (j == a) = true ∨ (j == b) = true) ∧
      ∃ k, b.join a = .ok k ∧ (k == j) = true) ∧
    ((∃ violation, a.join b = .error violation) →
      ∃ violation, b.join a = .error violation) := by
  constructor
  · intro j h
    have hright := isSubtype_iff_join_beq_right h
    have hleft := isSubtype_iff_join_beq_left h
    obtain ⟨k, hk⟩ := exists_join_swap ⟨j, h⟩
    refine ⟨hright, hleft, ?_, k, hk, beq_of_join_swap h hk⟩
    rw [isRelated, Bool.or_eq_true, hright, hleft]
    exact or_comm
  · rintro ⟨violation, h⟩
    cases hswap : b.join a with
    | error other => exact ⟨other, rfl⟩
    | ok k =>
      obtain ⟨j, hj⟩ := exists_join_swap ⟨k, hswap⟩
      rw [h] at hj
      cases hj

/-- Two pairs whose components are ordered in opposite directions, a pair below
another, and two pairs that meet `state` in both orders. -/
theorem order_iff_join_pairs :
    ((tuple [nil, any]).isRelated (tuple [id, tuple [state]]) = false ∧
      ∃ k, (tuple [id, tuple [state]]).join (tuple [nil, any]) = .ok k ∧
        (k == tuple [id, any]) = true) ∧
    (tuple [nil, tuple []]).isSubtype (tuple [event (some "e"), any]) = true ∧
    ∃ violation, (tuple [int, state]).join (tuple [state, bool]) = .error violation := by
  have hjoin : (tuple [nil, any]).join (tuple [id, tuple [state]]) = .ok (tuple [id, any]) := rfl
  have hbelow : (tuple [nil, tuple []]).join (tuple [event (some "e"), any]) =
      .ok (tuple [event (some "e"), any]) := rfl
  obtain ⟨-, -, hrelated, hswap⟩ := (order_iff_join _ _).1 _ hjoin
  refine ⟨⟨?_, hswap⟩, ((order_iff_join _ _).1 _ hbelow).1.mpr rfl,
    (order_iff_join (tuple [state, bool]) _).2 ⟨.stateJoined state int, rfl⟩⟩
  exact Bool.eq_false_iff.mpr fun h => absurd (hrelated.mp h) (by decide)

end MachineTypes.Ty
