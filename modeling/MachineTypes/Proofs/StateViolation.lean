import MachineTypes.Proofs.CommonPosition

/-!
# When `state` reaches a join

`state` may not reach a join, but a join does not search its operands for it. It
looks at the two types that it has in hand, and goes on to their parts only
where they have one shape. So it meets `state` exactly at the common positions
of its operands, and reports the first one in the order of positions. Whatever
lies below a type that the other operand has no counterpart for goes unseen,
and ends in `any`.

Over a list the same holds of each operand and all that came before it. The
type joined so far has its shape wherever all of these have one shape, and it
holds no `state` itself, so what an operand meets there is what it would have
met in any of them.

The types are canonical throughout. A position names fields, and only in such a
type does a name lead to one field, in the place where the join looks for it.

## Main results

* `exists_metFirst_of_join_eq_error`, `not_stateMet_of_join` — a join that is
  refused has met `state`, first in the place that it reports; one that ends in
  a type has met none.
* `foldlM_join_eq_error_iff` — the fold is refused when `state` is met within
  some of the first operands.
* `violation_iff_stateMet` — the two, for joins and for lists.
* `holdsState_of_foldlM_join`, `join_free_of_state` — what is joined holds no `state`,
  whatever it was joined from.
* `join_eq_error_or_absorbed` — what becomes of a `state` inside an operand.
-/

namespace MachineTypes.Ty

/-! ## Meeting `state` -/

/-- At a position that is common to the types, one of them has `state`. -/
def StateMet (tys : List Ty) (position : Position) : Prop :=
  Common tys position ∧ ∃ ty ∈ tys, ty.at? position = some state

/-- The first position at which two types meet `state`, and what they have
there. -/
structure MetFirst (a b : Ty) (position : Position) (left right : Ty) : Prop where
  met : StateMet [a, b] position
  first : ∀ other, StateMet [a, b] other → position = other ∨ position < other
  left : a.at? position = some left
  right : b.at? position = some right

theorem stateMet_pair_iff {a b : Ty} {position : Position} :
    StateMet [a, b] position ↔
      Common [a, b] position ∧ (a.at? position = some state ∨ b.at? position = some state) := by
  simp [StateMet]

theorem stateMet_nil {a b : Ty} : StateMet [a, b] [] ↔ a = state ∨ b = state := by
  simp [stateMet_pair_iff, common_nil]

/-- Below the top, two types meet `state` where two parts in one place do. -/
theorem stateMet_cons {a b : Ty} {hop : Hop} {rest : Position} (ha : a.Canonical)
    (hb : b.Canonical) :
    StateMet [a, b] (hop :: rest) ↔ ∃ shape, a.shape? = some shape ∧ b.shape? = some shape ∧
      ∃ (i : Nat) (x y : Ty), shape.hops[i]? = some hop ∧ a.parts[i]? = some x ∧
        b.parts[i]? = some y ∧ StateMet [x, y] rest := by
  have hparts : ∀ {x y : Ty}, a.part? hop = some x → b.part? hop = some y →
      (StateMet [a, b] (hop :: rest) ↔
        (∃ shape, a.shape? = some shape ∧ b.shape? = some shape) ∧ StateMet [x, y] rest) := by
    intro x y hx hy
    rw [stateMet_pair_iff, stateMet_pair_iff, common_cons hx hy, and_assoc]
    simp [hx, hy]
  constructor
  · intro h
    obtain ⟨hcommon, hstate⟩ := stateMet_pair_iff.mp h
    obtain ⟨shape, has, hbs⟩ : ∃ shape, a.shape? = some shape ∧ b.shape? = some shape := by
      simpa [shapeAt?] using hcommon [] hop rest rfl
    -- The operand that has `state` further in has a part there, so the other has one too.
    have hplace : ∃ (i : Nat) (x y : Ty), shape.hops[i]? = some hop ∧ a.parts[i]? = some x ∧
        b.parts[i]? = some y := by
      rcases hstate with hstate | hstate
      · obtain ⟨x, hx, -⟩ := Option.bind_eq_some_iff.mp hstate
        obtain ⟨i, y, hi, hx, hy⟩ := exists_places_of_part? ha has hbs hx
        exact ⟨i, x, y, hi, hx, hy⟩
      · obtain ⟨y, hy, -⟩ := Option.bind_eq_some_iff.mp hstate
        obtain ⟨i, x, hi, hy, hx⟩ := exists_places_of_part? hb hbs has hy
        exact ⟨i, x, y, hi, hx, hy⟩
    obtain ⟨i, x, y, hi, hx, hy⟩ := hplace
    have hrest := (hparts ((part?_eq_some_iff ha has).mpr ⟨i, hi, hx⟩)
      ((part?_eq_some_iff hb hbs).mpr ⟨i, hi, hy⟩)).mp h
    exact ⟨shape, has, hbs, i, x, y, hi, hx, hy, hrest.2⟩
  · rintro ⟨shape, has, hbs, i, x, y, hi, hx, hy, hrest⟩
    exact (hparts ((part?_eq_some_iff ha has).mpr ⟨i, hi, hx⟩)
      ((part?_eq_some_iff hb hbs).mpr ⟨i, hi, hy⟩)).mpr ⟨⟨shape, has, hbs⟩, hrest⟩

/-! ## Two operands -/

/-- A join that ends in a type has not met `state`. -/
theorem not_stateMet_of_join {a b j : Ty} {position : Position} (ha : a.Canonical)
    (hb : b.Canonical) (h : a.join b = .ok j) : ¬ StateMet [a, b] position := by
  intro hmet
  obtain ⟨hcommon, hstate⟩ := stateMet_pair_iff.mp hmet
  have hjoined := joinedAt_at? ha hb h hcommon
  generalize a.at? position = left, b.at? position = right, j.at? position = found
    at hjoined hstate
  cases hjoined with
  | outside => simp at hstate
  | inside hz => simp [ne_state_of_join hz] at hstate

/-- Two lists are refused where their heads are, or further on when these have a join. -/
theorem joinEach_cons_eq_error_iff {a b : Ty} {as bs : List Ty} {violation : Violation} :
    joinEach (a :: as) (b :: bs) = .error violation ↔
      a.join b = .error violation ∨
        ∃ head, a.join b = .ok head ∧ joinEach as bs = .error violation := by
  simp only [joinEach, bind_eq_error_iff, pure, Except.pure, reduceCtorEq, and_false,
    exists_false, or_false]

/-- Two lists are refused at the first place where two types are. -/
theorem joinEach_eq_error {as bs : List Ty} {violation : Violation}
    (h : joinEach as bs = .error violation) :
    ∃ (i : Nat) (x y : Ty), as[i]? = some x ∧ bs[i]? = some y ∧ x.join y = .error violation ∧
      ∀ (k : Nat) (u v : Ty), k < i → as[k]? = some u → bs[k]? = some v →
        ∃ w, u.join v = .ok w := by
  induction as generalizing bs with
  | nil => simp [joinEach] at h
  | cons a as ih =>
    cases bs with
    | nil => simp [joinEach] at h
    | cons b bs =>
      rcases joinEach_cons_eq_error_iff.mp h with hhead | ⟨head, hhead, htail⟩
      · exact ⟨0, a, b, rfl, rfl, hhead, fun k u v hk => absurd hk (Nat.not_lt_zero k)⟩
      · obtain ⟨i, x, y, hx, hy, hxy, hbefore⟩ := ih htail
        refine ⟨i + 1, x, y, hx, hy, hxy, fun k u v hk hu hv => ?_⟩
        cases k with
        | zero =>
          obtain rfl : a = u := Option.some.inj hu
          obtain rfl : b = v := Option.some.inj hv
          exact ⟨head, hhead⟩
        | succ k => exact hbefore k u v (Nat.lt_of_succ_lt_succ hk) hu hv

/-- A join of other types than `state` is refused for the sake of its parts. -/
theorem exists_shape_of_join_eq_error {a b : Ty} {violation : Violation} (hane : a ≠ state)
    (hbne : b ≠ state) (h : a.join b = .error violation) :
    ∃ shape, a.shape? = some shape ∧ b.shape? = some shape ∧
      joinEach a.parts b.parts = .error violation := by
  by_cases hshape : a.shape? = b.shape?
  · cases has : a.shape? with
    | none =>
      rw [join_of_scalar has (hshape.symm.trans has) hane hbne] at h
      cases h
    | some shape =>
      have hbs : b.shape? = some shape := hshape.symm.trans has
      rw [join_eq_joinEach has hbs, map_eq_error_iff] at h
      exact ⟨shape, rfl, hbs, h⟩
  · rw [join_of_shape?_ne hane hbne hshape] at h
    cases h

/-- Where two parts first meet `state`, the whole types do, if the parts in all
places before have joins. -/
theorem MetFirst.of_part {a b x y left right : Ty} {shape : Shape} {i : Nat} {rest : Position}
    (ha : a.Canonical) (hb : b.Canonical) (has : a.shape? = some shape)
    (hbs : b.shape? = some shape) (hx : a.parts[i]? = some x) (hy : b.parts[i]? = some y)
    (hbefore : ∀ (k : Nat) (u v : Ty), k < i → a.parts[k]? = some u → b.parts[k]? = some v →
      ∃ w, u.join v = .ok w)
    (h : MetFirst x y rest left right) :
    ∃ hop, MetFirst a b (hop :: rest) left right := by
  obtain ⟨hshape, haparts⟩ := canonical_iff_parts.mp ha
  obtain ⟨-, hbparts⟩ := canonical_iff_parts.mp hb
  obtain ⟨hop, hhop⟩ := exists_hop_of_part has hx
  have hax : a.part? hop = some x := (part?_eq_some_iff ha has).mpr ⟨i, hhop, hx⟩
  have hby : b.part? hop = some y := (part?_eq_some_iff hb hbs).mpr ⟨i, hhop, hy⟩
  refine ⟨hop, ?_, fun other hother => ?_, ?_, ?_⟩
  · exact (stateMet_cons ha hb).mpr ⟨shape, has, hbs, i, x, y, hhop, hx, hy, h.met⟩
  · cases other with
    | nil =>
      rcases stateMet_nil.mp hother with htop | htop
      · exact absurd htop (ne_of_shape? has rfl)
      · exact absurd htop (ne_of_shape? hbs rfl)
    | cons turn back =>
      obtain ⟨_, has', -, k, u, v, hk, hu, hv, hmet⟩ := (stateMet_cons ha hb).mp hother
      obtain rfl := Option.some.inj (has.symm.trans has')
      -- The other position leads through a place before, through the same, or through one after.
      rcases Nat.lt_trichotomy k i with hlt | rfl | hgt
      · obtain ⟨w, hw⟩ := hbefore k u v hlt hu hv
        exact absurd hmet (not_stateMet_of_join (haparts k u hu) (hbparts k v hv) hw)
      · obtain rfl : x = u := Option.some.inj (hx.symm.trans hu)
        obtain rfl : y = v := Option.some.inj (hy.symm.trans hv)
        obtain rfl : hop = turn := Option.some.inj (hhop.symm.trans hk)
        rcases h.first back hmet with rfl | hlt
        · exact .inl rfl
        · exact .inr (List.cons_lt_cons_iff.mpr (.inr ⟨rfl, hlt⟩))
      · have hlt : hop < turn := Shape.hop_lt_of_lt (hshape shape has) hgt hhop hk
        exact .inr (List.cons_lt_cons_iff.mpr (.inl hlt))
  · rw [at?_cons, hax]
    exact h.left
  · rw [at?_cons, hby]
    exact h.right

/-- A join that is refused reports what its operands have where they first meet
`state`. -/
theorem exists_metFirst_of_join_eq_error {a b : Ty} {violation : Violation} (ha : a.Canonical)
    (hb : b.Canonical) (h : a.join b = .error violation) :
    ∃ position left right, MetFirst a b position left right ∧
      violation = .stateJoined left right := by
  induction a using parts_induction generalizing b with
  | step a ih =>
    by_cases htop : a = state ∨ b = state
    · refine ⟨[], a, b, ⟨stateMet_nil.mpr htop, fun other _ => ?_, rfl, rfl⟩, ?_⟩
      · cases other with
        | nil => exact .inl rfl
        | cons hop rest => exact .inr (List.nil_lt_cons hop rest)
      · rcases htop with rfl | rfl <;> simpa using h.symm
    · obtain ⟨hane, hbne⟩ := not_or.mp htop
      obtain ⟨shape, has, hbs, hparts⟩ := exists_shape_of_join_eq_error hane hbne h
      obtain ⟨i, x, y, hx, hy, hxy, hbefore⟩ := joinEach_eq_error hparts
      have hxc : x.Canonical := (canonical_iff_parts.mp ha).2 i x hx
      have hyc : y.Canonical := (canonical_iff_parts.mp hb).2 i y hy
      obtain ⟨rest, left, right, hfirst, hviolation⟩ := ih i x hx hxc hyc hxy
      obtain ⟨hop, hmet⟩ := MetFirst.of_part ha hb has hbs hx hy hbefore hfirst
      exact ⟨hop :: rest, left, right, hmet, hviolation⟩

/-- A join is refused exactly when its operands meet `state`. -/
theorem join_eq_error_iff {a b : Ty} (ha : a.Canonical) (hb : b.Canonical) :
    (∃ violation, a.join b = .error violation) ↔ ∃ position, StateMet [a, b] position := by
  constructor
  · rintro ⟨violation, h⟩
    obtain ⟨position, _, _, hfirst, -⟩ := exists_metFirst_of_join_eq_error ha hb h
    exact ⟨position, hfirst.met⟩
  · rintro ⟨position, hmet⟩
    cases hjoin : a.join b with
    | error violation => exact ⟨violation, rfl⟩
    | ok j => exact absurd hmet (not_stateMet_of_join ha hb hjoin)

/-! ## A list of operands -/

/-- A type is free of `state` when it has none at any position. -/
theorem holdsState_eq_false_iff_at? {ty : Ty} (hcanon : ty.Canonical) :
    ty.holdsState = false ↔ ∀ position, ty.at? position ≠ some state := by
  induction ty using parts_induction with
  | step ty ih =>
    obtain ⟨-, hparts⟩ := canonical_iff_parts.mp hcanon
    rw [holdsState_eq_false_iff]
    constructor
    · rintro ⟨hne, hfree⟩ position h
      cases position with
      | nil => exact hne (Option.some.inj h)
      | cons hop rest =>
        obtain ⟨part, hpart, hrest⟩ := Option.bind_eq_some_iff.mp h
        obtain ⟨i, hi⟩ := exists_getElem?_of_part? hcanon hpart
        exact (ih i part hi (hparts i part hi)).mp (hfree i part hi) rest hrest
    · intro h
      refine ⟨fun heq => h [] (congrArg some heq), fun i part hi => ?_⟩
      obtain ⟨hop, hpart⟩ := exists_part?_of_getElem? hcanon hi
      refine (ih i part hi (hparts i part hi)).mpr fun rest hrest => h (hop :: rest) ?_
      rw [at?_cons, hpart]
      exact hrest

/-- A join can be put for its operands: with other types it meets `state` where
they do. -/
theorem stateMet_join_iff {a b j : Ty} {tys : List Ty} {position : Position}
    (ha : a.Canonical) (hb : b.Canonical) (h : a.join b = .ok j) :
    StateMet (j :: tys) position ↔ StateMet (a :: b :: tys) position := by
  rw [StateMet, StateMet, common_join_iff ha hb h]
  refine and_congr_right fun hcommon => ?_
  have hj : j.at? position ≠ some state :=
    (holdsState_eq_false_iff_at? (canonical_of_join ha hb h)).mp (holdsState_of_join h) position
  have hpair : ¬ (a.at? position = some state ∨ b.at? position = some state) := fun hstate =>
    not_stateMet_of_join ha hb h (stateMet_pair_iff.mpr ⟨hcommon.mono (by simp), hstate⟩)
  obtain ⟨hane, hbne⟩ := not_or.mp hpair
  simp [hj, hane, hbne]

/-- A fold is refused exactly when the first few of its operands, the type it
starts from among them, meet `state`. -/
theorem foldlM_join_eq_error_iff {acc : Ty} {tys : List Ty} (hacc : acc.Canonical)
    (htys : ∀ ty ∈ tys, ty.Canonical) :
    (∃ violation, tys.foldlM join acc = .error violation) ↔
      ∃ k position, k < tys.length ∧ StateMet (acc :: tys.take (k + 1)) position := by
  induction tys generalizing acc with
  | nil => simp [pure, Except.pure]
  | cons ty rest ih =>
    obtain ⟨hty, hrest⟩ := List.forall_mem_cons.mp htys
    rw [List.foldlM_cons]
    cases hjoin : acc.join ty with
    | error violation =>
      obtain ⟨position, hmet⟩ := (join_eq_error_iff hacc hty).mp ⟨violation, hjoin⟩
      exact iff_of_true ⟨violation, rfl⟩ ⟨0, position, Nat.succ_pos _, hmet⟩
    | ok joined =>
      refine (ih (canonical_of_join hacc hty hjoin) hrest).trans ⟨?_, ?_⟩
      · rintro ⟨k, position, hk, hmet⟩
        exact ⟨k + 1, position, Nat.succ_lt_succ hk,
          (stateMet_join_iff hacc hty hjoin).mp hmet⟩
      · rintro ⟨k, position, hk, hmet⟩
        cases k with
        | zero => exact absurd hmet (not_stateMet_of_join hacc hty hjoin)
        | succ k =>
          exact ⟨k, position, Nat.lt_of_succ_lt_succ hk,
            (stateMet_join_iff hacc hty hjoin).mpr hmet⟩

/-- A list of two types or more is refused exactly when the first few of them,
two at least, meet `state`. -/
theorem joinAll_eq_error_iff {tys : List Ty} (htys : ∀ ty ∈ tys, ty.Canonical)
    (hlength : 2 ≤ tys.length) :
    (∃ violation, (joinAll tys).value = .error violation) ↔
      ∃ k position, 1 ≤ k ∧ k < tys.length ∧ StateMet (tys.take (k + 1)) position := by
  cases tys with
  | nil => simp at hlength
  | cons first rest =>
    obtain ⟨hfirst, hrest⟩ := List.forall_mem_cons.mp htys
    rw [joinAll_cons_value, foldlM_join_eq_error_iff hfirst hrest]
    constructor
    · rintro ⟨k, position, hk, hmet⟩
      exact ⟨k + 1, position, Nat.le_add_left 1 k, Nat.succ_lt_succ hk, hmet⟩
    · rintro ⟨k, position, hpos, hk, hmet⟩
      obtain ⟨k, rfl⟩ := Nat.exists_eq_add_of_le' hpos
      exact ⟨k, position, Nat.lt_of_succ_lt_succ hk, hmet⟩

/-- **A join is refused exactly when its operands meet `state`**, and what it
reports is what they have at the first position where they do. A list of two
types or more is refused exactly when the first few of them, two at least, meet
`state`, and a shorter list never is. -/
theorem violation_iff_stateMet :
    (∀ a b : Ty, a.Canonical → b.Canonical →
      ((∃ violation, a.join b = .error violation) ↔ ∃ position, StateMet [a, b] position) ∧
      ∀ violation, a.join b = .error violation → ∃ position left right,
        StateMet [a, b] position ∧
        (∀ other, StateMet [a, b] other → position = other ∨ position < other) ∧
        a.at? position = some left ∧ b.at? position = some right ∧
        violation = .stateJoined left right ∧
        violation.message = "join: state type reached a join (`" ++ left.text ++ "` with `" ++
          right.text ++ "`)" ++ " (checker must keep state values out of value positions)") ∧
    (∀ tys : List Ty, (∀ ty ∈ tys, ty.Canonical) → 2 ≤ tys.length →
      ((∃ violation, (joinAll tys).value = .error violation) ↔
        ∃ k position, 1 ≤ k ∧ k < tys.length ∧ StateMet (tys.take (k + 1)) position)) ∧
    ∀ tys : List Ty, tys.length ≤ 1 → ∃ ty, (joinAll tys).value = .ok ty := by
  refine ⟨fun a b ha hb => ⟨join_eq_error_iff ha hb, fun violation h => ?_⟩,
    fun tys htys hlength => joinAll_eq_error_iff htys hlength, fun tys hlength => ?_⟩
  · obtain ⟨position, left, right, hfirst, rfl⟩ := exists_metFirst_of_join_eq_error ha hb h
    exact ⟨position, left, right, hfirst.met, hfirst.first, hfirst.left, hfirst.right,
      rfl, rfl⟩
  · match tys, hlength with
    | [], _ => exact ⟨nil, rfl⟩
    | [ty], _ => exact ⟨ty, rfl⟩

/-- Two pairs of fields that meet `state` twice, in either operand; three tuples
of which the last one brings it; and a `state` that meets nothing. -/
theorem violation_iff_stateMet_fields :
    (∃ position,
      StateMet [namedTuple [("t", state), ("u", sequence int)],
        namedTuple [("t", int), ("u", sequence state)]] position ∧
      (namedTuple [("t", state), ("u", sequence int)]).at? position = some state ∧
      (namedTuple [("t", int), ("u", sequence state)]).at? position = some int) ∧
    (∃ k position, 1 ≤ k ∧ k < 3 ∧
      StateMet ([tuple [int], tuple [bool], tuple [state]].take (k + 1)) position) ∧
    ∃ ty, (joinAll [state]).value = .ok ty := by
  have ha : (namedTuple [("t", state), ("u", sequence int)]).Canonical :=
    ⟨by decide, by simp [CanonicalFields, Canonical]⟩
  have hb : (namedTuple [("t", int), ("u", sequence state)]).Canonical :=
    ⟨by decide, by simp [CanonicalFields, Canonical]⟩
  have hlist : ∀ ty ∈ [tuple [int], tuple [bool], tuple [state]], ty.Canonical := by
    simp [Canonical, CanonicalEach]
  obtain ⟨hjoin, hjoinAll, hshort⟩ := violation_iff_stateMet
  refine ⟨?_, (hjoinAll _ hlist (by decide)).mp ⟨.stateJoined any state, rfl⟩,
    hshort [state] (by decide)⟩
  obtain ⟨position, left, right, hmet, -, hleft, hright, hviolation, -⟩ :=
    (hjoin _ _ ha hb).2 (.stateJoined state int) rfl
  cases hviolation
  exact ⟨position, hmet, hleft, hright⟩

/-! ## What comes out -/

/-- What a fold of joins ends in is free of `state`, unless nothing was joined. A
single join makes it so, whatever the fold started from. -/
theorem holdsState_of_foldlM_join {acc j : Ty} {tys : List Ty} (hne : tys ≠ [])
    (h : tys.foldlM join acc = .ok j) : j.holdsState = false := by
  induction tys generalizing acc with
  | nil => exact absurd rfl hne
  | cons ty rest ih =>
    obtain ⟨joined, hjoined, hrest⟩ := foldlM_join_cons_eq_ok_iff.mp h
    cases rest with
    | nil =>
      obtain rfl : joined = j := Except.ok.inj hrest
      exact holdsState_of_join hjoined
    | cons next more => exact ih (List.cons_ne_nil next more) hrest

/-- The join of a list holds `state` only if the list is a single type that does. -/
theorem eq_singleton_of_holdsState {tys : List Ty} {j : Ty} (h : (joinAll tys).value = .ok j)
    (hstate : j.holdsState = true) : tys = [j] := by
  cases tys with
  | nil =>
    obtain rfl : nil = j := Except.ok.inj h
    cases hstate
  | cons first rest =>
    rw [joinAll_cons_value] at h
    cases rest with
    | nil => exact congrArg (fun ty => [ty]) (Except.ok.inj h)
    | cons second rest =>
      have hfree := holdsState_of_foldlM_join (List.cons_ne_nil second rest) h
      rw [hfree] at hstate
      cases hstate

/-- **`state` does not come out of a join.** What two types are joined to holds none
at any depth, even if they do, and neither does what a list of two types or more is
joined to. -/
theorem join_free_of_state :
    (∀ a b j : Ty, a.join b = .ok j → j.holdsState = false) ∧
    ∀ (tys : List Ty) (j : Ty), 2 ≤ tys.length → (joinAll tys).value = .ok j →
      j.holdsState = false := by
  refine ⟨fun a b j h => holdsState_of_join h, fun tys j hlength h => ?_⟩
  refine Bool.eq_false_iff.mpr fun hstate => ?_
  rw [eq_singleton_of_holdsState h hstate, List.length_singleton] at hlength
  omega

/-- Operands that hold `state` where the other operand is no tuple: a pair of them,
and the three that a list begins with. -/
theorem join_free_of_state_tuples :
    ((tuple [tuple [state], nil]).join (tuple [int, id]) = .ok (tuple [any, id]) ∧
      (tuple [any, id]).holdsState = false) ∧
    (joinAll [sequence (tuple [state]), sequence int, sequence (tuple [int, state])]).value =
        .ok (sequence any) ∧
      (sequence any).holdsState = false := by
  have hpair : (tuple [tuple [state], nil]).join (tuple [int, id]) = .ok (tuple [any, id]) := rfl
  have hlist : (joinAll [sequence (tuple [state]), sequence int,
      sequence (tuple [int, state])]).value = .ok (sequence any) := rfl
  obtain ⟨hjoin, hjoinAll⟩ := join_free_of_state
  exact ⟨⟨hpair, hjoin _ _ _ hpair⟩, hlist, hjoinAll _ _ (by decide) hlist⟩

/-! ## `state` that goes unseen -/

/-- Two types part for the first time somewhere on the way to a position that is
not common to them. -/
theorem exists_parted_of_not_common {a b : Ty} {position : Position}
    (h : ¬ Common [a, b] position) :
    ∃ front hop back, position = front ++ hop :: back ∧ Common [a, b] front ∧
      ¬ ∃ shape, a.shapeAt? front = some shape ∧ b.shapeAt? front = some shape := by
  induction position using List.reverseRecOn with
  | nil => exact absurd (common_nil [a, b]) h
  | append_singleton position last ih =>
    by_cases hcommon : Common [a, b] position
    · refine ⟨position, last, [], rfl, hcommon, fun ⟨shape, ha, hb⟩ => h ?_⟩
      exact common_concat.mpr ⟨hcommon, shape, by simp [ha, hb]⟩
    · obtain ⟨front, hop, back, rfl, hfront, hparted⟩ := ih hcommon
      refine ⟨front, hop, back ++ [last], ?_, hfront, hparted⟩
      rw [List.append_assoc, List.cons_append]

/-- Where the operands of a join part, the join has `any`. -/
theorem at?_join_eq_any {a b j : Ty} {front : Position} (ha : a.Canonical) (hb : b.Canonical)
    (h : a.join b = .ok j) (hcommon : Common [a, b] front)
    (hparted : a.shapeAt? front ≠ b.shapeAt? front) : j.at? front = some any := by
  have hjoined := joinedAt_at? ha hb h hcommon
  simp only [shapeAt?] at hparted
  generalize a.at? front = x, b.at? front = y, j.at? front = z at hjoined hparted ⊢
  cases hjoined with
  | outside => exact absurd rfl hparted
  | inside hz =>
    obtain ⟨hxne, hyne⟩ := ne_state_of_join hz
    rw [join_of_shape?_ne hxne hyne hparted] at hz
    exact congrArg some (Except.ok.inj hz).symm

/-- **A `state` inside an operand goes unseen when the operands part above it.**
A join is refused exactly when the position of some `state` is common to its
operands. Otherwise each `state` of an operand lies below a place where the
operands part, and there the join has `any`. -/
theorem join_eq_error_or_absorbed {a b : Ty} (ha : a.Canonical) (hb : b.Canonical) :
    ((∃ violation, a.join b = .error violation) ↔
      ∃ position, (a.at? position = some state ∨ b.at? position = some state) ∧
        Common [a, b] position) ∧
    ∀ j, a.join b = .ok j → ∀ position,
      a.at? position = some state ∨ b.at? position = some state →
      ∃ front hop back, position = front ++ hop :: back ∧
        a.shapeAt? front ≠ b.shapeAt? front ∧ j.at? front = some any := by
  constructor
  · rw [join_eq_error_iff ha hb]
    simp only [stateMet_pair_iff, and_comm]
  · intro j h position hstate
    have hcommon : ¬ Common [a, b] position := fun hcommon =>
      not_stateMet_of_join ha hb h (stateMet_pair_iff.mpr ⟨hcommon, hstate⟩)
    obtain ⟨front, hop, back, rfl, hfront, hnone⟩ := exists_parted_of_not_common hcommon
    have hparted : a.shapeAt? front ≠ b.shapeAt? front := by
      intro heq
      rcases hstate with hstate | hstate
      · obtain ⟨shape, hshape⟩ := exists_shapeAt?_of_at? hstate
        exact hnone ⟨shape, hshape, heq ▸ hshape⟩
      · obtain ⟨shape, hshape⟩ := exists_shapeAt?_of_at? hstate
        exact hnone ⟨shape, heq ▸ hshape, hshape⟩
    exact ⟨front, hop, back, rfl, hparted, at?_join_eq_any ha hb h hfront hparted⟩

/-- A `state` in a tuple that meets `int`, which has nothing in its place. -/
theorem join_eq_error_or_absorbed_tuple :
    ∃ front hop back, [Hop.index 0] = front ++ hop :: back ∧
      (tuple [state]).shapeAt? front ≠ int.shapeAt? front ∧ any.at? front = some any :=
  (join_eq_error_or_absorbed (a := tuple [state]) (b := int)
    (by simp [Canonical, CanonicalEach]) trivial).2 any rfl [.index 0] (.inl rfl)

/-- A tuple that holds `state` has a join with `int`. -/
theorem held_state_not_rejected :
    ¬ ∀ a b : Ty, a.Canonical → b.Canonical → a.holdsState = true ∨ b.holdsState = true →
      ∃ violation, a.join b = .error violation := by
  intro h
  obtain ⟨violation, hviolation⟩ :=
    h (tuple [state]) int (by simp [Canonical, CanonicalEach]) trivial (.inl rfl)
  have hjoin : (tuple [state]).join int = .ok any := rfl
  rw [hjoin] at hviolation
  cases hviolation

end MachineTypes.Ty
