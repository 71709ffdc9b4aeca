import MachineTypes.Lattice.Join
import MachineTypes.Proofs.Outcome
import MachineTypes.Proofs.Subtyping

/-!
# Join is the least upper bound

`join` and `isSubtype` are written apart from each other. This module says
what a join can end in, in terms of the order (`JoinOutcome`), and derives that
a join which ends in a type at all ends in the least one above both operands.

There are three regimes, and each has one lemma:

* both operands have a shape and it is the same: the join is made of the joins
  of the parts (`join_eq_joinEach`, `join_eq_ok_iff_parts`);
* neither has a shape: the greater operand if there is one, else `any`
  (`join_of_scalar`);
* the shapes differ: `any`, and nothing else is above both
  (`join_of_shape?_ne`, `eq_any_of_shape?_ne`).

## Main results

* `joinOutcome_of_join` — the four ways in which a join ends in a type.
* `exists_join_iff` — when it ends in one at all.
* `isSubtype_join`, `join_isSubtype` — the result is above both operands, and
  below all that is.
* `exists_join`, `holdsState_of_join` — operands without `state` have a join,
  and no join holds `state`.
-/

namespace MachineTypes

namespace Ty

/-! ## Joining lists place by place -/

theorem joinEach_cons_eq_ok_iff {a b : Ty} {as bs js : List Ty} :
    joinEach (a :: as) (b :: bs) = .ok js ↔
      ∃ head tail, a.join b = .ok head ∧ joinEach as bs = .ok tail ∧ js = head :: tail := by
  simp only [joinEach, bind_eq_ok_iff, pure, Except.pure, Except.ok.injEq]
  constructor
  · rintro ⟨head, hhead, tail, htail, rfl⟩
    exact ⟨head, tail, hhead, htail, rfl⟩
  · rintro ⟨head, tail, hhead, htail, rfl⟩
    exact ⟨head, hhead, tail, htail, rfl⟩

/-- A join of two lists is a list of joins. -/
theorem joinEach_eq_ok_iff {as bs js : List Ty} (hlength : as.length = bs.length) :
    joinEach as bs = .ok js ↔ js.length = as.length ∧
      ∀ (i : Nat) (x y z : Ty), as[i]? = some x → bs[i]? = some y → js[i]? = some z →
        x.join y = .ok z := by
  induction as generalizing bs js with
  | nil => cases js <;> simp [joinEach]
  | cons a as ih =>
    obtain ⟨b, bs, rfl⟩ := List.exists_cons_of_length_eq_add_one hlength.symm
    have hrest : as.length = bs.length := Nat.succ.inj hlength
    rw [joinEach_cons_eq_ok_iff]
    constructor
    · rintro ⟨head, tail, hhead, htail, rfl⟩
      obtain ⟨htailLength, htailJoins⟩ := (ih hrest).mp htail
      refine ⟨congrArg (· + 1) htailLength, fun i x y z hx hy hz => ?_⟩
      cases i with
      | zero =>
        obtain rfl : a = x := Option.some.inj hx
        obtain rfl : b = y := Option.some.inj hy
        obtain rfl : head = z := Option.some.inj hz
        exact hhead
      | succ i => exact htailJoins i x y z hx hy hz
    · rintro ⟨hjs, hjoins⟩
      obtain ⟨head, tail, rfl⟩ := List.exists_cons_of_length_eq_add_one hjs
      refine ⟨head, tail, hjoins 0 a b head rfl rfl rfl, ?_, rfl⟩
      refine (ih hrest).mpr ⟨Nat.succ.inj hjs, fun i x y z hx hy hz => ?_⟩
      exact hjoins (i + 1) x y z hx hy hz

/-- Lists have a join when they have one in every place. -/
theorem exists_joinEach {as bs : List Ty}
    (h : ∀ (i : Nat) (x y : Ty), as[i]? = some x → bs[i]? = some y → ∃ z, x.join y = .ok z) :
    ∃ js, joinEach as bs = .ok js := by
  induction as generalizing bs with
  | nil => exact ⟨[], by simp [joinEach]⟩
  | cons a as ih =>
    cases bs with
    | nil => exact ⟨[], by simp [joinEach]⟩
    | cons b bs =>
      obtain ⟨⟨head, hhead⟩, hrest⟩ := forall_getElem?_cons.mp h
      obtain ⟨tail, htail⟩ := ih hrest
      exact ⟨head :: tail, joinEach_cons_eq_ok_iff.mpr ⟨head, tail, hhead, htail, rfl⟩⟩

private theorem joinFields_eq_joinEach {as bs : List Field}
    (h : Fields.names as = Fields.names bs) :
    joinFields as bs =
      (joinEach (as.map Prod.snd) (bs.map Prod.snd)).map ((Fields.names as).zip ·) := by
  induction as generalizing bs with
  | nil => simp [joinFields, joinEach, Except.map]
  | cons field as ih =>
    obtain ⟨name, a⟩ := field
    cases bs with
    | nil => simp at h
    | cons other bs =>
      simp only [Fields.names_cons, List.cons.injEq] at h
      simp only [joinFields, joinEach, List.map_cons, Fields.names_cons, ih h.2]
      cases a.join other.2 with
      | error violation => rfl
      | ok head => cases joinEach (as.map Prod.snd) (bs.map Prod.snd) <;> rfl

/-! ## Operands of one shape -/

/-- Compound types of one shape are joined part by part. -/
theorem join_eq_joinEach {a b : Ty} {shape : Shape} (ha : a.shape? = some shape)
    (hb : b.shape? = some shape) :
    a.join b = (joinEach a.parts b.parts).map a.withParts := by
  cases oneShape_of_shape? ha hb with
  | tuple hlength =>
    rw [join, if_pos hlength]
    rfl
  | @namedTuple as bs hnames =>
    rw [join, if_pos hnames, joinFields_eq_joinEach hnames]
    simp only [parts]
    cases joinEach (as.map Prod.snd) (bs.map Prod.snd) <;> rfl
  | sequence a b =>
    simp only [join, parts, joinEach]
    cases a.join b <;> rfl

/-- The join of compound types of one shape has that shape, and its parts are
the joins of their parts. -/
theorem join_eq_ok_iff_parts {a b j : Ty} {shape : Shape} (ha : a.shape? = some shape)
    (hb : b.shape? = some shape) :
    a.join b = .ok j ↔ j.shape? = some shape ∧
      ∀ (i : Nat) (x y z : Ty), a.parts[i]? = some x → b.parts[i]? = some y →
        j.parts[i]? = some z → x.join y = .ok z := by
  have hlength : a.parts.length = b.parts.length := length_parts_of_shape?_eq (ha.trans hb.symm)
  rw [join_eq_joinEach ha hb]
  constructor
  · intro h
    obtain ⟨js, hjs⟩ : ∃ js, joinEach a.parts b.parts = .ok js := by
      cases hjoin : joinEach a.parts b.parts with
      | error violation => simp [hjoin, Except.map] at h
      | ok js => exact ⟨js, rfl⟩
    obtain rfl : a.withParts js = j := by simpa [hjs, Except.map] using h
    obtain ⟨hjsLength, hjoins⟩ := (joinEach_eq_ok_iff hlength).mp hjs
    rw [shape?_withParts hjsLength, parts_withParts hjsLength]
    exact ⟨ha, hjoins⟩
  · rintro ⟨hj, hjoins⟩
    have hjLength : j.parts.length = a.parts.length :=
      length_parts_of_shape?_eq (hj.trans ha.symm)
    have hparts := parts_withParts hjLength
    have heq : a.withParts j.parts = j := by
      refine eq_of_parts ((shape?_withParts hjLength).trans ha) hj fun i x y hx hy => ?_
      rw [hparts] at hx
      exact Option.some.inj (hx.symm.trans hy)
    rw [(joinEach_eq_ok_iff hlength).mpr ⟨hjLength, hjoins⟩, Except.map, heq]

example : (tuple [nil, int]).join (tuple [event (some "e"), bool]) =
    .ok (tuple [event (some "e"), any]) := rfl

/-! ## Operands without a common shape -/

/-- Operands of different shapes meet in `any`. -/
theorem join_of_shape?_ne {a b : Ty} (ha : a ≠ state) (hb : b ≠ state)
    (h : a.shape? ≠ b.shape?) : a.join b = .ok any := by
  cases a <;> cases b <;> simp_all [join, shape?]

example : (tuple [state]).join int = .ok any := rfl

/-- Of types of different shapes nothing but `any` is a common supertype. -/
theorem eq_any_of_shape?_ne {a b c : Ty} (h : a.shape? ≠ b.shape?)
    (ha : a.isSubtype c = true) (hb : b.isSubtype c = true) : c = any := by
  by_cases hc : c = any
  · exact hc
  · exact absurd ((shape?_eq_of_isSubtype ha hc).symm.trans (shape?_eq_of_isSubtype hb hc)) h

/-- Operands without parts are joined by comparing them. -/
theorem join_of_scalar {a b : Ty} (ha : a.shape? = none) (hb : b.shape? = none)
    (hane : a ≠ state) (hbne : b ≠ state) :
    a.join b = .ok (if b.isSubtype a then a else if a.isSubtype b then b else any) := by
  cases a <;> cases b <;> simp_all [join, shape?, isSubtype]

/-- Types without parts that have a common supertype besides `any` can be
compared. -/
theorem eq_any_of_scalar {a b c : Ty} (ha : a.shape? = none)
    (hab : a.isSubtype b = false) (hba : b.isSubtype a = false)
    (hac : a.isSubtype c = true) (hbc : b.isSubtype c = true) : c = any := by
  by_cases hc : c = any
  · exact hc
  · have hcs : c.shape? = none := (shape?_eq_of_isSubtype hac hc).trans ha
    cases a <;> cases c <;> simp [isSubtype, shape?] at ha hcs hac hc <;>
      cases b <;> simp [isSubtype] at hab hba hbc

/-! ## What a join can end in -/

theorem ne_state_of_join {a b j : Ty} (h : a.join b = .ok j) : a ≠ state ∧ b ≠ state := by
  constructor
  · rintro rfl
    simp at h
  · rintro rfl
    simp at h

/-- The ways in which a join ends in a type. -/
inductive JoinOutcome (a b : Ty) : Ty → Prop where
  /-- The left operand is above the right one and has no parts. -/
  | left (ha : a.shape? = none) (h : b.isSubtype a = true) : JoinOutcome a b a
  /-- The right operand is strictly above the left one and has no parts. -/
  | right (hb : b.shape? = none) (h : a.isSubtype b = true) (hstrict : b.isSubtype a = false) :
      JoinOutcome a b b
  /-- The operands have one shape, and the parts were joined. -/
  | parts {shape : Shape} {j : Ty} (ha : a.shape? = some shape) (hb : b.shape? = some shape)
      (hj : j.shape? = some shape)
      (h : ∀ (i : Nat) (x y z : Ty), a.parts[i]? = some x → b.parts[i]? = some y →
        j.parts[i]? = some z → x.join y = .ok z) : JoinOutcome a b j
  /-- Nothing but `any` is above both operands. -/
  | top (h : ∀ c : Ty, a.isSubtype c = true → b.isSubtype c = true → c = any) :
      JoinOutcome a b any

/-- A join that ends in a type ends in one of these ways. -/
theorem joinOutcome_of_join {a b j : Ty} (h : a.join b = .ok j) : JoinOutcome a b j := by
  obtain ⟨hane, hbne⟩ := ne_state_of_join h
  by_cases hshape : a.shape? = b.shape?
  · cases ha : a.shape? with
    | none =>
      have hb : b.shape? = none := hshape.symm.trans ha
      rw [join_of_scalar ha hb hane hbne] at h
      by_cases hba : b.isSubtype a = true
      · rw [if_pos hba] at h
        exact Except.ok.inj h ▸ .left ha hba
      · rw [if_neg hba] at h
        by_cases hab : a.isSubtype b = true
        · rw [if_pos hab] at h
          exact Except.ok.inj h ▸ .right hb hab (Bool.eq_false_iff.mpr hba)
        · rw [if_neg hab] at h
          refine Except.ok.inj h ▸ .top fun c hac hbc => ?_
          exact eq_any_of_scalar ha (Bool.eq_false_iff.mpr hab) (Bool.eq_false_iff.mpr hba) hac hbc
    | some shape =>
      have hb : b.shape? = some shape := hshape.symm.trans ha
      obtain ⟨hj, hjoins⟩ := (join_eq_ok_iff_parts ha hb).mp h
      exact .parts ha hb hj hjoins
  · rw [join_of_shape?_ne hane hbne hshape] at h
    exact Except.ok.inj h ▸ .top fun c => eq_any_of_shape?_ne hshape

/-! ## When a join ends in a type -/

/-- Two types have a join when neither is `state` and, if they have one shape,
their parts have joins place by place. -/
theorem exists_join_iff {a b : Ty} :
    (∃ j, a.join b = .ok j) ↔ a ≠ state ∧ b ≠ state ∧
      ∀ shape, a.shape? = some shape → b.shape? = some shape →
        ∀ (i : Nat) (x y : Ty), a.parts[i]? = some x → b.parts[i]? = some y →
          ∃ z, x.join y = .ok z := by
  constructor
  · rintro ⟨j, hj⟩
    obtain ⟨hane, hbne⟩ := ne_state_of_join hj
    refine ⟨hane, hbne, fun shape ha hb i x y hx hy => ?_⟩
    obtain ⟨hjs, hjoins⟩ := (join_eq_ok_iff_parts ha hb).mp hj
    obtain ⟨z, hz⟩ := exists_part_of_shape?_eq (ha.trans hjs.symm) hx
    exact ⟨z, hjoins i x y z hx hy hz⟩
  · rintro ⟨hane, hbne, hparts⟩
    by_cases hshape : a.shape? = b.shape?
    · cases ha : a.shape? with
      | none => exact ⟨_, join_of_scalar ha (hshape.symm.trans ha) hane hbne⟩
      | some shape =>
        have hb : b.shape? = some shape := hshape.symm.trans ha
        obtain ⟨js, hjs⟩ : ∃ js, joinEach a.parts b.parts = .ok js :=
          exists_joinEach (hparts shape ha hb)
        refine ⟨a.withParts js, ?_⟩
        rw [join_eq_joinEach ha hb, hjs, Except.map]
    · exact ⟨any, join_of_shape?_ne hane hbne hshape⟩

/-! ## The least upper bound -/

/-- A join is above both operands. -/
theorem isSubtype_join {a b j : Ty} (h : a.join b = .ok j) :
    a.isSubtype j = true ∧ b.isSubtype j = true := by
  induction a using parts_induction generalizing b j with
  | step a ih =>
    obtain ⟨hane, hbne⟩ := ne_state_of_join h
    cases joinOutcome_of_join h with
    | left _ hba => exact ⟨isSubtype_refl _, hba⟩
    | right _ hab _ => exact ⟨hab, isSubtype_refl _⟩
    | top => exact ⟨isSubtype_any_iff.mpr hane, isSubtype_any_iff.mpr hbne⟩
    | parts ha hb hj hjoins =>
      rw [isSubtype_iff_parts ha hj, isSubtype_iff_parts hb hj]
      constructor
      · intro i x z hx hz
        obtain ⟨y, hy⟩ := exists_part_of_shape?_eq (ha.trans hb.symm) hx
        exact (ih i x hx (hjoins i x y z hx hy hz)).1
      · intro i y z hy hz
        obtain ⟨x, hx⟩ := exists_part_of_shape?_eq (hb.trans ha.symm) hy
        exact (ih i x hx (hjoins i x y z hx hy hz)).2

/-- A join is below all that is above both operands. -/
theorem join_isSubtype {a b j c : Ty} (h : a.join b = .ok j) (hac : a.isSubtype c = true)
    (hbc : b.isSubtype c = true) : j.isSubtype c = true := by
  induction a using parts_induction generalizing b j c with
  | step a ih =>
    cases joinOutcome_of_join h with
    | left => exact hac
    | right => exact hbc
    | top htop => exact htop c hac hbc ▸ isSubtype_refl any
    | parts ha hb hj hjoins =>
      by_cases hc : c = any
      · subst hc
        exact isSubtype_any_iff.mpr (ne_of_shape? hj rfl)
      · have hcs := (shape?_eq_of_isSubtype hac hc).trans ha
        rw [isSubtype_iff_parts ha hcs] at hac
        rw [isSubtype_iff_parts hb hcs] at hbc
        rw [isSubtype_iff_parts hj hcs]
        intro i z w hz hw
        obtain ⟨x, hx⟩ := exists_part_of_shape?_eq (hj.trans ha.symm) hz
        obtain ⟨y, hy⟩ := exists_part_of_shape?_eq (hj.trans hb.symm) hz
        exact ih i x hx (hjoins i x y z hx hy hz) (hac i x w hx hw) (hbc i y w hy hw)

/-- **Join is the least upper bound** of its operands, whenever it ends in a
type. -/
theorem join_eq_leastUpperBound {a b j : Ty} (h : a.join b = .ok j) :
    a.isSubtype j = true ∧ b.isSubtype j = true ∧
      ∀ c : Ty, a.isSubtype c = true → b.isSubtype c = true → j.isSubtype c = true :=
  ⟨(isSubtype_join h).1, (isSubtype_join h).2, fun _ => join_isSubtype h⟩

/-- Two pairs whose first components are ordered and whose second ones differ
in shape, with `state` inside one of them. -/
theorem join_eq_leastUpperBound_pair :
    (tuple [nil, sequence (tuple [state])]).join (tuple [event (some "e"), sequence int]) =
        .ok (tuple [event (some "e"), sequence any]) ∧
      (tuple [event (some "e"), sequence any]).isSubtype (tuple [event none, any]) = true := by
  have h : (tuple [nil, sequence (tuple [state])]).join (tuple [event (some "e"), sequence int]) =
      .ok (tuple [event (some "e"), sequence any]) := rfl
  exact ⟨h, (join_eq_leastUpperBound h).2.2 _ rfl rfl⟩

/-! ## Operands without `state` -/

/-- A type is free of `state` when it is another type and its parts are free
of it. -/
theorem holdsState_eq_false_iff {ty : Ty} :
    ty.holdsState = false ↔ ty ≠ state ∧
      ∀ (i : Nat) (part : Ty), ty.parts[i]? = some part → part.holdsState = false := by
  have hparts : ty.holdsState = (ty.isState || ty.parts.any holdsState) := by
    cases ty <;> simp [holdsState, isState, parts, holdsStateEach_eq_any,
      holdsStateFields_eq_any, List.any_map, Function.comp_def]
  rw [hparts, Bool.or_eq_false_iff, List.any_eq_false]
  refine and_congr ?_ ⟨fun h i part hpart => ?_, fun h part hmem => ?_⟩
  · rw [← Bool.not_eq_true, isState_iff]
  · exact Bool.eq_false_iff.mpr (h part (List.mem_of_getElem? hpart))
  · obtain ⟨i, hi⟩ := List.mem_iff_getElem?.mp hmem
    exact Bool.eq_false_iff.mp (h i part hi)

/-- Types that are free of `state` have a join. -/
theorem exists_join {a b : Ty} (ha : a.holdsState = false) (hb : b.holdsState = false) :
    ∃ j, a.join b = .ok j := by
  induction a using parts_induction generalizing b with
  | step a ih =>
    obtain ⟨hane, haparts⟩ := holdsState_eq_false_iff.mp ha
    obtain ⟨hbne, hbparts⟩ := holdsState_eq_false_iff.mp hb
    refine exists_join_iff.mpr ⟨hane, hbne, fun shape _ _ i x y hx hy => ?_⟩
    exact ih i x hx (haparts i x hx) (hbparts i y hy)

/-- What a join ends in is free of `state`, whatever the operands hold. -/
theorem holdsState_of_join {a b j : Ty} (h : a.join b = .ok j) : j.holdsState = false := by
  induction a using parts_induction generalizing b j with
  | step a ih =>
    obtain ⟨hane, hbne⟩ := ne_state_of_join h
    cases joinOutcome_of_join h with
    | left ha _ =>
      cases a <;> simp [holdsState, shape?] at ha hane ⊢
    | right hb _ _ =>
      cases b <;> simp [holdsState, shape?] at hb hbne ⊢
    | top => rfl
    | parts ha hb hj hjoins =>
      refine holdsState_eq_false_iff.mpr ⟨ne_of_shape? hj rfl, fun i z hz => ?_⟩
      obtain ⟨x, hx⟩ := exists_part_of_shape?_eq (hj.trans ha.symm) hz
      obtain ⟨y, hy⟩ := exists_part_of_shape?_eq (hj.trans hb.symm) hz
      exact ih i x hx (hjoins i x y z hx hy hz)

end Ty

end MachineTypes
