import MachineTypes.Lattice.Subtype
import MachineTypes.Proofs.Shape

/-!
# The subtyping check decides the subtyping rules

`isSubtype` goes through two types once, from the outside inwards, and has no
step that looks for a type between the two. The rules of `Subtyping` allow such
a step. This module shows that it adds nothing: the check is transitive as it
stands, and so it accepts exactly the pairs that the rules derive.

Everything rests on two facts about a compound type below another type: the
other is `any` or has the same shape (`shape?_eq_of_isSubtype`), and in the
latter case the parts are related place by place (`isSubtype_iff_parts`).

## Main results

* `isSubtype_trans`, `beq_of_isSubtype` — subtyping is an order on types up to
  refinements.
* `subtyping_of_isSubtype`, `isSubtype_of_subtyping` — the check is sound and
  complete for the rules.
* `isSubtype_iff_subtyping` — the two together, with transitivity.
-/

namespace MachineTypes.Ty

/-! ## Equality of compound types -/

@[simp] theorem shape?_erase (ty : Ty) : ty.erase.shape? = ty.shape? := by
  cases ty <;> simp [erase, shape?, eraseEach_eq_map, eraseFields_eq_map, Fields.names]

@[simp] theorem parts_erase (ty : Ty) : ty.erase.parts = ty.parts.map erase := by
  cases ty <;> simp [erase, parts, eraseEach_eq_map, eraseFields_eq_map]

/-- Compound types of one shape are equal when their parts are. -/
theorem beq_iff_parts {a b : Ty} {shape : Shape} (ha : a.shape? = some shape)
    (hb : b.shape? = some shape) :
    (a == b) = true ↔ ∀ (i : Nat) (x y : Ty), a.parts[i]? = some x → b.parts[i]? = some y →
      (x == y) = true := by
  rw [beq_iff]
  constructor
  · intro h i x y hx hy
    have hparts : a.parts.map erase = b.parts.map erase := by
      rw [← parts_erase, ← parts_erase, h]
    have hi : (a.parts.map erase)[i]? = (b.parts.map erase)[i]? := by rw [hparts]
    rw [List.getElem?_map, List.getElem?_map, hx, hy] at hi
    exact beq_iff.mpr (Option.some.inj hi)
  · intro h
    refine eq_of_parts ((shape?_erase a).trans ha) ((shape?_erase b).trans hb) ?_
    intro i u v hu hv
    rw [parts_erase, List.getElem?_map, Option.map_eq_some_iff] at hu hv
    obtain ⟨x, hx, rfl⟩ := hu
    obtain ⟨y, hy, rfl⟩ := hv
    exact beq_iff.mp (h i x y hx hy)

/-! ## The check at the parts -/

private theorem isSubtypeEach_iff_getElem? {as bs : List Ty} :
    isSubtypeEach as bs = true ↔ as.length = bs.length ∧
      ∀ (i : Nat) (x y : Ty), as[i]? = some x → bs[i]? = some y → x.isSubtype y = true := by
  induction as generalizing bs with
  | nil => cases bs <;> simp [isSubtypeEach]
  | cons a as ih =>
    cases bs with
    | nil => simp [isSubtypeEach]
    | cons b bs =>
      rw [forall_getElem?_cons, isSubtypeEach, Bool.and_eq_true, ih]
      simp only [List.length_cons, Nat.add_right_cancel_iff]
      exact and_left_comm

private theorem isSubtypeFields_iff_isSubtypeEach {as bs : List Field} :
    isSubtypeFields as bs = true ↔ Fields.names as = Fields.names bs ∧
      isSubtypeEach (as.map Prod.snd) (bs.map Prod.snd) = true := by
  induction as generalizing bs with
  | nil => cases bs <;> simp [isSubtypeFields, isSubtypeEach]
  | cons a as ih =>
    cases bs with
    | nil => simp [isSubtypeFields]
    | cons b bs =>
      simp only [isSubtypeFields, isSubtypeEach, List.map_cons, Fields.names_cons,
        List.cons.injEq, Bool.and_eq_true, beq_iff_eq, ih]
      exact and_and_and_comm

/-- Between compound types of one shape the check asks the parts. -/
theorem isSubtype_iff_parts {a b : Ty} {shape : Shape} (ha : a.shape? = some shape)
    (hb : b.shape? = some shape) :
    a.isSubtype b = true ↔ ∀ (i : Nat) (x y : Ty), a.parts[i]? = some x →
      b.parts[i]? = some y → x.isSubtype y = true := by
  have hlength := length_parts_of_shape?_eq (ha.trans hb.symm)
  cases oneShape_of_shape? ha hb with
  | tuple =>
    rw [isSubtype, isSubtypeEach_iff_getElem?]
    exact and_iff_right hlength
  | namedTuple hnames =>
    rw [isSubtype, isSubtypeFields_iff_isSubtypeEach, isSubtypeEach_iff_getElem?]
    exact (and_iff_right hnames).trans (and_iff_right hlength)
  | sequence a b =>
    rw [parts, parts, forall_getElem?_cons, isSubtype]
    exact (and_iff_left (by simp)).symm

/-- A type is below types of its own shape only, apart from `any`. In
particular a type without a shape is below none that has one. -/
theorem shape?_eq_of_isSubtype {a b : Ty} (h : a.isSubtype b = true) (hb : b ≠ any) :
    b.shape? = a.shape? := by
  cases a <;> cases b <;> simp [isSubtype, shape?] at h hb ⊢
  case tuple.tuple as bs => exact (isSubtypeEach_iff_getElem?.mp h).1.symm
  case namedTuple.namedTuple as bs => exact (isSubtypeFields_iff_isSubtypeEach.mp h).1.symm

/-! ## Subtyping is an order up to refinements -/

/-- Between types without parts there is no way around a third type. -/
private theorem isSubtype_trans_of_scalar {a b c : Ty} (ha : a.shape? = none)
    (hab : a.isSubtype b = true) (hbc : b.isSubtype c = true) : a.isSubtype c = true := by
  by_cases hb : b = any
  · subst hb
    obtain rfl : c = any := any_isSubtype_iff.mp hbc
    exact hab
  · have hbs : b.shape? = none := (shape?_eq_of_isSubtype hab hb).trans ha
    cases a <;> cases b <;> simp [isSubtype, shape?] at ha hbs hab hb <;>
      cases c <;> simp [isSubtype] at hbc ⊢

/-- The check is transitive although no step of it is. -/
theorem isSubtype_trans {a b c : Ty} (hab : a.isSubtype b = true)
    (hbc : b.isSubtype c = true) : a.isSubtype c = true := by
  induction a using shape_induction generalizing b c with
  | scalar a ha => exact isSubtype_trans_of_scalar ha hab hbc
  | compound a shape ha ih =>
    by_cases hc : c = any
    · subst hc
      exact isSubtype_any_iff.mpr (ne_of_shape? ha rfl)
    · have hb : b ≠ any := fun h => hc (any_isSubtype_iff.mp (h ▸ hbc))
      have hbs : b.shape? = some shape := (shape?_eq_of_isSubtype hab hb).trans ha
      have hcs : c.shape? = some shape := (shape?_eq_of_isSubtype hbc hc).trans hbs
      rw [isSubtype_iff_parts ha hbs] at hab
      rw [isSubtype_iff_parts hbs hcs] at hbc
      rw [isSubtype_iff_parts ha hcs]
      intro i x z hx hz
      obtain ⟨y, hy⟩ := exists_part_of_shape?_eq (ha.trans hbs.symm) hx
      exact ih i x hx (hab i x y hx hy) (hbc i y z hy hz)

/-- Types that are subtypes of each other are equal up to refinements. -/
theorem beq_of_isSubtype {a b : Ty} (hab : a.isSubtype b = true)
    (hba : b.isSubtype a = true) : (a == b) = true := by
  induction a using shape_induction generalizing b with
  | scalar a ha =>
    cases a <;> cases b <;> simp [isSubtype, shape?] at ha hab hba <;> rfl
  | compound a shape ha ih =>
    have hb : b ≠ any := fun h => ne_of_shape? ha rfl (any_isSubtype_iff.mp (h ▸ hba))
    have hbs : b.shape? = some shape := (shape?_eq_of_isSubtype hab hb).trans ha
    rw [isSubtype_iff_parts ha hbs] at hab
    rw [isSubtype_iff_parts hbs ha] at hba
    rw [beq_iff_parts ha hbs]
    intro i x y hx hy
    exact ih i x hx (hab i x y hx hy) (hba i y x hy hx)

/-! ## The check against the rules -/

/-- The three rules for compounds, as one. -/
theorem Subtyping.of_parts {a b : Ty} {shape : Shape} (ha : a.shape? = some shape)
    (hb : b.shape? = some shape)
    (h : ∀ (i : Nat) (x y : Ty), a.parts[i]? = some x → b.parts[i]? = some y →
      Subtyping x y) : Subtyping a b := by
  cases oneShape_of_shape? ha hb with
  | tuple hlength => exact .tuple hlength h
  | namedTuple hnames =>
    refine .namedTuple hnames fun i x y hx hy => h i x.2 y.2 ?_ ?_
    · simp only [parts, List.getElem?_map, hx, Option.map_some]
    · simp only [parts, List.getElem?_map, hy, Option.map_some]
  | sequence a b => exact .sequence (h 0 a b rfl rfl)

/-- What the check accepts the rules derive. -/
theorem subtyping_of_isSubtype {a b : Ty} (h : a.isSubtype b = true) : Subtyping a b := by
  induction a using shape_induction generalizing b with
  | scalar a ha =>
    by_cases hb : b = any
    · subst hb
      exact .top (isSubtype_any_iff.mp h)
    · -- What is left are equal types and `nil` below its two defaults.
      cases a <;> cases b <;> simp [isSubtype, shape?] at ha h hb <;>
        first
        | exact .nilId
        | exact .nilEvent _
        | exact .equal rfl
  | compound a shape ha ih =>
    by_cases hb : b = any
    · subst hb
      exact .top (isSubtype_any_iff.mp h)
    · have hbs : b.shape? = some shape := (shape?_eq_of_isSubtype h hb).trans ha
      rw [isSubtype_iff_parts ha hbs] at h
      exact .of_parts ha hbs fun i x y hx hy => ih i x hx (h i x y hx hy)

/-- What the rules derive the check accepts: each rule holds of the check,
and the one that looks for a type in between is `isSubtype_trans`. -/
theorem isSubtype_of_subtyping {a b : Ty} (h : Subtyping a b) : a.isSubtype b = true := by
  induction h with
  | equal h => exact isSubtype_of_beq h
  | top h => exact isSubtype_any_iff.mpr h
  | nilId => rfl
  | nilEvent refinement => rfl
  | @tuple as bs hlength _ ih =>
    have hshape : (tuple as).shape? = some (.tuple bs.length) := by rw [shape?, hlength]
    exact (isSubtype_iff_parts hshape rfl).mpr ih
  | @namedTuple as bs hnames _ ih =>
    have hshape : (namedTuple as).shape? = some (.namedTuple (Fields.names bs)) := by
      rw [shape?, hnames]
    refine (isSubtype_iff_parts hshape rfl).mpr fun i x y hx hy => ?_
    simp only [parts, List.getElem?_map, Option.map_eq_some_iff] at hx hy
    obtain ⟨field, hfield, rfl⟩ := hx
    obtain ⟨other, hother, rfl⟩ := hy
    exact ih i field other hfield hother
  | @sequence a b _ ih =>
    rw [isSubtype]
    exact ih
  | trans _ _ ihab ihbc => exact isSubtype_trans ihab ihbc

/-- **The check decides the rules**, and is transitive without a rule for it. -/
theorem isSubtype_iff_subtyping :
    (∀ a b : Ty, a.isSubtype b = true ↔ Subtyping a b) ∧
      ∀ a b c : Ty, a.isSubtype b = true → b.isSubtype c = true → a.isSubtype c = true :=
  ⟨fun _ _ => ⟨subtyping_of_isSubtype, isSubtype_of_subtyping⟩,
    fun _ _ _ => isSubtype_trans⟩

/-- A chain whose steps use different rules at different depths. -/
theorem isSubtype_iff_subtyping_chain :
    (namedTuple [("x", nil), ("y", sequence (tuple [state]))]).isSubtype
        (namedTuple [("x", event (some "e")), ("y", sequence any)]) = true ∧
      (namedTuple [("x", event (some "e")), ("y", sequence any)]).isSubtype
        (namedTuple [("x", event none), ("y", any)]) = true ∧
      (namedTuple [("x", nil), ("y", sequence (tuple [state]))]).isSubtype
        (namedTuple [("x", event none), ("y", any)]) = true := by
  have hfirst : (namedTuple [("x", nil), ("y", sequence (tuple [state]))]).isSubtype
      (namedTuple [("x", event (some "e")), ("y", sequence any)]) = true := rfl
  have hsecond : (namedTuple [("x", event (some "e")), ("y", sequence any)]).isSubtype
      (namedTuple [("x", event none), ("y", any)]) = true := rfl
  exact ⟨hfirst, hsecond, isSubtype_iff_subtyping.2 _ _ _ hfirst hsecond⟩

end MachineTypes.Ty
