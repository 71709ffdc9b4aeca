import MachineTypes.Proofs.ListJoin
import MachineTypes.Ty.Canonical

/-!
# Canonical form, part by part

`Ty.Canonical` follows the constructors of types. Over shapes and parts it says
that no named tuple in the type has its names out of order, and that is the
form in which joins keep it: a join of compound types takes the shape of the
operands over as it is, and makes every part of it anew.

## Main results

* `canonical_iff_parts` — a type is canonical when its shape is in order and its
  parts are canonical.
* `canonical_of_join`, `canonical_of_foldlM_join` — joins of canonical types are
  canonical.
-/

namespace MachineTypes

/-- The names of a named tuple's shape ascend. -/
def Shape.Ascending : Shape → Prop
  | .namedTuple names => names.Pairwise (· < ·)
  | .tuple _ | .sequence => True

namespace Ty

/-- A type is canonical when its shape is in order and its parts are canonical. -/
theorem canonical_iff_parts {ty : Ty} :
    ty.Canonical ↔ (∀ shape, ty.shape? = some shape → shape.Ascending) ∧
      ∀ (i : Nat) (part : Ty), ty.parts[i]? = some part → part.Canonical := by
  have hparts : ty.Canonical ↔ (∀ shape, ty.shape? = some shape → shape.Ascending) ∧
      ∀ part ∈ ty.parts, part.Canonical := by
    cases ty with
    | namedTuple fields =>
      simp only [Canonical, shape?, Option.some.injEq, forall_eq', Shape.Ascending, parts,
        Fields.Ascending, canonicalFields_iff, List.forall_mem_map]
    | _ => simp [Canonical, shape?, Shape.Ascending, parts, canonicalEach_iff]
  rw [hparts]
  refine and_congr_right fun _ => ⟨fun h i part hpart => ?_, fun h part hmem => ?_⟩
  · exact h part (List.mem_of_getElem? hpart)
  · obtain ⟨i, hi⟩ := List.mem_iff_getElem?.mp hmem
    exact h i part hi

/-- A join of canonical types is canonical. -/
theorem canonical_of_join {a b j : Ty} (ha : a.Canonical) (hb : b.Canonical)
    (h : a.join b = .ok j) : j.Canonical := by
  induction a using parts_induction generalizing b j with
  | step a ih =>
    cases joinOutcome_of_join h with
    | left => exact ha
    | right => exact hb
    | top => trivial
    | parts has hbs hjs hjoins =>
      obtain ⟨hshape, haparts⟩ := canonical_iff_parts.mp ha
      obtain ⟨-, hbparts⟩ := canonical_iff_parts.mp hb
      refine canonical_iff_parts.mpr ⟨fun shape hjs' => ?_, fun i z hz => ?_⟩
      · exact hshape shape (has.trans (hjs.symm.trans hjs'))
      · obtain ⟨x, hx⟩ := exists_part_of_shape?_eq (hjs.trans has.symm) hz
        obtain ⟨y, hy⟩ := exists_part_of_shape?_eq (hjs.trans hbs.symm) hz
        exact ih i x hx (haparts i x hx) (hbparts i y hy) (hjoins i x y z hx hy hz)

/-- A fold of joins over canonical types ends in a canonical one. -/
theorem canonical_of_foldlM_join {acc j : Ty} {tys : List Ty} (hacc : acc.Canonical)
    (htys : ∀ ty ∈ tys, ty.Canonical) (h : tys.foldlM join acc = .ok j) : j.Canonical := by
  induction tys generalizing acc with
  | nil =>
    obtain rfl : acc = j := Except.ok.inj h
    exact hacc
  | cons ty rest ih =>
    obtain ⟨hty, hrest⟩ := List.forall_mem_cons.mp htys
    obtain ⟨joined, hjoined, hfold⟩ := foldlM_join_cons_eq_ok_iff.mp h
    exact ih (canonical_of_join hacc hty hjoined) hrest hfold

/-- The join of a list of canonical types is canonical. -/
theorem canonical_of_joinAll {tys : List Ty} {j : Ty} (htys : ∀ ty ∈ tys, ty.Canonical)
    (h : (joinAll tys).value = .ok j) : j.Canonical := by
  cases tys with
  | nil =>
    obtain rfl : nil = j := Except.ok.inj h
    trivial
  | cons first rest =>
    obtain ⟨hfirst, hrest⟩ := List.forall_mem_cons.mp htys
    rw [joinAll_cons_value] at h
    exact canonical_of_foldlM_join hfirst hrest h

end Ty

end MachineTypes
