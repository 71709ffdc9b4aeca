import MachineTypes.Proofs.Associativity
import MachineTypes.Proofs.CanonicalForm
import MachineTypes.Ty.Position
import Mathlib.Data.List.Induction

/-!
# Common positions

A position is common to some types when it does not part them: at every type
that it passes on its way in, all of them are compounds of one shape. Where it
leads, they may differ. These are the positions at which a join looks, since it
goes on to the components only where the operands have one shape.

Positions stand in the order in which a walk through a type meets them, from
the outside inwards and from left to right. Fields are met in the order of
their names, which in a canonical type is the order in which they stand.

## Main results

* `part?_eq_some_iff` — a hop leads to the part in its place.
* `common_cons`, `common_concat` — common positions, taken apart at either end.
* `joinedAt_at?` — what a join has at a common position is the join of what the
  operands have there.
* `common_join_iff` — what is common to a join and other types is common to
  the operands and these types.
-/

namespace MachineTypes

/-! ## The order of positions -/

/-- Of two hops from one compound type, the one that leads further left. -/
def Hop.Before : Hop → Hop → Prop
  | .index i, .index j => i < j
  | .name m, .name n => m < n
  | _, _ => False

instance : LT Hop := ⟨Hop.Before⟩

/-- The hops to the parts of a compound type, in the order of the parts. -/
def Shape.hops : Shape → List Hop
  | .tuple length => (List.range length).map .index
  | .namedTuple names => names.map .name
  | .sequence => [.inner]

private theorem Shape.pairwise_hops {shape : Shape} (h : shape.Ascending) :
    shape.hops.Pairwise (· < ·) := by
  cases shape with
  | tuple length => exact List.pairwise_map.mpr List.pairwise_lt_range
  | namedTuple names => exact List.pairwise_map.mpr h
  | sequence => exact List.pairwise_singleton _ _

/-- The hops to the parts of a canonical type are in order. -/
theorem Shape.hop_lt_of_lt {shape : Shape} {i k : Nat} {first second : Hop}
    (h : shape.Ascending) (hik : i < k) (hfirst : shape.hops[i]? = some first)
    (hsecond : shape.hops[k]? = some second) : first < second := by
  obtain ⟨hi, rfl⟩ := List.getElem?_eq_some_iff.mp hfirst
  obtain ⟨hk, rfl⟩ := List.getElem?_eq_some_iff.mp hsecond
  exact List.pairwise_iff_getElem.mp (Shape.pairwise_hops h) i k hi hk hik

namespace Ty

/-! ## Hops and parts -/

private theorem length_hops {ty : Ty} {shape : Shape} (h : ty.shape? = some shape) :
    shape.hops.length = ty.parts.length := by
  cases ty <;> simp only [shape?, Option.some.injEq, reduceCtorEq] at h <;> subst h <;>
    simp [Shape.hops, parts]

/-- Each hop has its part. -/
theorem exists_part_of_hop {ty : Ty} {shape : Shape} {i : Nat} {hop : Hop}
    (h : ty.shape? = some shape) (hhop : shape.hops[i]? = some hop) :
    ∃ part, ty.parts[i]? = some part :=
  exists_getElem?_of_length_eq (length_hops h) hhop

/-- Each part has its hop. -/
theorem exists_hop_of_part {ty part : Ty} {shape : Shape} {i : Nat}
    (h : ty.shape? = some shape) (hpart : ty.parts[i]? = some part) :
    ∃ hop, shape.hops[i]? = some hop :=
  exists_getElem?_of_length_eq (length_hops h).symm hpart

/-- A hop leads to the part in its place. -/
theorem part?_eq_some_iff {ty part : Ty} {shape : Shape} {hop : Hop} (hcanon : ty.Canonical)
    (h : ty.shape? = some shape) :
    ty.part? hop = some part ↔
      ∃ i : Nat, shape.hops[i]? = some hop ∧ ty.parts[i]? = some part := by
  cases ty with
  | tuple elements =>
    obtain rfl : Shape.tuple elements.length = shape := Option.some.inj h
    cases hop with
    | index index =>
      have hindex : ∀ i : Nat, (Shape.tuple elements.length).hops[i]? = some (.index index) ↔
          i < elements.length ∧ i = index := by
        simp [Shape.hops, List.getElem?_eq_some_iff]
      simp only [part?, parts, hindex]
      constructor
      · intro hpart
        exact ⟨index, ⟨(List.getElem?_eq_some_iff.mp hpart).1, rfl⟩, hpart⟩
      · rintro ⟨i, ⟨-, rfl⟩, hpart⟩
        exact hpart
    | _ => simp [part?, Shape.hops]
  | namedTuple fields =>
    obtain rfl : Shape.namedTuple (Fields.names fields) = shape := Option.some.inj h
    cases hop with
    | name name =>
      simp only [part?, Fields.find?_eq_some_iff_mem hcanon.1, List.mem_iff_getElem?,
        Shape.hops, parts, Fields.names, List.getElem?_map, Option.map_eq_some_iff,
        Hop.name.injEq]
      constructor
      · rintro ⟨i, hi⟩
        exact ⟨i, ⟨name, ⟨(name, part), hi, rfl⟩, rfl⟩, (name, part), hi, rfl⟩
      · rintro ⟨i, ⟨_, ⟨field, hi, rfl⟩, rfl⟩, other, hi', rfl⟩
        obtain rfl : field = other := Option.some.inj (hi.symm.trans hi')
        exact ⟨i, hi⟩
    | _ => simp [part?, Shape.hops]
  | sequence element =>
    obtain rfl : Shape.sequence = shape := Option.some.inj h
    cases hop <;> simp [part?, Shape.hops, parts, List.getElem?_singleton]
  | _ => exact absurd h (Option.some_ne_none _).symm

/-- Only a compound type has parts to hop to. -/
theorem part?_eq_none_of_shape? {ty : Ty} (h : ty.shape? = none) (hop : Hop) :
    ty.part? hop = none := by
  cases ty with
  | tuple | namedTuple | sequence => exact absurd h (Option.some_ne_none _)
  | _ => rfl

/-- The part that a hop leads to is a part. -/
theorem exists_getElem?_of_part? {ty part : Ty} {hop : Hop} (hcanon : ty.Canonical)
    (h : ty.part? hop = some part) : ∃ i : Nat, ty.parts[i]? = some part := by
  cases hshape : ty.shape? with
  | none =>
    rw [part?_eq_none_of_shape? hshape] at h
    exact absurd h.symm (Option.some_ne_none part)
  | some shape =>
    obtain ⟨i, -, hi⟩ := (part?_eq_some_iff hcanon hshape).mp h
    exact ⟨i, hi⟩

/-- Every part can be hopped to. -/
theorem exists_part?_of_getElem? {ty part : Ty} {i : Nat} (hcanon : ty.Canonical)
    (h : ty.parts[i]? = some part) : ∃ hop, ty.part? hop = some part := by
  cases hshape : ty.shape? with
  | none => cases ty <;> simp [shape?, parts] at hshape h
  | some shape =>
    obtain ⟨hop, hhop⟩ := exists_hop_of_part hshape h
    exact ⟨hop, (part?_eq_some_iff hcanon hshape).mpr ⟨i, hhop, h⟩⟩

/-- Where a hop leads from one type, it leads from any other of its shape, and
to the part in the same place. -/
theorem exists_places_of_part? {a b x : Ty} {shape : Shape} {hop : Hop} (ha : a.Canonical)
    (has : a.shape? = some shape) (hbs : b.shape? = some shape) (h : a.part? hop = some x) :
    ∃ (i : Nat) (y : Ty), shape.hops[i]? = some hop ∧ a.parts[i]? = some x ∧
      b.parts[i]? = some y := by
  obtain ⟨i, hi, hx⟩ := (part?_eq_some_iff ha has).mp h
  obtain ⟨y, hy⟩ := exists_part_of_hop hbs hi
  exact ⟨i, y, hi, hx, hy⟩

theorem Canonical.part? {ty part : Ty} {hop : Hop} (hcanon : ty.Canonical)
    (h : ty.part? hop = some part) : part.Canonical := by
  obtain ⟨i, hi⟩ := exists_getElem?_of_part? hcanon h
  exact (canonical_iff_parts.mp hcanon).2 i part hi

/-- What stands in a canonical type is canonical. -/
theorem Canonical.at? {ty inner : Ty} {position : Position} (hcanon : ty.Canonical)
    (h : ty.at? position = some inner) : inner.Canonical := by
  induction position generalizing ty with
  | nil => exact Option.some.inj h ▸ hcanon
  | cons hop rest ih =>
    obtain ⟨part, hpart, hrest⟩ := Option.bind_eq_some_iff.mp h
    exact ih (hcanon.part? hpart) hrest

/-! ## Common positions -/

/-- The shape of the type at a position, if a compound type stands there. -/
def shapeAt? (ty : Ty) (position : Position) : Option Shape :=
  (ty.at? position).bind shape?

/-- The types have one shape at each position on the way to this one. -/
def Common (tys : List Ty) (position : Position) : Prop :=
  ∀ (front : Position) (hop : Hop) (back : Position), position = front ++ hop :: back →
    ∃ shape, ∀ ty ∈ tys, ty.shapeAt? front = some shape

theorem common_nil (tys : List Ty) : Common tys [] := by
  intro front hop back h
  exact absurd h.symm (List.append_ne_nil_of_right_ne_nil front (List.cons_ne_nil hop back))

/-- Where a position leads further in, there is a compound type. -/
theorem exists_shapeAt?_of_at? {ty inner : Ty} {front back : Position} {hop : Hop}
    (h : ty.at? (front ++ hop :: back) = some inner) : ∃ shape, ty.shapeAt? front = some shape := by
  rw [at?_append] at h
  obtain ⟨outer, houter, hinner⟩ := Option.bind_eq_some_iff.mp h
  obtain ⟨part, hpart, -⟩ := Option.bind_eq_some_iff.mp hinner
  rw [shapeAt?, houter, Option.bind_some]
  cases hshape : outer.shape? with
  | none => simp [part?_eq_none_of_shape? hshape] at hpart
  | some shape => exact ⟨shape, rfl⟩

/-- Where a type has something, the way there is common to it. -/
theorem common_singleton_of_at? {ty inner : Ty} {position : Position}
    (h : ty.at? position = some inner) : Common [ty] position := by
  rintro front hop back rfl
  obtain ⟨shape, hshape⟩ := exists_shapeAt?_of_at? h
  exact ⟨shape, List.forall_mem_singleton.mpr hshape⟩

/-- What is common to some types is common to fewer of them. -/
theorem Common.mono {tys others : List Ty} {position : Position} (h : Common tys position)
    (hsub : ∀ other ∈ others, other ∈ tys) : Common others position := by
  intro front hop back heq
  obtain ⟨shape, hshape⟩ := h front hop back heq
  exact ⟨shape, fun other hother => hshape other (hsub other hother)⟩

/-- One hop further a position is still common when the types have one shape
where the hop sets out. -/
theorem common_concat {tys : List Ty} {position : Position} {hop : Hop} :
    Common tys (position ++ [hop]) ↔
      Common tys position ∧ ∃ shape, ∀ ty ∈ tys, ty.shapeAt? position = some shape := by
  constructor
  · intro h
    refine ⟨fun front other back heq => h front other (back ++ [hop]) ?_, h position hop [] rfl⟩
    rw [heq, List.append_assoc, List.cons_append]
  · rintro ⟨hcommon, hshape⟩ front other back heq
    rcases List.eq_nil_or_concat back with rfl | ⟨init, last, rfl⟩
    · obtain ⟨rfl, -⟩ := List.append_inj' heq rfl
      exact hshape
    · rw [List.concat_eq_append, ← List.cons_append, ← List.append_assoc] at heq
      obtain ⟨rfl, -⟩ := List.append_inj' heq rfl
      exact hcommon front other init rfl

/-- A position is common to two types when they have one shape and the rest of
it is common to the parts that its first hop leads to. -/
theorem common_cons {a b x y : Ty} {hop : Hop} {rest : Position} (hx : a.part? hop = some x)
    (hy : b.part? hop = some y) :
    Common [a, b] (hop :: rest) ↔
      (∃ shape, a.shape? = some shape ∧ b.shape? = some shape) ∧ Common [x, y] rest := by
  have hat : ∀ {ty part : Ty} (front : Position), ty.part? hop = some part →
      ty.shapeAt? (hop :: front) = part.shapeAt? front := by
    intro ty part front hpart
    simp [shapeAt?, hpart]
  constructor
  · intro h
    refine ⟨by simpa [shapeAt?] using h [] hop rest rfl, fun front other back heq => ?_⟩
    simpa [hat front hx, hat front hy] using
      h (hop :: front) other back (congrArg (hop :: ·) heq)
  · rintro ⟨hshape, hrest⟩ front other back heq
    cases front with
    | nil => simpa [shapeAt?] using hshape
    | cons first front =>
      obtain ⟨rfl, htail⟩ := List.cons.inj heq
      simpa [hat front hx, hat front hy] using hrest front other back htail

/-! ## Joins at common positions -/

/-- Three types found in one place: none at all, or the third is the join of
the others. -/
inductive JoinedAt : Option Ty → Option Ty → Option Ty → Prop where
  | outside : JoinedAt none none none
  | inside {x y z : Ty} (h : x.join y = .ok z) : JoinedAt (some x) (some y) (some z)

/-- A join is a compound of some shape exactly when both operands are. -/
theorem shape?_join_eq_some_iff {a b j : Ty} {shape : Shape} (h : a.join b = .ok j) :
    j.shape? = some shape ↔ a.shape? = some shape ∧ b.shape? = some shape := by
  constructor
  · intro hj
    obtain ⟨ha, hb⟩ := shape?_eq_of_join h (ne_of_shape? hj rfl)
    exact ⟨ha.trans hj, hb.trans hj⟩
  · rintro ⟨ha, hb⟩
    exact ((join_eq_ok_iff_parts ha hb).mp h).1

/-- A hop from a join of compound types leads to the join of what it leads to
from the operands. -/
private theorem joinedAt_part? {a b j : Ty} {shape : Shape} (ha : a.Canonical)
    (hb : b.Canonical) (has : a.shape? = some shape) (hbs : b.shape? = some shape)
    (h : a.join b = .ok j) (hop : Hop) : JoinedAt (a.part? hop) (b.part? hop) (j.part? hop) := by
  obtain ⟨hjs, hjoins⟩ := (join_eq_ok_iff_parts has hbs).mp h
  have hj : j.Canonical := canonical_of_join ha hb h
  by_cases hmem : hop ∈ shape.hops
  · obtain ⟨i, hi⟩ := List.mem_iff_getElem?.mp hmem
    obtain ⟨x, hx⟩ := exists_part_of_hop has hi
    obtain ⟨y, hy⟩ := exists_part_of_hop hbs hi
    obtain ⟨z, hz⟩ := exists_part_of_hop hjs hi
    rw [(part?_eq_some_iff ha has).mpr ⟨i, hi, hx⟩, (part?_eq_some_iff hb hbs).mpr ⟨i, hi, hy⟩,
      (part?_eq_some_iff hj hjs).mpr ⟨i, hi, hz⟩]
    exact .inside (hjoins i x y z hx hy hz)
  · have hnone : ∀ {ty : Ty}, ty.Canonical → ty.shape? = some shape → ty.part? hop = none := by
      intro ty hty hs
      refine Option.eq_none_iff_forall_ne_some.mpr fun part hpart => hmem ?_
      obtain ⟨i, hi, -⟩ := (part?_eq_some_iff hty hs).mp hpart
      exact List.mem_of_getElem? hi
    rw [hnone ha has, hnone hb hbs, hnone hj hjs]
    exact .outside

/-- At a common position of the operands stands the join of what they have
there. -/
theorem joinedAt_at? {a b j : Ty} {position : Position} (ha : a.Canonical) (hb : b.Canonical)
    (h : a.join b = .ok j) (hcommon : Common [a, b] position) :
    JoinedAt (a.at? position) (b.at? position) (j.at? position) := by
  induction position using List.reverseRecOn with
  | nil => exact .inside h
  | append_singleton position hop ih =>
    obtain ⟨hcommon, shape, hshape⟩ := common_concat.mp hcommon
    have has : a.shapeAt? position = some shape := hshape a (by simp)
    have hbs : b.shapeAt? position = some shape := hshape b (by simp)
    obtain ⟨x, hx, hxs⟩ := Option.bind_eq_some_iff.mp has
    obtain ⟨y, hy, hys⟩ := Option.bind_eq_some_iff.mp hbs
    have hjoined := ih hcommon
    rw [at?_append, at?_append, at?_append]
    rw [hx, hy] at hjoined ⊢
    generalize j.at? position = found at hjoined ⊢
    cases hjoined with
    | inside hz =>
      have hpart := joinedAt_part? (ha.at? hx) (hb.at? hy) hxs hys hz hop
      simpa using hpart

/-- At a common position of the operands the join has a shape exactly when both
have it. -/
private theorem shapeAt?_join_iff {a b j : Ty} {position : Position} {shape : Shape}
    (ha : a.Canonical) (hb : b.Canonical) (h : a.join b = .ok j)
    (hcommon : Common [a, b] position) :
    j.shapeAt? position = some shape ↔
      a.shapeAt? position = some shape ∧ b.shapeAt? position = some shape := by
  have hjoined := joinedAt_at? ha hb h hcommon
  simp only [shapeAt?]
  generalize a.at? position = x, b.at? position = y, j.at? position = z at hjoined ⊢
  cases hjoined with
  | outside => simp
  | inside hz => exact shape?_join_eq_some_iff hz

/-- What is common to a join and other types is common to the operands and
these types. -/
theorem common_join_iff {a b j : Ty} {tys : List Ty} {position : Position} (ha : a.Canonical)
    (hb : b.Canonical) (h : a.join b = .ok j) :
    Common (j :: tys) position ↔ Common (a :: b :: tys) position := by
  induction position using List.reverseRecOn with
  | nil => exact iff_of_true (common_nil _) (common_nil _)
  | append_singleton position hop ih =>
    rw [common_concat, common_concat, ih]
    refine and_congr_right fun hcommon => exists_congr fun shape => ?_
    have hpair : Common [a, b] position := hcommon.mono (by simp)
    simp only [List.forall_mem_cons, shapeAt?_join_iff ha hb h hpair, and_assoc]

end Ty

end MachineTypes
