import MachineTypes.Fields.Basic
import MachineTypes.Ty.Erasure

/-!
# Compound types by shape and parts

The three compound formers differ in what they fix besides their components: a
tuple fixes how many there are, a named tuple fixes their names, and a
sequence fixes nothing. A compound type is therefore a **shape** together with
the list of its **parts**, and equality, subtyping and join treat all three
formers alike: they look whether the shapes agree and then at the parts, place
by place.

This module supplies that view. A statement about compound types is proved
over it once instead of once for each former.

## Main results

* `parts_induction`, `shape_induction` — what passes from the parts of a type
  to the type holds of every type; a type without a shape has no parts.
* `oneShape_of_shape?` — the three cases of two compound types of one shape.
* `eq_of_parts` — a compound type is determined by its shape and its parts.
* `shape?_withParts`, `parts_withParts` — the parts of a compound can be
  exchanged for as many others, and nothing else changes.
* `forall_getElem?_cons` — two lists are related place by place when their
  heads are and their tails are.
-/

namespace MachineTypes

/-- What is left of a compound type when its components are taken out. -/
inductive Shape where
  | tuple (length : Nat)
  | namedTuple (names : List String)
  | sequence
  deriving DecidableEq

namespace Ty

/-! ## Lists related place by place -/

/-- Two lists are related place by place when their heads are related and
their tails are. -/
theorem forall_getElem?_cons {α β : Type} {R : α → β → Prop} {a : α} {b : β}
    {as : List α} {bs : List β} :
    (∀ (i : Nat) (x : α) (y : β), (a :: as)[i]? = some x → (b :: bs)[i]? = some y → R x y) ↔
      R a b ∧ ∀ (i : Nat) (x : α) (y : β), as[i]? = some x → bs[i]? = some y → R x y := by
  constructor
  · intro h
    exact ⟨h 0 a b rfl rfl, fun i x y hx hy => h (i + 1) x y hx hy⟩
  · rintro ⟨hhead, htail⟩ i x y hx hy
    cases i with
    | zero =>
      obtain rfl : a = x := Option.some.inj hx
      obtain rfl : b = y := Option.some.inj hy
      exact hhead
    | succ i => exact htail i x y hx hy

/-- Of two lists of one length, the one has a place wherever the other has. -/
theorem exists_getElem?_of_length_eq {α β : Type} {as : List α} {bs : List β} {i : Nat} {a : α}
    (hlength : as.length = bs.length) (ha : as[i]? = some a) : ∃ b, bs[i]? = some b := by
  have hi : i < as.length := (List.getElem?_eq_some_iff.mp ha).1
  rw [hlength] at hi
  exact ⟨bs[i], List.getElem?_eq_getElem hi⟩

/-! ## Shape and parts -/

/-- The shape of a compound type. All other types have none. -/
def shape? : Ty → Option Shape
  | tuple elements => some (.tuple elements.length)
  | namedTuple fields => some (.namedTuple (Fields.names fields))
  | sequence _ => some .sequence
  | _ => none

/-- The components of a compound type, in their order. -/
def parts : Ty → List Ty
  | tuple elements => elements
  | namedTuple fields => fields.map Prod.snd
  | sequence element => [element]
  | _ => []

/-- The compound type of the same shape with the given parts, which are to be
as many as before. -/
def withParts : Ty → List Ty → Ty
  | tuple _, others => tuple others
  | namedTuple fields, others => namedTuple ((Fields.names fields).zip others)
  | sequence _, [part] => sequence part
  | ty, _ => ty

/-- A type with a shape is no type without one. -/
theorem ne_of_shape? {a b : Ty} {shape : Shape} (ha : a.shape? = some shape)
    (hb : b.shape? = none) : a ≠ b := by
  rintro rfl
  rw [hb] at ha
  exact Option.some_ne_none shape ha.symm

/-- Two compound types that agree in everything but their parts. -/
inductive OneShape : Ty → Ty → Prop where
  | tuple {as bs : List Ty} (h : as.length = bs.length) : OneShape (tuple as) (tuple bs)
  | namedTuple {as bs : List Field} (h : Fields.names as = Fields.names bs) :
      OneShape (namedTuple as) (namedTuple bs)
  | sequence (a b : Ty) : OneShape (sequence a) (sequence b)

/-- Compound types of one shape come from one former. -/
theorem oneShape_of_shape? {a b : Ty} {shape : Shape} (ha : a.shape? = some shape)
    (hb : b.shape? = some shape) : OneShape a b := by
  have h : a.shape? = b.shape? := ha.trans hb.symm
  cases a <;> cases b <;> simp only [shape?, Option.some.injEq, reduceCtorEq,
    Shape.tuple.injEq, Shape.namedTuple.injEq] at ha h
  case tuple.tuple => exact .tuple h
  case namedTuple.namedTuple => exact .namedTuple h
  case sequence.sequence a b => exact .sequence a b

/-- The shape says how many parts there are. -/
theorem length_parts_of_shape?_eq {a b : Ty} (h : a.shape? = b.shape?) :
    a.parts.length = b.parts.length := by
  cases a <;> cases b <;> simp_all [shape?, parts]
  -- Two named tuples are left: the shape gives their names, not their length.
  rename_i as bs
  rw [← Fields.length_names as, ← Fields.length_names bs, h]

/-- Types of one shape have parts in the same places. -/
theorem exists_part_of_shape?_eq {a b : Ty} (h : a.shape? = b.shape?) {i : Nat} {x : Ty}
    (hx : a.parts[i]? = some x) : ∃ y, b.parts[i]? = some y :=
  exists_getElem?_of_length_eq (length_parts_of_shape?_eq h) hx

/-- A part is smaller than the type it is a part of. -/
theorem sizeOf_part_lt {ty part : Ty} (h : part ∈ ty.parts) : sizeOf part < sizeOf ty := by
  cases ty with
  | tuple elements =>
    have hlt : sizeOf part < sizeOf elements := List.sizeOf_lt_of_mem h
    simp only [tuple.sizeOf_spec]
    omega
  | namedTuple fields =>
    obtain ⟨field, hmem, rfl⟩ := List.mem_map.mp h
    have hlt : sizeOf field < sizeOf fields := List.sizeOf_lt_of_mem hmem
    have hsnd : sizeOf field.2 < sizeOf field := by
      cases field
      simp only [Prod.mk.sizeOf_spec]
      omega
    simp only [namedTuple.sizeOf_spec]
    omega
  | sequence element =>
    obtain rfl : part = element := List.mem_singleton.mp h
    simp only [sequence.sizeOf_spec]
    omega
  | _ => exact absurd h List.not_mem_nil

/-- What passes from the parts of a type to the type holds of every type. -/
@[elab_as_elim]
theorem parts_induction {motive : Ty → Prop}
    (step : ∀ ty, (∀ (i : Nat) (part : Ty), ty.parts[i]? = some part → motive part) → motive ty)
    (ty : Ty) : motive ty := by
  refine step ty fun i part hpart => ?_
  have hlt := sizeOf_part_lt (List.mem_of_getElem? hpart)
  exact parts_induction step part
termination_by sizeOf ty

/-- Induction over types that does not tell the compound formers apart. -/
@[elab_as_elim]
theorem shape_induction {motive : Ty → Prop}
    (scalar : ∀ ty, ty.shape? = none → motive ty)
    (compound : ∀ ty shape, ty.shape? = some shape →
      (∀ (i : Nat) (part : Ty), ty.parts[i]? = some part → motive part) → motive ty)
    (ty : Ty) : motive ty := by
  induction ty using parts_induction with
  | step ty ih =>
    cases hshape : ty.shape? with
    | none => exact scalar ty hshape
    | some shape => exact compound ty shape hshape ih

/-! ## A compound type is its shape and its parts -/

/-- A field list is its names and its types. -/
private theorem fields_eq {as bs : List Field} (hnames : Fields.names as = Fields.names bs)
    (htypes : as.map Prod.snd = bs.map Prod.snd) : as = bs := by
  have hunzip : as.unzip = bs.unzip := by
    rw [List.unzip_eq_map, List.unzip_eq_map]
    exact Prod.ext hnames htypes
  rw [← List.zip_unzip as, ← List.zip_unzip bs, hunzip]

/-- A compound type is determined by its shape and its parts. -/
theorem eq_of_parts {a b : Ty} {shape : Shape} (ha : a.shape? = some shape)
    (hb : b.shape? = some shape)
    (h : ∀ (i : Nat) (x y : Ty), a.parts[i]? = some x → b.parts[i]? = some y → x = y) :
    a = b := by
  have hshape : a.shape? = b.shape? := ha.trans hb.symm
  have hparts : a.parts = b.parts := by
    refine List.ext_getElem (length_parts_of_shape?_eq hshape) fun i hia hib => ?_
    exact h i _ _ (List.getElem?_eq_getElem hia) (List.getElem?_eq_getElem hib)
  cases oneShape_of_shape? ha hb with
  | tuple => exact congrArg tuple hparts
  | namedTuple hnames => exact congrArg namedTuple (fields_eq hnames hparts)
  | sequence a b => exact congrArg sequence (List.singleton_inj.mp hparts)

private theorem names_zip {names : List String} {others : List Ty}
    (h : others.length = names.length) : Fields.names (names.zip others) = names := by
  rw [Fields.names]
  exact List.map_fst_zip (Nat.le_of_eq h.symm)

/-- Exchanging the parts leaves the shape. -/
theorem shape?_withParts {ty : Ty} {others : List Ty} (h : others.length = ty.parts.length) :
    (ty.withParts others).shape? = ty.shape? := by
  cases ty with
  | tuple elements => simpa [withParts, shape?, parts] using h
  | namedTuple fields =>
    have hlength : others.length = (Fields.names fields).length := by simpa [parts] using h
    simp only [withParts, shape?, names_zip hlength]
  | sequence element =>
    obtain ⟨part, rfl⟩ := List.length_eq_one_iff.mp h
    rfl
  | _ => rfl

/-- The parts after an exchange are the ones put in. -/
theorem parts_withParts {ty : Ty} {others : List Ty} (h : others.length = ty.parts.length) :
    (ty.withParts others).parts = others := by
  cases ty with
  | tuple elements => rfl
  | namedTuple fields =>
    have hlength : others.length = (Fields.names fields).length := by simpa [parts] using h
    exact List.map_snd_zip (Nat.le_of_eq hlength)
  | sequence element =>
    obtain ⟨part, rfl⟩ := List.length_eq_one_iff.mp h
    rfl
  | _ => exact (List.length_eq_zero_iff.mp h).symm

end Ty

end MachineTypes
