import MachineTypes.Proofs.Subtyping
import MachineTypes.Ty.Canonical
import MachineTypes.Ty.Hashing
import Mathlib.Data.List.Basic

/-!
# What is hashed determines a type up to refinements

Three things are said of types independently of each other: which ones are `==`,
what is left of a type when its refinements are forgotten, and what is fed to the
hash of a type. They agree. Types that are `==` are the same once refinements are
forgotten and write the same sequence, and conversely the sequence that a type
writes determines it up to refinements.

The converse is a question of taking a sequence apart from its front. The writes of
a type stand one after the other without anything to close them, so it has to be
clear at each point what comes next and where it ends. A former tells what comes
next, and the length of a list is written before its items; with as many items on
either side, two lists of writes are taken apart item by item
(`flatMap_append_inj`). So the statement proved by induction is about the writes of
a type and whatever follows them (`stream_append_inj`). It says more than that the
writes tell types apart: no type's writes are the beginning of another's.

A single write reaches the hash as a stream of smaller units. `stream` takes the way
in which this is done as a parameter, and `Delimited` says what is needed of it: a
write ends where it can be seen to end. A write taken for a unit in itself is the
simplest case.

## Main results

* `writes_eq` — the writes of a type are its former and then its content.
* `stream_append_inj` — from whatever follows it, the stream of a type is split off in
  one way.
* `beq_iff_stream_eq`, `stream_eq_of_isPrefix` — what this says of two streams.
* `congruence_beq`, `ofFields_erase` — all that makes a type respects `==`.
* `beq_iff_erase_and_writes` — the three notions together.
-/

namespace MachineTypes

/-! ## Streams of writes -/

/-- Each write ends where it can be seen to end: of two writes that can stand in one
place, neither begins with the other. -/
structure Delimited {σ : Type} (emit : Write → List σ) : Prop where
  former : ∀ f g : Former, emit (.former f) <+: emit (.former g) → f = g
  length : ∀ m n : Nat, emit (.length m) <+: emit (.length n) → m = n
  text : ∀ m n : String, emit (.text m) <+: emit (.text n) → m = n

/-- Writes that are not taken apart are delimited. -/
theorem delimited_singleton : Delimited fun write : Write => [write] where
  former f g h := by simpa using h
  length m n h := by simpa using h
  text m n h := by simpa using h

/-- Writes as they are, but for a text, which is closed by a unit of its own. -/
def terminated : Write → List (Option Write)
  | .former former => [some (.former former)]
  | .length count => [some (.length count)]
  | .text name => [some (.text name), none]

theorem delimited_terminated : Delimited terminated where
  former f g h := by simpa [terminated] using h
  length m n h := by simpa [terminated] using h
  text m n h := by simpa [terminated] using h

/-- Words of which none begins with another are split off in one way. -/
private theorem append_inj_of_isPrefix {ι σ : Type} {word : ι → List σ}
    (hword : ∀ i k : ι, word i <+: word k → i = k) {i k : ι} {r s : List σ}
    (h : word i ++ r = word k ++ s) : i = k ∧ r = s := by
  have hi : word i <+: word k ++ s := h ▸ List.prefix_append (word i) r
  obtain rfl : i = k := by
    rcases List.prefix_or_prefix_of_prefix hi (List.prefix_append (word k) s) with hik | hki
    · exact hword i k hik
    · exact (hword k i hki).symm
  exact ⟨rfl, List.append_cancel_left h⟩

/-- Two lists of one length are taken apart item by item when each item can be split
off. -/
theorem flatMap_append_inj {α σ : Type} {encode : α → List σ} {R : α → α → Prop}
    {as bs : List α} {r s : List σ} (hlength : as.length = bs.length)
    (hencode : ∀ a ∈ as, ∀ (b : α) (r s : List σ), encode a ++ r = encode b ++ s →
      R a b ∧ r = s)
    (h : as.flatMap encode ++ r = bs.flatMap encode ++ s) :
    (∀ (i : Nat) (a b : α), as[i]? = some a → bs[i]? = some b → R a b) ∧ r = s := by
  induction as generalizing bs with
  | nil =>
    obtain rfl : bs = [] := List.length_eq_zero_iff.mp hlength.symm
    exact ⟨by simp, h⟩
  | cons a as ih =>
    obtain ⟨b, bs, rfl⟩ := List.exists_cons_of_length_eq_add_one hlength.symm
    rw [List.flatMap_cons, List.flatMap_cons, List.append_assoc, List.append_assoc] at h
    obtain ⟨hhead, hrest⟩ := hencode a List.mem_cons_self b _ _ h
    obtain ⟨htail, hrs⟩ := ih (Nat.succ.inj hlength)
      (fun x hx => hencode x (List.mem_cons_of_mem a hx)) hrest
    exact ⟨Ty.forall_getElem?_cons.mpr ⟨hhead, htail⟩, hrs⟩

namespace Ty

/-! ## Former and content -/

/-- The outermost former of a type. -/
def former : Ty → Former
  | nil => .nil
  | bool => .bool
  | int => .int
  | id => .id
  | event _ => .event
  | state => .state
  | any => .any
  | tuple _ => .tuple
  | namedTuple _ => .namedTuple
  | sequence _ => .sequence

/-- What is written of a type after its former: how many components it has, if that
varies, and the components. -/
def content : Ty → List Write
  | tuple elements => .length elements.length :: elements.flatMap writes
  | namedTuple fields =>
    .length fields.length :: fields.flatMap fun field => .text field.1 :: field.2.writes
  | sequence element => element.writes
  | _ => []

private theorem writesEach_eq_flatMap (tys : List Ty) :
    writesEach tys = tys.flatMap writes := by
  induction tys with
  | nil => rfl
  | cons ty rest ih => rw [writesEach, List.flatMap_cons, ih]

private theorem writesFields_eq_flatMap (fields : List Field) :
    writesFields fields = fields.flatMap fun field => .text field.1 :: field.2.writes := by
  induction fields with
  | nil => rfl
  | cons field rest ih => rw [writesFields, List.flatMap_cons, ih]

/-- The writes of a type are its former and then its content. -/
theorem writes_eq (ty : Ty) : ty.writes = .former ty.former :: ty.content := by
  cases ty with
  | tuple elements => rw [writes, writesEach_eq_flatMap, former, content]
  | namedTuple fields => rw [writes, writesFields_eq_flatMap, former, content]
  | _ => rfl

/-! ## Taking a stream apart -/

section Stream

variable {σ : Type} (emit : Write → List σ)

/-- The writes of a type in the units in which they reach the hash. -/
def stream (ty : Ty) : List σ := ty.writes.flatMap emit

/-- The stream of a field: its name and then its type. -/
def fieldStream (field : Field) : List σ := emit (.text field.1) ++ field.2.stream emit

theorem stream_eq (ty : Ty) :
    ty.stream emit = emit (.former ty.former) ++ ty.content.flatMap emit := by
  rw [stream, writes_eq, List.flatMap_cons]

private theorem content_tuple_flatMap (elements : List Ty) :
    (tuple elements).content.flatMap emit =
      emit (.length elements.length) ++ elements.flatMap (stream emit) := by
  rw [content, List.flatMap_cons, List.flatMap_assoc]
  rfl

private theorem content_namedTuple_flatMap (fields : List Field) :
    (namedTuple fields).content.flatMap emit =
      emit (.length fields.length) ++ fields.flatMap (fieldStream emit) := by
  rw [content, List.flatMap_cons, List.flatMap_assoc]
  simp only [List.flatMap_cons]
  rfl

variable {emit}

/-- A named tuple equals the ones whose fields have the same names and equal types,
place by place. -/
private theorem namedTuple_beq_of_places {as bs : List Field} (hlength : as.length = bs.length)
    (h : ∀ (i : Nat) (a b : Field), as[i]? = some a → bs[i]? = some b →
      a.1 = b.1 ∧ (a.2 == b.2) = true) : (namedTuple as == namedTuple bs) = true := by
  rw [beq_iff, erase, erase, eraseFields_eq_map, eraseFields_eq_map, namedTuple.injEq]
  refine List.ext_getElem (by simpa using hlength) fun i ha hb => ?_
  rw [List.length_map] at ha hb
  rw [List.getElem_map, List.getElem_map]
  obtain ⟨hname, hty⟩ := h i _ _ (List.getElem?_eq_getElem ha) (List.getElem?_eq_getElem hb)
  rw [hname, beq_iff.mp hty]

/-- **From whatever follows it, the stream of a type is split off in one way**: two
types with streams that begin alike are `==`, and the same follows. -/
theorem stream_append_inj (hemit : Delimited emit) {a b : Ty} {r s : List σ}
    (h : a.stream emit ++ r = b.stream emit ++ s) : (a == b) = true ∧ r = s := by
  induction a using parts_induction generalizing b r s with
  | step a ih =>
    rw [stream_eq, stream_eq, List.append_assoc, List.append_assoc] at h
    obtain ⟨hformer, hcontent⟩ := append_inj_of_isPrefix hemit.former h
    -- Equal formers leave the pairs of like types, and of these three have a content.
    cases a <;> cases b <;> simp only [former, reduceCtorEq] at hformer
    case tuple.tuple as bs =>
      rw [content_tuple_flatMap, content_tuple_flatMap, List.append_assoc,
        List.append_assoc] at hcontent
      obtain ⟨hlength, helements⟩ := append_inj_of_isPrefix hemit.length hcontent
      have hitem : ∀ x ∈ as, ∀ (y : Ty) (r s : List σ),
          x.stream emit ++ r = y.stream emit ++ s → (x == y) = true ∧ r = s := by
        intro x hx y r s hxy
        obtain ⟨i, hi⟩ := List.mem_iff_getElem?.mp hx
        exact ih i x hi hxy
      obtain ⟨hparts, hrest⟩ := flatMap_append_inj hlength hitem helements
      have hshape : (tuple bs).shape? = some (.tuple as.length) := by rw [shape?, hlength]
      exact ⟨(beq_iff_parts rfl hshape).mpr hparts, hrest⟩
    case namedTuple.namedTuple as bs =>
      rw [content_namedTuple_flatMap, content_namedTuple_flatMap, List.append_assoc,
        List.append_assoc] at hcontent
      obtain ⟨hlength, hfields⟩ := append_inj_of_isPrefix hemit.length hcontent
      have hitem : ∀ x ∈ as, ∀ (y : Field) (r s : List σ),
          fieldStream emit x ++ r = fieldStream emit y ++ s →
            (x.1 = y.1 ∧ (x.2 == y.2) = true) ∧ r = s := by
        intro x hx y r s hxy
        obtain ⟨i, hi⟩ := List.mem_iff_getElem?.mp (List.mem_map_of_mem (f := Prod.snd) hx)
        rw [fieldStream, fieldStream, List.append_assoc, List.append_assoc] at hxy
        obtain ⟨hname, hty⟩ := append_inj_of_isPrefix hemit.text hxy
        obtain ⟨hbeq, hrs⟩ := ih i x.2 hi hty
        exact ⟨⟨hname, hbeq⟩, hrs⟩
      obtain ⟨hplaces, hrest⟩ := flatMap_append_inj hlength hitem hfields
      exact ⟨namedTuple_beq_of_places hlength hplaces, hrest⟩
    case sequence.sequence x y =>
      obtain ⟨hbeq, hrest⟩ := ih 0 x rfl hcontent
      exact ⟨hbeq, hrest⟩
    all_goals exact ⟨rfl, hcontent⟩

/-- Types are `==` exactly when they have one stream. -/
theorem beq_iff_stream_eq (hemit : Delimited emit) {a b : Ty} :
    (a == b) = true ↔ a.stream emit = b.stream emit := by
  constructor
  · intro h
    rw [stream, stream, writes_eq_of_beq h]
  · intro h
    exact (stream_append_inj hemit (congrArg (· ++ []) h)).1

/-- No stream is the beginning of another. -/
theorem stream_eq_of_isPrefix (hemit : Delimited emit) {a b : Ty}
    (h : a.stream emit <+: b.stream emit) : a.stream emit = b.stream emit := by
  obtain ⟨rest, hrest⟩ := h
  rw [← List.append_nil (b.stream emit)] at hrest
  exact (beq_iff_stream_eq hemit).mp (stream_append_inj hemit hrest).1

end Stream

/-- The writes of a type, taken as they are, are a stream. -/
theorem stream_singleton (ty : Ty) : (ty.stream fun write => [write]) = ty.writes :=
  List.flatMap_singleton' ty.writes

/-! ## Equality is respected -/

/-- The relation is passed on from components to the types that are made of them. -/
structure Congruence (R : Ty → Ty → Prop) : Prop where
  tuple {as bs : List Ty} : as.length = bs.length →
    (∀ (i : Nat) (a b : Ty), as[i]? = some a → bs[i]? = some b → R a b) →
      R (tuple as) (tuple bs)
  namedTuple {as bs : List Field} : as.length = bs.length →
    (∀ (i : Nat) (a b : Field), as[i]? = some a → bs[i]? = some b → a.1 = b.1 ∧ R a.2 b.2) →
      R (namedTuple as) (namedTuple bs)
  sequence {a b : Ty} : R a b → R (sequence a) (sequence b)

theorem congruence_beq : Congruence fun a b => (a == b) = true where
  tuple hlength h := by
    refine (beq_iff_parts rfl ?_).mpr h
    rw [shape?, hlength]
  namedTuple := namedTuple_beq_of_places
  sequence h := h

theorem equivalence_beq : Equivalence fun a b : Ty => (a == b) = true where
  refl _ := BEq.rfl
  symm := BEq.symm
  trans := BEq.trans

/-- Sorting fields by name does not look at their types. -/
private theorem sort_eraseFields (fields : List Field) :
    Fields.sort (eraseFields fields) = eraseFields (Fields.sort fields) := by
  rw [eraseFields_eq_map, eraseFields_eq_map, Fields.sort, Fields.sort]
  refine (List.map_mergeSort ?_).symm
  intro a _ b _
  rfl

private theorem names_eraseFields (fields : List Field) :
    Fields.names (eraseFields fields) = Fields.names fields := by
  simp [Fields.names, eraseFields_eq_map, Function.comp_def]

/-- Making a named tuple of fields in any order commutes with forgetting refinements,
in what it makes and in what it refuses. -/
theorem ofFields_erase (fields : List Field) :
    ofFields (eraseFields fields) = (ofFields fields).map erase := by
  rw [ofFields, ofFields, Fields.ofList, Fields.ofList, sort_eraseFields, names_eraseFields]
  cases Fields.adjacentRepeat? (Fields.names (Fields.sort fields)) with
  | none => exact congrArg Except.ok (by rw [erase])
  | some name => rfl

/-! ## The three notions -/

/-- **Equality is what is left when refinements are forgotten, and what is hashed.**
Two types are `==` exactly when they are the same once refinements are forgotten, so
this is an equivalence, and what is made of `==` types is `==`. It is also exactly
when the two write the same sequence, and no type's writes are the beginning of
another's; and this remains so however a write is put into smaller units, as long as
one can see where it ends. -/
theorem beq_iff_erase_and_writes :
    (∀ a b : Ty, (a == b) = true ↔ a.erase = b.erase) ∧
    Equivalence (fun a b : Ty => (a == b) = true) ∧
    Congruence (fun a b : Ty => (a == b) = true) ∧
    (∀ as bs : List Field, eraseFields as = eraseFields bs →
      (ofFields as).map erase = (ofFields bs).map erase) ∧
    (∀ a b : Ty, (a == b) = true ↔ a.writes = b.writes) ∧
    (∀ a b : Ty, a.writes <+: b.writes → a.writes = b.writes) ∧
    ∀ (σ : Type) (emit : Write → List σ), Delimited emit → ∀ a b : Ty,
      ((a == b) = true ↔ a.stream emit = b.stream emit) ∧
        (a.stream emit <+: b.stream emit → a.stream emit = b.stream emit) := by
  refine ⟨fun a b => beq_iff, equivalence_beq, congruence_beq, fun as bs h => ?_,
    fun a b => ?_, fun a b h => ?_, fun σ emit hemit a b => ?_⟩
  · rw [← ofFields_erase, h, ofFields_erase]
  · rw [beq_iff_stream_eq delimited_singleton, stream_singleton, stream_singleton]
  · rw [← stream_singleton, ← stream_singleton b] at h ⊢
    exact stream_eq_of_isPrefix delimited_singleton h
  · exact ⟨beq_iff_stream_eq hemit, stream_eq_of_isPrefix hemit⟩

/-- Two named tuples that differ in a refinement, made of the same fields out of order;
and two nestings of three empty tuples, where the stream of the one does not begin that
of the other. -/
theorem beq_iff_erase_and_writes_fields :
    (namedTuple [("a", event (some "x")), ("b", tuple [])]).stream terminated =
        (namedTuple [("a", event none), ("b", tuple [])]).stream terminated ∧
      (ofFields [("b", tuple []), ("a", event (some "x"))]).map erase =
        (ofFields [("b", tuple []), ("a", event none)]).map erase ∧
      ¬ (tuple [tuple [], tuple []]).stream terminated <+:
        (tuple [tuple [tuple []]]).stream terminated := by
  obtain ⟨-, -, -, hfields, -, -, hstreams⟩ := beq_iff_erase_and_writes
  refine ⟨((hstreams _ _ delimited_terminated _ _).1).mp rfl, hfields _ _ rfl, fun h => ?_⟩
  have heq := (hstreams _ _ delimited_terminated _ _).2 h
  have hbeq := ((hstreams _ _ delimited_terminated _ _).1).mpr heq
  cases hbeq

end Ty

end MachineTypes
