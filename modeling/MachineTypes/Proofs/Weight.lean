import MachineTypes.Proofs.ListJoin
import Mathlib.Data.List.Infix

/-!
# Subtyping has no cycles and no long chains

Each type has a weight, and on the way to a proper supertype the weight drops.
The rules leave little choice in it: `any` and `state` have no proper supertype,
`nil` stands two steps below `any`, all other types without parts one step, and
a compound must weigh more than `any` even when it is empty, and more than what
becomes of it when one of its parts is widened.

So a list in ascending order can change no more often than its first type
weighs. The types that a join of a list runs through are such a list.

## Main results

* `weight_of_isSubtype` — a supertype is equal up to refinements, or lighter.
* `changes_le_weight` — how often an ascending list can change.
* `accumulated`, `map_ok_accumulated`, `pairwise_accumulated` — the types that a
  fold of joins runs through: the joins of the first few operands, which ascend.
* `weight_drops` — the three together.
-/

namespace MachineTypes.Ty

/-! ## Weight -/

mutual

/-- An upper bound for the number of proper supertypes that can be passed, one
above the other, on the way up from a type. -/
def weight : Ty → Nat
  | any | state => 0
  | bool | int | id | event _ => 1
  | nil => 2
  | tuple elements => 1 + weightEach elements
  | namedTuple fields => 1 + weightFields fields
  | sequence element => 1 + weight element

/-- The weights of the elements, added up. -/
def weightEach : List Ty → Nat
  | [] => 0
  | ty :: rest => weight ty + weightEach rest

/-- The weights of the fields' types, added up. -/
def weightFields : List (String × Ty) → Nat
  | [] => 0
  | (_, ty) :: rest => weight ty + weightFields rest

end

private theorem weightFields_eq_weightEach (fields : List Field) :
    weightFields fields = weightEach (fields.map Prod.snd) := by
  induction fields with
  | nil => rfl
  | cons field rest ih => simp [weightFields, weightEach, ih]

/-- A compound type weighs one more than its parts. -/
theorem weight_of_shape? {ty : Ty} {shape : Shape} (h : ty.shape? = some shape) :
    ty.weight = 1 + weightEach ty.parts := by
  cases ty with
  | tuple elements => rw [weight, parts]
  | namedTuple fields => rw [weight, parts, weightFields_eq_weightEach]
  | sequence element => simp [weight, weightEach, parts]
  | _ => exact absurd h.symm (Option.some_ne_none shape)

/-! ## What a supertype weighs -/

/-- If in every place of two lists the second has an equal or a lighter type,
then all are equal or the second list is lighter. -/
private theorem weightEach_of_places {as bs : List Ty} (hlength : as.length = bs.length)
    (h : ∀ (i : Nat) (x y : Ty), as[i]? = some x → bs[i]? = some y →
      (x == y) = true ∧ x.weight = y.weight ∨ y.weight < x.weight) :
    (∀ (i : Nat) (x y : Ty), as[i]? = some x → bs[i]? = some y → (x == y) = true) ∧
        weightEach as = weightEach bs ∨
      weightEach bs < weightEach as := by
  induction as generalizing bs with
  | nil =>
    obtain rfl : bs = [] := List.length_eq_zero_iff.mp hlength.symm
    exact .inl ⟨by simp, rfl⟩
  | cons a as ih =>
    obtain ⟨b, bs, rfl⟩ := List.exists_cons_of_length_eq_add_one hlength.symm
    obtain ⟨hhead, htail⟩ := forall_getElem?_cons.mp h
    simp only [forall_getElem?_cons, weightEach]
    rcases ih (Nat.succ.inj hlength) htail with ⟨hsame, hsum⟩ | hsum
    · rcases hhead with ⟨hab, hweight⟩ | hweight
      · exact .inl ⟨⟨hab, hsame⟩, by omega⟩
      · exact .inr (by omega)
    · rcases hhead with ⟨-, hweight⟩ | hweight
      · exact .inr (by omega)
      · exact .inr (by omega)

/-- A supertype is the same type up to refinements, of the same weight, or it is
lighter. -/
theorem weight_of_isSubtype {a b : Ty} (h : a.isSubtype b = true) :
    (a == b) = true ∧ a.weight = b.weight ∨ b.weight < a.weight := by
  induction a using shape_induction generalizing b with
  | scalar a ha =>
    cases a <;> cases b <;> simp [isSubtype, shape?] at ha h <;>
      simp [weight, beq_def, equiv]
  | compound a shape ha ih =>
    by_cases hb : b = any
    · subst hb
      rw [weight_of_shape? ha, weight]
      exact .inr (by omega)
    · have hbs : b.shape? = some shape := (shape?_eq_of_isSubtype h hb).trans ha
      have hplaces := (isSubtype_iff_parts ha hbs).mp h
      have hsum := weightEach_of_places (length_parts_of_shape?_eq (ha.trans hbs.symm))
        fun i x y hx hy => ih i x hx (hplaces i x y hx hy)
      rw [beq_iff_parts ha hbs, weight_of_shape? ha, weight_of_shape? hbs]
      rcases hsum with ⟨hsame, hsum⟩ | hsum
      · exact .inl ⟨hsame, by omega⟩
      · exact .inr (by omega)

/-! ## Ascending lists -/

/-- How often neighbours in a list differ in more than refinements. -/
def changes (tys : List Ty) : Nat :=
  (tys.zip tys.tail).countP fun step => step.1 != step.2

@[simp] theorem changes_singleton (ty : Ty) : changes [ty] = 0 := rfl

theorem changes_cons_cons (a b : Ty) (rest : List Ty) :
    changes (a :: b :: rest) = changes (b :: rest) + if a != b then 1 else 0 :=
  List.countP_cons

/-- A list in which each type is below all that follow changes no more often
than its first type weighs. -/
theorem changes_le_weight {first : Ty} {rest : List Ty}
    (h : (first :: rest).Pairwise fun a b => a.isSubtype b = true) :
    changes (first :: rest) ≤ first.weight := by
  induction rest generalizing first with
  | nil => simp
  | cons next rest ih =>
    obtain ⟨hfirst, hrest⟩ := List.pairwise_cons.mp h
    have hlater : changes (next :: rest) ≤ next.weight := ih hrest
    rw [changes_cons_cons]
    rcases weight_of_isSubtype (hfirst next List.mem_cons_self) with ⟨hsame, hweight⟩ | hweight
    · rw [bne, hsame, hweight]
      simpa using hlater
    · split <;> omega

/-! ## What a fold runs through -/

/-- The types that the join of a list runs through: the one it starts from, and
what it has made of it after each operand. An operand that is refused ends the
list. -/
def accumulated (acc : Ty) : List Ty → List Ty
  | [] => [acc]
  | ty :: rest =>
    match acc.join ty with
    | .error _ => [acc]
    | .ok joined => acc :: accumulated joined rest

theorem accumulated_cons_of_ok {acc ty joined : Ty} (h : acc.join ty = .ok joined)
    (rest : List Ty) : accumulated acc (ty :: rest) = acc :: accumulated joined rest := by
  rw [accumulated, h]

theorem accumulated_cons_of_error {acc ty : Ty} {violation : Violation}
    (h : acc.join ty = .error violation) (rest : List Ty) :
    accumulated acc (ty :: rest) = [acc] := by
  rw [accumulated, h]

/-- What a fold starts from comes first. -/
theorem exists_accumulated_eq_cons (acc : Ty) (tys : List Ty) :
    ∃ later, accumulated acc tys = acc :: later := by
  cases tys with
  | nil => exact ⟨[], rfl⟩
  | cons ty rest =>
    cases hjoin : acc.join ty with
    | error violation => exact ⟨[], accumulated_cons_of_error hjoin rest⟩
    | ok joined => exact ⟨accumulated joined rest, accumulated_cons_of_ok hjoin rest⟩

/-- A fold that ends in a type has run through the results of the folds over the
first few of its operands. -/
theorem map_ok_accumulated {acc j : Ty} {tys : List Ty} (h : tys.foldlM join acc = .ok j) :
    (accumulated acc tys).map Except.ok = tys.inits.map fun front => front.foldlM join acc := by
  induction tys generalizing acc with
  | nil => rfl
  | cons ty rest ih =>
    obtain ⟨joined, hjoined, hrest⟩ := foldlM_join_cons_eq_ok_iff.mp h
    have hstep : ∀ front : List Ty,
        (ty :: front).foldlM join acc = front.foldlM join joined := by
      intro front
      rw [List.foldlM_cons, hjoined]
      rfl
    rw [accumulated_cons_of_ok hjoined, List.inits_cons, List.map_cons, List.map_cons,
      List.map_map, ih hrest]
    simp only [Function.comp_def, hstep]
    rfl

/-- What a fold runs through ascends. A step leads to a type above the one
before it, and so above all that came earlier. -/
theorem pairwise_accumulated (acc : Ty) (tys : List Ty) :
    (accumulated acc tys).Pairwise fun a b => a.isSubtype b = true := by
  induction tys generalizing acc with
  | nil => exact List.pairwise_singleton _ _
  | cons operand rest ih =>
    cases hjoin : acc.join operand with
    | error violation =>
      rw [accumulated_cons_of_error hjoin]
      exact List.pairwise_singleton _ _
    | ok joined =>
      have hstep : acc.isSubtype joined = true := (isSubtype_join hjoin).1
      have hascends := ih joined
      obtain ⟨later, hlater⟩ := exists_accumulated_eq_cons joined rest
      rw [accumulated_cons_of_ok hjoin, hlater]
      rw [hlater] at hascends
      obtain ⟨hjoined, -⟩ := List.pairwise_cons.mp hascends
      refine List.pairwise_cons.mpr ⟨List.forall_mem_cons.mpr ⟨hstep, ?_⟩, hascends⟩
      exact fun ty hty => isSubtype_trans hstep (hjoined ty hty)

/-- A fold changes what it has no more often than the type it starts from
weighs. -/
theorem changes_accumulated_le (acc : Ty) (tys : List Ty) :
    changes (accumulated acc tys) ≤ acc.weight := by
  have hascends := pairwise_accumulated acc tys
  obtain ⟨later, hlater⟩ := exists_accumulated_eq_cons acc tys
  rw [hlater] at hascends ⊢
  exact changes_le_weight hascends

/-- **Weight drops on the way up.** A supertype is the same up to refinements
and has the same weight, or it is lighter; so types that are subtypes of each
other are the same. The types that the join of a list runs through, which are
the joins of the first few types of the list, change no more often than the
first type weighs, and no more at all once they are `any`. -/
theorem weight_drops :
    (∀ a b : Ty, a.isSubtype b = true →
      (a == b) = true ∧ a.weight = b.weight ∨ b.weight < a.weight) ∧
    (∀ a b : Ty, a.isSubtype b = true → b.isSubtype a = true → (a == b) = true) ∧
    ∀ (first : Ty) (rest : List Ty) (j : Ty), (joinAll (first :: rest)).value = .ok j →
      (accumulated first rest).map Except.ok =
        rest.inits.map (fun front => (joinAll (first :: front)).value) ∧
      changes (accumulated first rest) ≤ first.weight ∧
      (accumulated first rest).Pairwise fun earlier later => earlier = any → later = any := by
  refine ⟨fun a b h => weight_of_isSubtype h, fun a b hab hba => ?_, fun first rest j h => ?_⟩
  · rcases weight_of_isSubtype hab with ⟨heq, -⟩ | hdrop
    · exact heq
    · rcases weight_of_isSubtype hba with ⟨heq, -⟩ | hdrop'
      · exact BEq.symm heq
      · omega
  · simp only [joinAll_cons_value] at h ⊢
    refine ⟨map_ok_accumulated h, changes_accumulated_le first rest, ?_⟩
    refine (pairwise_accumulated first rest).imp fun hle hany => ?_
    exact any_isSubtype_iff.mp (hany ▸ hle)

/-- A pair that is widened in one step after the other, as often as it weighs;
and what the statement says of it and of the first step. -/
theorem weight_drops_pair :
    (joinAll [tuple [nil, bool], tuple [id, bool], tuple [int, bool], tuple [nil, nil],
        sequence state, tuple []]).value = .ok any ∧
      changes (accumulated (tuple [nil, bool]) [tuple [id, bool], tuple [int, bool],
        tuple [nil, nil], sequence state, tuple []]) = 4 ∧
      changes (accumulated (tuple [nil, bool]) [tuple [id, bool], tuple [int, bool],
        tuple [nil, nil], sequence state, tuple []]) ≤ (tuple [nil, bool]).weight ∧
      (tuple [nil, bool]).weight = 4 ∧
      ((tuple [nil, bool] == tuple [id, bool]) = true ∧
          (tuple [nil, bool]).weight = (tuple [id, bool]).weight ∨
        (tuple [id, bool]).weight < (tuple [nil, bool]).weight) ∧
      (tuple [event (some "a")] == tuple [event none]) = true := by
  have hj : (joinAll [tuple [nil, bool], tuple [id, bool], tuple [int, bool], tuple [nil, nil],
      sequence state, tuple []]).value = .ok any := rfl
  obtain ⟨hweight, hequal, hfold⟩ := weight_drops
  exact ⟨hj, rfl, (hfold _ _ _ hj).2.1, rfl, hweight _ _ rfl, hequal _ _ rfl rfl⟩

end MachineTypes.Ty
