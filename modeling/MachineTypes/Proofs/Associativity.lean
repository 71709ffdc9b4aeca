import MachineTypes.Proofs.ListJoin

/-!
# Join is associative, refinements included

However three operands are bracketed, what comes out is the least upper bound
of the three, so the two results agree up to refinements. They agree outright:
as long as no join on the way ends in `any`, all operands have one shape, and
each bracketing meets the parts of the same three types; at a place without
parts the result is the first operand, unless that is `nil`, which gives way to
whatever the other two make.

Absorption by `any` does not disturb this. If one bracketing ends in `any`,
then nothing else is above all three operands, and the other one ends there
too.

## Main results

* `join_assoc` — two bracketings that both end in a type end in the same one.
* `foldlM_join_of_join` — an operand may be joined before a fold or after it.
* `exists_mapM_joinAll` — a list may be cut into pieces that are joined first.
-/

namespace MachineTypes.Ty

/-! ## Three operands -/

/-- What is below a type other than `any` is no `any` either. -/
theorem ne_any_of_isSubtype {a b : Ty} (h : a.isSubtype b = true) (hb : b ≠ any) : a ≠ any :=
  fun ha => hb (any_isSubtype_iff.mp (ha ▸ h))

/-- `nil` gives way, unless all is absorbed. -/
theorem eq_right_of_nil_join {b j : Ty} (h : nil.join b = .ok j) (hj : j ≠ any) : j = b := by
  cases joinOutcome_of_join h with
  | left _ hb => cases b <;> simp [isSubtype] at hb ⊢
  | right => rfl
  | parts hsome => exact absurd rfl (ne_of_shape? hsome rfl)
  | top => exact absurd rfl hj

/-- Any other operand without parts stays, unless all is absorbed. -/
theorem eq_left_of_join {a b j : Ty} (ha : a.shape? = none) (hne : a ≠ nil)
    (h : a.join b = .ok j) (hj : j ≠ any) : j = a := by
  cases joinOutcome_of_join h with
  | left => rfl
  | right hb hab hstrict =>
    cases a <;> cases b <;> simp [isSubtype, shape?] at ha hb hab hstrict hne hj
  | parts hsome => exact absurd rfl (ne_of_shape? hsome ha)
  | top => exact absurd rfl hj

/-- Operands of a join that is not `any` have the shape of the join. -/
theorem shape?_eq_of_join {a b j : Ty} (h : a.join b = .ok j) (hj : j ≠ any) :
    a.shape? = j.shape? ∧ b.shape? = j.shape? := by
  obtain ⟨ha, hb⟩ := isSubtype_join h
  exact ⟨(shape?_eq_of_isSubtype ha hj).symm, (shape?_eq_of_isSubtype hb hj).symm⟩

section Bracketings

variable {a b c ab bc left right : Ty}

/-- Both bracketings are the least upper bound of the three operands. -/
private theorem isSubtype_of_bracketings (hab : a.join b = .ok ab) (hleft : ab.join c = .ok left)
    (hbc : b.join c = .ok bc) (hright : a.join bc = .ok right) :
    left.isSubtype right = true ∧ right.isSubtype left = true := by
  have hleftBound : LeastUpperBound [a, b, c] left :=
    .append (.append (.singleton a) (.singleton b) hab) (.singleton c) hleft
  have hrightBound : LeastUpperBound [a, b, c] right :=
    .append (.singleton a) (.append (.singleton b) (.singleton c) hbc) hright
  exact ⟨hleftBound.below right hrightBound.upper, hrightBound.below left hleftBound.upper⟩

private theorem join_assoc_of_scalar (ha : a.shape? = none) (hab : a.join b = .ok ab)
    (hleft : ab.join c = .ok left) (hbc : b.join c = .ok bc) (hright : a.join bc = .ok right)
    (habNe : ab ≠ any) (hleftNe : left ≠ any) (hrightNe : right ≠ any) : left = right := by
  by_cases hnil : a = nil
  · subst hnil
    obtain rfl : ab = b := eq_right_of_nil_join hab habNe
    obtain rfl : right = bc := eq_right_of_nil_join hright hrightNe
    exact Except.ok.inj (hleft.symm.trans hbc)
  · obtain rfl : ab = a := eq_left_of_join ha hnil hab habNe
    have hl : left = ab := eq_left_of_join ha hnil hleft hleftNe
    have hr : right = ab := eq_left_of_join ha hnil hright hrightNe
    exact hl.trans hr.symm

private theorem join_assoc_of_compound {shape : Shape} (ha : a.shape? = some shape)
    (hab : a.join b = .ok ab) (hleft : ab.join c = .ok left) (hbc : b.join c = .ok bc)
    (hright : a.join bc = .ok right) (habNe : ab ≠ any) (hleftNe : left ≠ any)
    (hparts : ∀ (i : Nat) (x : Ty), a.parts[i]? = some x → ∀ {y z xy yz u v : Ty},
      x.join y = .ok xy → xy.join z = .ok u → y.join z = .ok yz → x.join yz = .ok v → u = v) :
    left = right := by
  obtain ⟨haShape, hbShape⟩ := shape?_eq_of_join hab habNe
  obtain ⟨habShape, hcShape⟩ := shape?_eq_of_join hleft hleftNe
  have habs : ab.shape? = some shape := haShape.symm.trans ha
  have hbs : b.shape? = some shape := hbShape.trans habs
  have hls : left.shape? = some shape := habShape.symm.trans habs
  have hcs : c.shape? = some shape := hcShape.trans hls
  obtain ⟨-, habJoins⟩ := (join_eq_ok_iff_parts ha hbs).mp hab
  obtain ⟨-, hleftJoins⟩ := (join_eq_ok_iff_parts habs hcs).mp hleft
  obtain ⟨hbcs, hbcJoins⟩ := (join_eq_ok_iff_parts hbs hcs).mp hbc
  obtain ⟨hrs, hrightJoins⟩ := (join_eq_ok_iff_parts ha hbcs).mp hright
  refine eq_of_parts hls hrs fun i u v hu hv => ?_
  obtain ⟨x, hx⟩ := exists_part_of_shape?_eq (hls.trans ha.symm) hu
  obtain ⟨y, hy⟩ := exists_part_of_shape?_eq (ha.trans hbs.symm) hx
  obtain ⟨z, hz⟩ := exists_part_of_shape?_eq (ha.trans hcs.symm) hx
  obtain ⟨xy, hxy⟩ := exists_part_of_shape?_eq (ha.trans habs.symm) hx
  obtain ⟨yz, hyz⟩ := exists_part_of_shape?_eq (ha.trans hbcs.symm) hx
  exact hparts i x hx (habJoins i x y xy hx hy hxy) (hleftJoins i xy z u hxy hz hu)
    (hbcJoins i y z yz hy hz hyz) (hrightJoins i x yz v hx hyz hv)

/-- The two ways to bracket three operands end in the same type. -/
theorem join_assoc (hab : a.join b = .ok ab) (hleft : ab.join c = .ok left)
    (hbc : b.join c = .ok bc) (hright : a.join bc = .ok right) : left = right := by
  induction a using parts_induction generalizing b c ab bc left right with
  | step a ih =>
    obtain ⟨hle, hge⟩ := isSubtype_of_bracketings hab hleft hbc hright
    by_cases hleftNe : left = any
    · subst hleftNe
      exact (any_isSubtype_iff.mp hle).symm
    · have hrightNe : right ≠ any := ne_any_of_isSubtype hge hleftNe
      have habNe : ab ≠ any := ne_any_of_isSubtype (isSubtype_join hleft).1 hleftNe
      cases ha : a.shape? with
      | none => exact join_assoc_of_scalar ha hab hleft hbc hright habNe hleftNe hrightNe
      | some shape => exact join_assoc_of_compound ha hab hleft hbc hright habNe hleftNe ih

end Bracketings

/-! ## Lists in pieces -/

/-- An operand may be joined to the first type of a fold or to its result. -/
theorem foldlM_join_of_join {a b ab j : Ty} {rest : List Ty} (ha : a.holdsState = false)
    (hb : b.holdsState = false) (hrest : ∀ ty ∈ rest, ty.holdsState = false)
    (hab : a.join b = .ok ab) (hj : rest.foldlM join b = .ok j) :
    rest.foldlM join ab = a.join j := by
  induction rest generalizing b ab with
  | nil =>
    obtain rfl : b = j := Except.ok.inj hj
    exact hab.symm
  | cons c rest ih =>
    obtain ⟨hc, hrest⟩ := List.forall_mem_cons.mp hrest
    obtain ⟨bc, hbc, hfold⟩ := foldlM_join_cons_eq_ok_iff.mp hj
    have hbcState : bc.holdsState = false := holdsState_of_join hbc
    obtain ⟨left, hleft⟩ := exists_join (holdsState_of_join hab) hc
    obtain ⟨right, hright⟩ := exists_join ha hbcState
    have hassoc : left = right := join_assoc hab hleft hbc hright
    calc (c :: rest).foldlM join ab
        = rest.foldlM join left := by rw [List.foldlM_cons, hleft]; rfl
      _ = rest.foldlM join right := by rw [hassoc]
      _ = a.join j := ih hbcState hrest hright hfold

/-- The pieces of a list have joins, and a fold over these goes as the fold over
the list. -/
theorem exists_mapM_joinAll {chunks : List (List Ty)} (hne : ∀ chunk ∈ chunks, chunk ≠ [])
    (h : ∀ chunk ∈ chunks, ∀ ty ∈ chunk, ty.holdsState = false) :
    ∃ joined, chunks.mapM (fun chunk => (joinAll chunk).value) = .ok joined ∧
      ∀ acc : Ty, acc.holdsState = false →
        chunks.flatten.foldlM join acc = joined.foldlM join acc := by
  induction chunks with
  | nil => exact ⟨[], rfl, fun _ _ => rfl⟩
  | cons chunk chunks ih =>
    obtain ⟨hchunkNe, hne⟩ := List.forall_mem_cons.mp hne
    obtain ⟨hchunk, h⟩ := List.forall_mem_cons.mp h
    obtain ⟨joined, hjoined, hfold⟩ := ih hne h
    obtain ⟨j, hj, hjState⟩ := exists_joinAll hchunk
    refine ⟨j :: joined, ?_, fun acc hacc => ?_⟩
    · rw [List.mapM_cons, hj, hjoined]
      rfl
    · obtain ⟨first, rest, rfl⟩ := List.exists_cons_of_ne_nil hchunkNe
      obtain ⟨hfirst, hrest⟩ := List.forall_mem_cons.mp hchunk
      obtain ⟨x, hx⟩ := exists_join hacc hfirst
      obtain ⟨y, hy⟩ := exists_join hacc hjState
      rw [joinAll_cons_value] at hj
      have hchunkFold : rest.foldlM join x = .ok y :=
        (foldlM_join_of_join hacc hfirst hrest hx hj).trans hy
      have hjoinedChunk : (first :: rest).foldlM join acc = .ok y := by
        rw [List.foldlM_cons, hx]
        exact hchunkFold
      calc ((first :: rest) :: chunks).flatten.foldlM join acc
          = chunks.flatten.foldlM join y := by
            rw [List.flatten_cons, List.foldlM_append, hjoinedChunk]
            rfl
        _ = joined.foldlM join y := hfold y (holdsState_of_join hy)
        _ = (j :: joined).foldlM join acc := by
            rw [List.foldlM_cons, hy]
            rfl

/-- A list that was cut into pieces is joined by joining the pieces first. -/
theorem exists_joinAll_flatten {chunks : List (List Ty)} (hne : ∀ chunk ∈ chunks, chunk ≠ [])
    (h : ∀ chunk ∈ chunks, ∀ ty ∈ chunk, ty.holdsState = false) :
    ∃ joined j, chunks.mapM (fun chunk => (joinAll chunk).value) = .ok joined ∧
      (joinAll joined).value = .ok j ∧ (joinAll chunks.flatten).value = .ok j := by
  have hflat : ∀ ty ∈ chunks.flatten, ty.holdsState = false := by
    intro ty hty
    obtain ⟨chunk, hchunk, hmem⟩ := List.mem_flatten.mp hty
    exact h chunk hchunk ty hmem
  obtain ⟨j, hj, -⟩ := exists_joinAll hflat
  cases chunks with
  | nil => exact ⟨[], j, rfl, hj, hj⟩
  | cons chunk chunks =>
    obtain ⟨hchunkNe, hne⟩ := List.forall_mem_cons.mp hne
    obtain ⟨hchunk, h⟩ := List.forall_mem_cons.mp h
    obtain ⟨joined, hjoined, hfold⟩ := exists_mapM_joinAll hne h
    obtain ⟨first, hfirst, hfirstState⟩ := exists_joinAll hchunk
    refine ⟨first :: joined, j, ?_, ?_, hj⟩
    · rw [List.mapM_cons, hfirst, hjoined]
      rfl
    · obtain ⟨head, tail, rfl⟩ := List.exists_cons_of_ne_nil hchunkNe
      rw [joinAll_cons_value] at hfirst ⊢
      rw [List.flatten_cons, List.cons_append, joinAll_cons_value, List.foldlM_append,
        hfirst] at hj
      exact (hfold first hfirstState).symm.trans hj

/-- **Join is associative**, refinements included: the two bracketings of three
operands end in the same type whenever both end in one, which they do when no
operand holds `state`; and a list without `state` may be cut into pieces that
are not empty, whose joins are joined in turn. -/
theorem join_associative :
    (∀ a b c left right : Ty, (a.join b >>= fun ab => ab.join c) = .ok left →
      (b.join c >>= fun bc => a.join bc) = .ok right → left = right) ∧
    (∀ a b c : Ty, a.holdsState = false → b.holdsState = false → c.holdsState = false →
      (∃ left, (a.join b >>= fun ab => ab.join c) = .ok left) ∧
        ∃ right, (b.join c >>= fun bc => a.join bc) = .ok right) ∧
    ∀ (tys : List Ty) (chunks : List (List Ty)), (∀ ty ∈ tys, ty.holdsState = false) →
      (∀ chunk ∈ chunks, chunk ≠ []) → chunks.flatten = tys →
      ∃ joined j, chunks.mapM (fun chunk => (joinAll chunk).value) = .ok joined ∧
        (joinAll joined).value = .ok j ∧ (joinAll tys).value = .ok j := by
  refine ⟨fun a b c left right hleft hright => ?_, fun a b c ha hb hc => ?_, ?_⟩
  · obtain ⟨ab, hab, hleft⟩ := bind_eq_ok_iff.mp hleft
    obtain ⟨bc, hbc, hright⟩ := bind_eq_ok_iff.mp hright
    exact join_assoc hab hleft hbc hright
  · obtain ⟨ab, hab⟩ := exists_join ha hb
    obtain ⟨bc, hbc⟩ := exists_join hb hc
    rw [hab, hbc]
    exact ⟨exists_join (holdsState_of_join hab) hc, exists_join ha (holdsState_of_join hbc)⟩
  · rintro tys chunks htys hne rfl
    refine exists_joinAll_flatten hne fun chunk hchunk ty hty => htys ty ?_
    exact List.mem_flatten.mpr ⟨chunk, hchunk, hty⟩

/-- Three pairs with an event refined in one operand and bare in another, and
`any` absorbing on the way; and a list in two pieces. -/
theorem join_associative_pairs :
    ((tuple [nil, int]).join (tuple [event (some "a"), int]) >>= fun ab =>
        ab.join (tuple [event none, bool])) =
      ((tuple [event (some "a"), int]).join (tuple [event none, bool]) >>= fun bc =>
        (tuple [nil, int]).join bc) ∧
    (∃ left, ((tuple [nil, int]).join (tuple [event (some "a"), int]) >>= fun ab =>
      ab.join (tuple [event none, bool])) = .ok left) ∧
    ∃ joined j, [[nil, event (some "a")], [event none]].mapM
        (fun chunk => (joinAll chunk).value) = .ok joined ∧
      (joinAll joined).value = .ok j ∧
      (joinAll [nil, event (some "a"), event none]).value = .ok j := by
  have hleft : ((tuple [nil, int]).join (tuple [event (some "a"), int]) >>= fun ab =>
      ab.join (tuple [event none, bool])) = .ok (tuple [event (some "a"), any]) := rfl
  have hright : ((tuple [event (some "a"), int]).join (tuple [event none, bool]) >>= fun bc =>
      (tuple [nil, int]).join bc) = .ok (tuple [event (some "a"), any]) := rfl
  obtain ⟨hassoc, hreturns, hchunks⟩ := join_associative
  refine ⟨?_, ?_, ?_⟩
  · exact (hleft.trans (congrArg Except.ok (hassoc _ _ _ _ _ hleft hright))).trans hright.symm
  · exact (hreturns _ _ _ rfl rfl rfl).1
  · exact hchunks _ _ (by decide) (by decide) rfl

end MachineTypes.Ty
