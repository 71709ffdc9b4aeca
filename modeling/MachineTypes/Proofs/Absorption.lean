import MachineTypes.Proofs.Weight
import Mathlib.Data.Nat.Find

/-!
# When the join of a list becomes `any`

The fold that joins a list reports the operand that made it `any`. What it looks
at is what it has in hand: the type joined so far was not `any`, and the next one
is. What it reports is a fact about the list. Up to that operand the types of the
list have a common supertype besides `any`, and with it they have none.

The two meet in the types that the fold runs through (`accumulated`). In place `i`
stands the join of the types up to index `i` of the list
(`accumulated_getElem?_eq_some_iff`), so the first place of `any` there is the
index that is reported (`joinAll_cons_log`). A join is `any` when nothing else is
above its operands, and from then on it stays so, as fewer types are above more
operands.

## Main results

* `joinAll_cons_log` — the log, read off what the fold runs through.
* `absorbedBy_iff` — having `any` for the only common supertype, and being joined
  to it.
* `joinAll_log_eq_iff` — which index is logged.
* `joinAll_logs_absorption` — all of it together, and that operands to come change
  nothing in it.
-/

namespace MachineTypes.Ty

/-! ## The types that a fold runs through, by index -/

/-- In place `i` a fold has what the fold over the first `i` operands ends in. -/
theorem accumulated_getElem?_eq_some_iff {acc ty : Ty} {tys : List Ty} {i : Nat} :
    (accumulated acc tys)[i]? = some ty ↔
      i ≤ tys.length ∧ (tys.take i).foldlM join acc = .ok ty := by
  induction tys generalizing acc i with
  | nil =>
    cases i with
    | zero => simp [accumulated, pure, Except.pure]
    | succ i => simp [accumulated]
  | cons operand rest ih =>
    cases hjoin : acc.join operand with
    | error violation =>
      rw [accumulated_cons_of_error hjoin]
      cases i with
      | zero => simp [pure, Except.pure]
      | succ i => simp [hjoin, bind, Except.bind]
    | ok joined =>
      rw [accumulated_cons_of_ok hjoin]
      cases i with
      | zero => simp [pure, Except.pure]
      | succ i => simp [hjoin, bind, Except.bind, ih]

/-- The same for the join of a list: in place `i` of the list, it has the join of
the types up to there. -/
theorem accumulated_getElem?_iff_joinAll {first ty : Ty} {rest : List Ty} {i : Nat} :
    (accumulated first rest)[i]? = some ty ↔
      i < (first :: rest).length ∧
        (joinAll ((first :: rest).take (i + 1))).value = .ok ty := by
  rw [accumulated_getElem?_eq_some_iff, List.take_succ_cons, joinAll_cons_value,
    List.length_cons, Nat.lt_succ_iff]

/-! ## The log of a fold -/

/-- A fold that does not start from `any` logs the first place where it has `any`.
It counts from the type it starts from, whose index is `index`. -/
theorem joinFrom_log {acc : Ty} (hacc : acc ≠ any) (index : Nat) (tys : List Ty) :
    (joinFrom acc (index + 1) tys).log =
      ((accumulated acc tys).findIdx? isAny).toList.map fun i => .absorbed (index + i) := by
  have hfirst : acc.isAny = false := isAny_eq_false_iff.mpr hacc
  induction tys generalizing acc index with
  | nil => simp [joinFrom, accumulated, Logged.quiet, List.findIdx?_cons, hfirst]
  | cons operand rest ih =>
    rw [joinFrom]
    cases hjoin : acc.join operand with
    | error violation =>
      rw [accumulated_cons_of_error hjoin]
      simp [Logged.quiet, List.findIdx?_cons, hfirst]
    | ok joined =>
      rw [accumulated_cons_of_ok hjoin, List.findIdx?_cons, hfirst]
      by_cases hany : joined = any
      · -- The fold has become `any` with this operand, and logs nothing after it.
        subst hany
        obtain ⟨later, hlater⟩ := exists_accumulated_eq_cons any rest
        simp [isAny, joinFrom_any_log, hlater, List.findIdx?_cons]
      · have hjoined : joined.isAny = false := isAny_eq_false_iff.mpr hany
        have hrest := ih hany (index + 1) hjoined
        simp [hjoined, hrest, Option.toList_map, Function.comp_def, Nat.add_assoc,
          Nat.add_comm 1]

/-- The join of a list that does not start with `any` logs the index of the first
type up to which the join is `any`. -/
theorem joinAll_cons_log {first : Ty} (h : first ≠ any) (rest : List Ty) :
    (joinAll (first :: rest)).log =
      ((accumulated first rest).findIdx? isAny).toList.map .absorbed := by
  rw [joinAll, joinFrom_log h 0 rest]
  simp

/-- The join of a list logs one event at the most. -/
theorem joinAll_log_eq_nil_or_singleton (tys : List Ty) :
    (joinAll tys).log = [] ∨ ∃ k, (joinAll tys).log = [.absorbed k] := by
  cases tys with
  | nil => exact .inl rfl
  | cons first rest =>
    by_cases hany : first = any
    · subst hany
      exact .inl (joinFrom_any_log 1 rest)
    · rw [joinAll_cons_log hany]
      cases (accumulated first rest).findIdx? isAny with
      | none => exact .inl rfl
      | some k => exact .inr ⟨k, rfl⟩

/-! ## Where nothing but `any` is left -/

/-- With the type of index `k`, which is not the first of the list, the types so
far have a join, and nothing but `any` is above all of them. -/
structure AbsorbedBy (tys : List Ty) (k : Nat) : Prop where
  operand : 0 < k ∧ k < tys.length
  returns : ∃ j, (joinAll (tys.take (k + 1))).value = .ok j
  only : ∀ bound : Ty, UpperBound (tys.take (k + 1)) bound ↔ bound = any

private theorem take_succ_ne_nil {tys : List Ty} {k : Nat} (h : k < tys.length) :
    tys.take (k + 1) ≠ [] := by
  cases tys with
  | nil => simp at h
  | cons first rest => simp

/-- The types so far are absorbed when their join is `any`. -/
theorem absorbedBy_iff {tys : List Ty} {k : Nat} :
    AbsorbedBy tys k ↔
      (0 < k ∧ k < tys.length) ∧ (joinAll (tys.take (k + 1))).value = .ok any := by
  constructor
  · rintro ⟨hoperand, ⟨j, hj⟩, honly⟩
    have hleast := leastUpperBound_joinAll (take_succ_ne_nil hoperand.2) hj
    obtain rfl : j = any := (honly j).mp hleast.upper
    exact ⟨hoperand, hj⟩
  · rintro ⟨hoperand, hany⟩
    have hleast := leastUpperBound_joinAll (take_succ_ne_nil hoperand.2) hany
    refine ⟨hoperand, ⟨any, hany⟩, fun bound => ⟨fun hbound => ?_, ?_⟩⟩
    · exact any_isSubtype_iff.mp (hleast.below bound hbound)
    · rintro rfl
      exact hleast.upper

/-- Whether the types up to some index are absorbed does not depend on what
follows. -/
theorem absorbedBy_append_iff {tys later : List Ty} {k : Nat} (h : k < tys.length) :
    AbsorbedBy (tys ++ later) k ↔ AbsorbedBy tys k := by
  rw [absorbedBy_iff, absorbedBy_iff, List.take_append_of_le_length h, List.length_append]
  have hlength : k < tys.length + later.length := by omega
  simp [h, hlength]

/-- Once the types are absorbed, all joins of more of them are `any`. -/
theorem AbsorbedBy.eq_any {tys : List Ty} {k i : Nat} {ty : Ty} (h : AbsorbedBy tys k)
    (hki : k ≤ i) (hi : i < tys.length)
    (hty : (joinAll (tys.take (i + 1))).value = .ok ty) : ty = any := by
  have hbound : UpperBound (tys.take (i + 1)) ty :=
    (leastUpperBound_joinAll (take_succ_ne_nil hi) hty).upper
  have hfewer : tys.take (k + 1) <+: tys.take (i + 1) :=
    List.take_prefix_take_left (by omega)
  exact (h.only ty).mp fun other hother => hbound other (hfewer.subset hother)

/-- In a list that does not start with `any` the types are absorbed where the fold
has `any`. -/
theorem absorbedBy_iff_accumulated {first : Ty} (h : first ≠ any) {rest : List Ty} {k : Nat} :
    AbsorbedBy (first :: rest) k ↔ (accumulated first rest)[k]? = some any := by
  rw [absorbedBy_iff, accumulated_getElem?_iff_joinAll]
  constructor
  · rintro ⟨⟨-, hlength⟩, hany⟩
    exact ⟨hlength, hany⟩
  · rintro ⟨hlength, hany⟩
    refine ⟨⟨Nat.pos_of_ne_zero fun hzero => ?_, hlength⟩, hany⟩
    subst hzero
    exact h (Except.ok.inj hany)

/-! ## What is logged -/

/-- The first place of `any` in a list. -/
private theorem findIdx?_isAny_eq_some_iff {tys : List Ty} {k : Nat} :
    tys.findIdx? isAny = some k ↔
      tys[k]? = some any ∧ ∀ i, tys[i]? = some any → k ≤ i := by
  rw [List.findIdx?_eq_some_iff_getElem]
  constructor
  · rintro ⟨hk, hany, hbefore⟩
    refine ⟨List.getElem?_eq_some_iff.mpr ⟨hk, isAny_iff.mp hany⟩, fun i hi => ?_⟩
    obtain ⟨hlength, htop⟩ := List.getElem?_eq_some_iff.mp hi
    by_cases hik : i < k
    · exact absurd (isAny_iff.mpr htop) (hbefore i hik)
    · omega
  · rintro ⟨hany, hleast⟩
    obtain ⟨hk, htop⟩ := List.getElem?_eq_some_iff.mp hany
    refine ⟨hk, isAny_iff.mpr htop, fun i hi hearlier => ?_⟩
    have hki : k ≤ i :=
      hleast i (List.getElem?_eq_some_iff.mpr ⟨by omega, isAny_iff.mp hearlier⟩)
    omega

/-- An index is logged when the list does not start with `any` and this is the
first index up to which its types are absorbed. -/
theorem joinAll_log_eq_iff {tys : List Ty} {k : Nat} :
    (joinAll tys).log = [.absorbed k] ↔
      (∃ first rest, tys = first :: rest ∧ first ≠ any) ∧ AbsorbedBy tys k ∧
        ∀ i, AbsorbedBy tys i → k ≤ i := by
  cases tys with
  | nil => simp
  | cons first rest =>
    by_cases hany : first = any
    · subst hany
      have hlog : (joinAll (any :: rest)).log = [] := joinFrom_any_log 1 rest
      simp [hlog]
    · have hstart : ∃ head tail, first :: rest = head :: tail ∧ head ≠ any :=
        ⟨first, rest, rfl, hany⟩
      have hlog : (joinAll (first :: rest)).log = [.absorbed k] ↔
          (accumulated first rest).findIdx? isAny = some k := by
        rw [joinAll_cons_log hany]
        cases (accumulated first rest).findIdx? isAny <;> simp
      simp only [absorbedBy_iff_accumulated hany]
      rw [hlog, findIdx?_isAny_eq_some_iff, and_iff_right hstart]

/-- Something is logged when the list does not start with `any` and its types are
absorbed up to some index. -/
theorem joinAll_log_ne_nil_iff {tys : List Ty} :
    (joinAll tys).log ≠ [] ↔
      (∃ first rest, tys = first :: rest ∧ first ≠ any) ∧ ∃ k, AbsorbedBy tys k := by
  constructor
  · intro h
    obtain hnil | ⟨k, hk⟩ := joinAll_log_eq_nil_or_singleton tys
    · exact absurd hnil h
    · obtain ⟨hstart, habsorbed, -⟩ := joinAll_log_eq_iff.mp hk
      exact ⟨hstart, k, habsorbed⟩
  · rintro ⟨hstart, hsome⟩
    classical
    have hlog : (joinAll tys).log = [.absorbed (Nat.find hsome)] :=
      joinAll_log_eq_iff.mpr ⟨hstart, Nat.find_spec hsome, fun i hi => Nat.find_min' hsome hi⟩
    simp [hlog]

/-- Types that follow change nothing in what was logged, whatever the join of the
longer list ends in. -/
theorem joinAll_log_append {tys : List Ty} {k : Nat} (h : (joinAll tys).log = [.absorbed k])
    (later : List Ty) : (joinAll (tys ++ later)).log = [.absorbed k] := by
  obtain ⟨⟨first, rest, rfl, hfirst⟩, habsorbed, hleast⟩ := joinAll_log_eq_iff.mp h
  have hk : k < (first :: rest).length := habsorbed.operand.2
  refine joinAll_log_eq_iff.mpr ⟨⟨first, rest ++ later, rfl, hfirst⟩,
    (absorbedBy_append_iff hk).mpr habsorbed, fun i hi => ?_⟩
  by_cases hik : i < k
  · exact hleast i ((absorbedBy_append_iff (by omega)).mp hi)
  · omega

/-- **What the join of a list logs.** It logs one event at the most. It logs one
exactly when the list does not start with `any` and there is an index after the
first up to which the types have a join and `any` for their only common supertype;
the event carries the least such index. From there on the join of the types so far
is `any`, wherever they have one. And the event is the same whatever follows in the
list, even where `state` ends the join in a violation. -/
theorem joinAll_logs_absorption (tys : List Ty) :
    ((joinAll tys).log = [] ∨ ∃ k, (joinAll tys).log = [.absorbed k]) ∧
    ((joinAll tys).log ≠ [] ↔
      (∃ first rest, tys = first :: rest ∧ first ≠ any) ∧ ∃ k, AbsorbedBy tys k) ∧
    ∀ k, (joinAll tys).log = [.absorbed k] →
      AbsorbedBy tys k ∧ (∀ i, AbsorbedBy tys i → k ≤ i) ∧
      (∀ (i : Nat) (ty : Ty), k ≤ i → i < tys.length →
        (joinAll (tys.take (i + 1))).value = .ok ty → ty = any) ∧
      ∀ later : List Ty, (joinAll (tys ++ later)).log = [.absorbed k] := by
  refine ⟨joinAll_log_eq_nil_or_singleton tys, joinAll_log_ne_nil_iff, fun k hlog => ?_⟩
  obtain ⟨-, habsorbed, hleast⟩ := joinAll_log_eq_iff.mp hlog
  exact ⟨habsorbed, hleast, fun i ty => habsorbed.eq_any, joinAll_log_append hlog⟩

/-- Two pairs that are widened, then a sequence that has nothing but `any` in common
with them, and then a `state`, which ends the join: what is logged, and what the
statement says of the types before the last. -/
theorem joinAll_logs_absorption_pairs :
    (joinAll [tuple [nil, int], tuple [id, bool], sequence int, tuple []]).log =
        [.absorbed 2] ∧
      AbsorbedBy [tuple [nil, int], tuple [id, bool], sequence int, tuple []] 2 ∧
      (∀ ty : Ty, (joinAll [tuple [nil, int], tuple [id, bool], sequence int, tuple []]).value =
        .ok ty → ty = any) ∧
      (joinAll [tuple [nil, int], tuple [id, bool], sequence int, tuple [], state]).value =
        .error (.stateJoined any state) ∧
      (joinAll [tuple [nil, int], tuple [id, bool], sequence int, tuple [], state]).log =
        [.absorbed 2] := by
  have hlog : (joinAll [tuple [nil, int], tuple [id, bool], sequence int, tuple []]).log =
      [.absorbed 2] := rfl
  obtain ⟨-, -, hevent⟩ :=
    joinAll_logs_absorption [tuple [nil, int], tuple [id, bool], sequence int, tuple []]
  obtain ⟨habsorbed, -, hafter, hlater⟩ := hevent 2 hlog
  exact ⟨hlog, habsorbed, fun ty => hafter 3 ty (by decide) (by decide), rfl, hlater [state]⟩

end MachineTypes.Ty
