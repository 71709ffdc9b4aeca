import MachineTypes.Error
import MachineTypes.Fields.Basic

/-!
# Joining two types

`a.join b` types the point where a value of type `a` and a value of type `b`
meet: two arms of a conditional, two members of one collection.

* A type joined with itself is itself, with the first operand's refinement.
* `nil` gives way to `id` and to an event type, from either side.
* Tuples of one length, named tuples with the same names and sequences are
  joined component by component.
* All else meets in `any`.

`state` may not reach a join. It is looked for in the two operands and again
wherever components are joined, from left to right; the first place where it
is met is reported. Compounds of different shapes are not looked into.
-/

namespace MachineTypes.Ty

mutual

/-- The least type above both operands. -/
def join : Ty → Ty → Except Violation Ty
  | state, b => .error (.stateJoined state b)
  | a, state => .error (.stateJoined a state)
  | nil, nil => .ok nil
  | bool, bool => .ok bool
  | int, int => .ok int
  | id, id | nil, id | id, nil => .ok id
  | event refinement, event _ | nil, event refinement | event refinement, nil =>
    .ok (event refinement)
  | tuple as, tuple bs =>
    if as.length = bs.length then (joinEach as bs).map tuple else .ok any
  | namedTuple as, namedTuple bs =>
    if Fields.names as = Fields.names bs then (joinFields as bs).map namedTuple else .ok any
  | sequence a, sequence b => (join a b).map sequence
  | _, _ => .ok any

/-- The joins of two lists, position by position. -/
def joinEach : List Ty → List Ty → Except Violation (List Ty)
  | a :: as, b :: bs => do
    let joined ← join a b
    let rest ← joinEach as bs
    return joined :: rest
  | _, _ => .ok []

/-- The joins of two field lists with the same names, position by position. -/
def joinFields :
    List (String × Ty) → List (String × Ty) → Except Violation (List (String × Ty))
  | (name, a) :: as, (_, b) :: bs => do
    let joined ← join a b
    let rest ← joinFields as bs
    return (name, joined) :: rest
  | _, _ => .ok []

end

/-! ## The rules, one by one -/

/-- A `state` on the left is reported whatever it meets. -/
@[simp] theorem join_state_left (ty : Ty) :
    state.join ty = .error (.stateJoined state ty) := by
  cases ty <;> simp [join]

/-- A `state` on the right is reported whatever it meets. -/
@[simp] theorem join_state_right (ty : Ty) :
    ty.join state = .error (.stateJoined ty state) := by
  cases ty <;> simp [join]

/-- All types but `state` are absorbed by `any` on the right. -/
theorem join_any_right {ty : Ty} (h : ty ≠ state) : ty.join any = .ok any := by
  cases ty <;> simp_all [join]

/-- All types but `state` are absorbed by `any` on the left. -/
theorem join_any_left {ty : Ty} (h : ty ≠ state) : any.join ty = .ok any := by
  cases ty <;> simp_all [join]

/-- Tuples of different lengths meet in `any`, whatever they hold. -/
theorem join_tuple_of_length_ne {as bs : List Ty} (h : as.length ≠ bs.length) :
    (tuple as).join (tuple bs) = .ok any := by
  simp [join, h]

/-- Named tuples with different names meet in `any`, whatever they hold. -/
theorem join_namedTuple_of_names_ne {as bs : List Field} (h : Fields.names as ≠ Fields.names bs) :
    (namedTuple as).join (namedTuple bs) = .ok any := by
  simp [join, h]

/-- Joining field lists of one shape keeps the names. -/
theorem names_joinFields {as bs joined : List Field}
    (hnames : Fields.names as = Fields.names bs) (h : joinFields as bs = .ok joined) :
    Fields.names joined = Fields.names as := by
  induction as generalizing bs joined with
  | nil =>
    simp only [joinFields, Except.ok.injEq] at h
    simp [← h]
  | cons field rest ih =>
    obtain ⟨name, a⟩ := field
    match bs, hnames with
    | (_, b) :: bs, hnames =>
      simp only [Fields.names_cons, List.cons.injEq] at hnames
      cases hjoin : a.join b with
      | error violation => simp [joinFields, hjoin, bind, Except.bind] at h
      | ok head =>
        cases hrest : joinFields rest bs with
        | error violation => simp [joinFields, hjoin, hrest, bind, Except.bind] at h
        | ok tail =>
          simp only [joinFields, hjoin, hrest, bind, Except.bind, pure, Except.pure,
            Except.ok.injEq] at h
          simp [← h, ih hnames.2 hrest]

end MachineTypes.Ty
