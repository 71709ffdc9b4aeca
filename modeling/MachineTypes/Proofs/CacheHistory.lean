import MachineTypes.Proofs.ClassCount
import MachineTypes.Proofs.Reading
import MachineTypes.Session.Run
import Mathlib.Data.List.DropRight

/-!
# A cache answers by its history

A cache is kept as a hash map whose keys are compared by `==`. What it answers can be
said without the map, from the operations it went through since it was empty. What
counts for a key are the values that were put under a key `==` to it since such a
key was last removed (`History.puts`): the last of them is the value, and the first
of them was put under the key that is stored. The size is the number of classes for
which there is such a value.

One more operation either drops what counts for a key, adds to it, or leaves it
(`History.puts_concat`), and the map follows. The invariant of a whole history is
`key?_replay` and `value?_replay`, by induction on its last operation.

The operations that count in a session are those of its steps that work on the cache,
with the types that are in the registers by then.

## Main results

* `Cache.get?_replay`, `Cache.represents_keys_replay` — the entries of a cache and its
  stored keys, from the history.
* `Answers`, `Cache.answers_act` — the answer to an operation, from the history.
* `Session.cache_run`, `Session.step_of_operation?` — a session acts on its cache by the
  operations of its steps.
* `answers_by_history` — all of it, with the classes in a list.
-/

namespace MachineTypes

/-! ## Operations -/

/-- An operation on a cache. -/
inductive Operation where
  | put (key : Ty) (value : Int)
  | get (key : Ty)
  | remove (key : Ty)

namespace Operation

/-- Whether the operation removes what there is for the key. -/
def removes (key : Ty) : Operation → Bool
  | remove other => other == key
  | _ => false

/-- The key and the value that the operation puts, if the key is `==` to the one
given. -/
def putUnder? (key : Ty) : Operation → Option (Ty × Int)
  | put other value => if other == key then some (other, value) else none
  | _ => none

end Operation

/-- The operations on a cache since it was empty, the oldest one first. -/
abbrev History : Type := List Operation

namespace History

/-- What was put under keys `==` to the given one since such a key was last removed,
each with its key, the oldest first. -/
def puts (history : History) (key : Ty) : List (Ty × Int) :=
  (history.rtakeWhile fun operation => !operation.removes key).filterMap (·.putUnder? key)

/-- Some value counts for the key. -/
def Present (history : History) (key : Ty) : Prop := history.puts key ≠ []

/-- The key under which the first of the values was put. -/
def storedKey? (history : History) (key : Ty) : Option Ty :=
  (history.puts key).head?.map Prod.fst

/-- The last of the values. -/
def lastValue? (history : History) (key : Ty) : Option Int :=
  (history.puts key).getLast?.map Prod.snd

/-- The entry that a key has: the key of the first put and the value of the last. -/
def entry? (history : History) (key : Ty) : Option (Ty × Int) :=
  match history.storedKey? key, history.lastValue? key with
  | some stored, some value => some (stored, value)
  | _, _ => none

@[simp] theorem puts_nil (key : Ty) : puts [] key = [] := rfl

/-- What one more operation does to what counts for a key. -/
theorem puts_concat (history : History) (operation : Operation) (key : Ty) :
    puts (history ++ [operation]) key =
      if operation.removes key then [] else
        history.puts key ++ (operation.putUnder? key).toList := by
  rw [puts, List.rtakeWhile_concat]
  cases hremoves : operation.removes key with
  | true => rfl
  | false =>
    have hlast : [operation].filterMap (·.putUnder? key) =
        (operation.putUnder? key).toList := by
      cases hput : operation.putUnder? key <;> simp [hput]
    simp only [Bool.not_false, if_true, List.filterMap_append, hlast, Bool.false_eq_true,
      if_false]
    rw [puts]

end History

/-! ## The cache after a history -/

namespace Cache

/-- What the cache answers to an operation, and the cache after it. -/
def act (cache : Cache) : Operation → Answer × Cache
  | .put key value => (.cached (cache.value? key) (cache.put key value).size, cache.put key value)
  | .get key => (.found (cache.get? key), cache)
  | .remove key => (.cached (cache.value? key) (cache.erase key).size, cache.erase key)

/-- The cache after some operations. -/
def actAll (cache : Cache) (operations : List Operation) : Cache :=
  operations.foldl (fun cache operation => (cache.act operation).2) cache

/-- The cache after a history. -/
def replay (history : History) : Cache := empty.actAll history

theorem actAll_append (cache : Cache) (front back : List Operation) :
    cache.actAll (front ++ back) = (cache.actAll front).actAll back :=
  List.foldl_append

theorem replay_concat (history : History) (operation : Operation) :
    replay (history ++ [operation]) = ((replay history).act operation).2 :=
  actAll_append empty history [operation]

/-- What an operation does to the key that is stored: it is removed, or it stays, or a
first one is put. -/
theorem key?_act (cache : Cache) (operation : Operation) (key : Ty) :
    (cache.act operation).2.key? key =
      if operation.removes key then none else
        (cache.key? key).or ((operation.putUnder? key).map Prod.fst) := by
  cases operation with
  | put other value =>
    simp only [act, key?_put, Operation.removes, Operation.putUnder?]
    by_cases heq : (other == key) = true
    · have hstored : cache.key? other = cache.key? key := Std.HashMap.getKey?_congr heq
      cases hkey : cache.key? key <;> simp [heq, hstored, hkey]
    · simp [heq]
  | get other => simp [act, Operation.removes, Operation.putUnder?]
  | remove other =>
    simp only [act, key?_erase, Operation.removes, Operation.putUnder?]
    by_cases heq : (other == key) = true <;> simp [heq]

/-- What an operation does to the value: it is removed, or a new one is put, or it
stays. -/
theorem value?_act (cache : Cache) (operation : Operation) (key : Ty) :
    (cache.act operation).2.value? key =
      if operation.removes key then none else
        ((operation.putUnder? key).map Prod.snd).or (cache.value? key) := by
  cases operation with
  | put other value =>
    simp only [act, value?_put, Operation.removes, Operation.putUnder?]
    by_cases heq : (other == key) = true <;> simp [heq]
  | get other => simp [act, Operation.removes, Operation.putUnder?]
  | remove other =>
    simp only [act, value?_erase, Operation.removes, Operation.putUnder?]
    by_cases heq : (other == key) = true <;> simp [heq]

/-- The key that a cache has stored is the one of the first put that counts. -/
theorem key?_replay (history : History) (key : Ty) :
    (replay history).key? key = history.storedKey? key := by
  induction history using List.reverseRecOn with
  | nil => exact key?_empty key
  | append_singleton history operation ih =>
    rw [replay_concat, key?_act, ih, History.storedKey?, History.storedKey?,
      History.puts_concat]
    cases operation.removes key with
    | true => rfl
    | false => simp [List.head?_append, Option.map_or]

/-- The value that a cache has is the one of the last put that counts. -/
theorem value?_replay (history : History) (key : Ty) :
    (replay history).value? key = history.lastValue? key := by
  induction history using List.reverseRecOn with
  | nil => exact value?_empty key
  | append_singleton history operation ih =>
    rw [replay_concat, value?_act, ih, History.lastValue?, History.lastValue?,
      History.puts_concat]
    cases operation.removes key with
    | true => rfl
    | false => cases operation.putUnder? key <;> simp [List.getLast?_append]

/-- The entry that a cache has for a key. -/
theorem get?_replay (history : History) (key : Ty) :
    (replay history).get? key = history.entry? key := by
  rw [get?, key?_replay, value?_replay]
  rfl

/-! ## Keys and size -/

/-- A key is in the map when some value counts for it. -/
theorem mem_entries_replay_iff {history : History} {key : Ty} :
    key ∈ (replay history).entries ↔ history.Present key := by
  have hvalue : (replay history).entries[key]? = history.lastValue? key := value?_replay history key
  rw [Std.HashMap.mem_iff_isSome_getElem?, hvalue, History.lastValue?, Option.isSome_map,
    List.getLast?_isSome]
  exact Iff.rfl

/-- The stored keys stand for the classes for which some value counts. -/
theorem represents_keys_replay (history : History) :
    Ty.Represents (replay history).entries.keys history.Present := by
  have h := Ty.represents_keys (replay history).entries
  simpa only [mem_entries_replay_iff] using h

/-- The size is the number of these classes. -/
theorem classCount_replay (history : History) :
    Ty.ClassCount history.Present (replay history).size :=
  ⟨_, represents_keys_replay history, Std.HashMap.length_keys⟩

/-- The stored keys are those of the first puts that count. -/
theorem mem_keys_replay_iff {history : History} {stored : Ty} :
    stored ∈ (replay history).entries.keys ↔ history.storedKey? stored = some stored := by
  rw [← Std.HashMap.map_fst_toList_eq_keys, List.mem_map, ← key?_replay]
  constructor
  · rintro ⟨⟨key, value⟩, hmem, rfl⟩
    exact (Std.HashMap.mem_toList_iff_getKey?_eq_some_and_getElem?_eq_some.mp hmem).1
  · intro h
    have hvalue : ((replay history).value? stored).isSome = true := by
      rw [← isSome_key?, h]
      rfl
    obtain ⟨value, hvalue⟩ := Option.isSome_iff_exists.mp hvalue
    exact ⟨(stored, value),
      Std.HashMap.mem_toList_iff_getKey?_eq_some_and_getElem?_eq_some.mpr ⟨h, hvalue⟩, rfl⟩

end Cache

/-! ## Answers -/

/-- What an operation is to be answered after a history. -/
inductive Answers (history : History) : Operation → Answer → Prop where
  | put {key : Ty} {value : Int} {size : Nat}
      (hsize : Ty.ClassCount (History.Present (history ++ [.put key value])) size) :
      Answers history (.put key value) (.cached (history.lastValue? key) size)
  | get (key : Ty) : Answers history (.get key) (.found (history.entry? key))
  | remove {key : Ty} {size : Nat}
      (hsize : Ty.ClassCount (History.Present (history ++ [.remove key])) size) :
      Answers history (.remove key) (.cached (history.lastValue? key) size)

/-- There is one such answer. -/
theorem Answers.unique {history : History} {operation : Operation} {first second : Answer}
    (hfirst : Answers history operation first) (hsecond : Answers history operation second) :
    first = second := by
  cases hfirst with
  | put hm =>
    cases hsecond with
    | put hn => rw [hm.unique hn]
  | get key =>
    cases hsecond
    rfl
  | remove hm =>
    cases hsecond with
    | remove hn => rw [hm.unique hn]

/-- The cache gives it. -/
theorem Cache.answers_act (history : History) (operation : Operation) :
    Answers history operation ((replay history).act operation).1 := by
  have hsize := classCount_replay (history ++ [operation])
  rw [replay_concat] at hsize
  cases operation with
  | put key value =>
    rw [act, value?_replay]
    exact .put hsize
  | get key =>
    rw [act, get?_replay]
    exact .get key
  | remove key =>
    rw [act, value?_replay]
    exact .remove hsize

theorem Cache.act_eq_iff_answers {history : History} {operation : Operation}
    {answer : Answer} :
    ((replay history).act operation).1 = answer ↔ Answers history operation answer := by
  constructor
  · rintro rfl
    exact answers_act history operation
  · intro h
    exact (answers_act history operation).unique h

/-! ## Caches in a session -/

namespace Session

/-- The operation on the cache that a step of the session is, if it is one and its
register holds a type. -/
def operation? (session : Session) : Step → Option Operation
  | .put key value => session.registers[key]?.map (.put · value)
  | .get key => session.registers[key]?.map .get
  | .remove key => session.registers[key]?.map .remove
  | _ => none

/-- The operations on the cache that the steps are, in their order. -/
def operations (session : Session) : List Step → History
  | [] => []
  | taken :: rest =>
    (session.operation? taken).toList ++ (session.step taken).2.operations rest

/-- A step that is an operation on the cache is answered by the cache, and changes
nothing else. -/
theorem step_of_operation? {session : Session} {taken : Step} {operation : Operation}
    (h : session.operation? taken = some operation) :
    session.step taken = (.quiet (.ok (session.cache.act operation).1),
      { session with cache := (session.cache.act operation).2 }) := by
  cases taken <;> simp only [operation?, reduceCtorEq] at h
  all_goals
    obtain ⟨ty, hty, rfl⟩ := Option.map_eq_some_iff.mp h
    rw [step, act]
    simp only [read, hty]
    rfl

private theorem cache_of_act {session next : Session} {taken : Step} {answer : Answer}
    (hnone : session.operation? taken = none)
    (h : (session.act taken).value = .ok (answer, next)) : next.cache = session.cache := by
  -- A step that would be an operation finds nothing in its register, and so answers nothing.
  have hread : ∀ {register : String} {ty : Ty} {f : Ty → Operation},
      session.registers[register]?.map f = none → session.read register ≠ .ok ty := by
    intro register ty f hmap hread
    rw [read, Option.map_eq_none_iff.mp hmap] at hread
    cases hread
  cases taken with
  | define target recipe =>
    obtain ⟨made, -, heq⟩ := map_eq_ok_iff.mp h
    cases made <;> cases heq <;> rfl
  | compare left right =>
    obtain ⟨a, -, h⟩ := bind_eq_ok_iff.mp h
    obtain ⟨b, -, h⟩ := bind_eq_ok_iff.mp h
    cases h
    rfl
  | display of =>
    obtain ⟨ty, -, h⟩ := bind_eq_ok_iff.mp h
    cases h
    rfl
  | read of =>
    obtain ⟨ty, -, h⟩ := bind_eq_ok_iff.mp h
    cases h
    rfl
  | put key value =>
    obtain ⟨ty, hty, -⟩ := bind_eq_ok_iff.mp h
    exact absurd hty (hread hnone)
  | get key =>
    obtain ⟨ty, hty, -⟩ := bind_eq_ok_iff.mp h
    exact absurd hty (hread hnone)
  | remove key =>
    obtain ⟨ty, hty, -⟩ := bind_eq_ok_iff.mp h
    exact absurd hty (hread hnone)

/-- Any other step leaves the cache as it is. -/
theorem cache_step_of_operation?_eq_none {session : Session} {taken : Step}
    (h : session.operation? taken = none) : (session.step taken).2.cache = session.cache := by
  unfold step
  split
  · next answer next log hact =>
    have hvalue : (session.act taken).value = .ok (answer, next) := by rw [hact]
    exact cache_of_act h hvalue
  · rfl

/-- A session acts on its cache by the operations that its steps are. -/
theorem cache_run (session : Session) (steps : List Step) :
    (session.run steps).2.cache = session.cache.actAll (session.operations steps) := by
  induction steps generalizing session with
  | nil => rfl
  | cons taken rest ih =>
    have hstep : (session.step taken).2.cache =
        session.cache.actAll (session.operation? taken).toList := by
      cases hoperation : session.operation? taken with
      | none => exact cache_step_of_operation?_eq_none hoperation
      | some operation =>
        rw [step_of_operation? hoperation]
        rfl
    rw [operations, Cache.actAll_append, ← hstep]
    exact ih (session.step taken).2

/-- A step that is an operation on the cache of a session is answered by what the
session did to its cache before. -/
theorem step_eq_ok_iff_answers {registry : Registry} {steps : List Step} {taken : Step}
    {operation : Operation} {answer : Answer}
    (h : ((start registry).run steps).2.operation? taken = some operation) :
    (((start registry).run steps).2.step taken).1.value = .ok answer ↔
      Answers ((start registry).operations steps) operation answer := by
  have hcache : ((start registry).run steps).2.cache =
      Cache.replay ((start registry).operations steps) := cache_run (start registry) steps
  rw [step_of_operation? h, hcache, ← Cache.act_eq_iff_answers]
  exact ⟨Except.ok.inj, congrArg Except.ok⟩

end Session

/-! ## All of it -/

/-- **A hash map keyed by types is a finite map on types up to refinements.** After any
history it answers as `Answers` says, its stored keys are those of the first puts that
count and no two of them are `==`, and its size is the number of classes present. So
does the cache of a session, for what the session did to it. And what is reported of a
list of types is for each item the place of the first item `==` to it, and how many
classes there are. -/
theorem answers_by_history :
    (∀ (history : History) (operation : Operation) (answer : Answer),
      ((Cache.replay history).act operation).1 = answer ↔ Answers history operation answer) ∧
    (∀ history : History,
      ((Cache.replay history).entries.keys.Pairwise fun a b => (a == b) = false) ∧
      (∀ stored : Ty, stored ∈ (Cache.replay history).entries.keys ↔
        history.storedKey? stored = some stored) ∧
      Ty.ClassCount history.Present (Cache.replay history).size) ∧
    (∀ (registry : Registry) (steps : List Step) (taken : Step) (operation : Operation)
      (answer : Answer),
      ((Session.start registry).run steps).2.operation? taken = some operation →
        ((((Session.start registry).run steps).2.step taken).1.value = .ok answer ↔
          Answers ((Session.start registry).operations steps) operation answer)) ∧
    ∀ tys : List Ty,
      (Ty.firstEqual tys).length = tys.length ∧
      (∀ (i : Nat) (ty : Ty), tys[i]? = some ty → ∃ (first : Nat) (other : Ty),
        (Ty.firstEqual tys)[i]? = some first ∧ tys[first]? = some other ∧
        (other == ty) = true ∧ ∀ (k : Nat) (earlier : Ty), k < first →
          tys[k]? = some earlier → (earlier == ty) = false) ∧
      Ty.ClassCount (· ∈ tys) (Ty.classCount tys) := by
  refine ⟨fun history operation answer => Cache.act_eq_iff_answers,
    fun history => ⟨(Cache.represents_keys_replay history).distinct,
      fun stored => Cache.mem_keys_replay_iff, Cache.classCount_replay history⟩,
    fun registry steps taken operation answer h => Session.step_eq_ok_iff_answers h,
    fun tys => ⟨?_, fun i ty h => Ty.getElem?_firstEqual h, Ty.classCount_eq tys⟩⟩
  rw [Ty.firstEqual_eq_map, List.length_map]

/-- A value put under an event with a refinement is found under one with another, with
the key as it was put; and of three types the last is reported at the first. -/
theorem answers_by_history_events :
    (((Session.start Registry.canonical.value).run
        [.define "k" (.event "tick"), .define "u" (.event "tock"), .put "k" 1]).2.step
      (.get "u")).1.value = .ok (.found (some (.event (some "tick"), 1))) ∧
    ∃ (first : Nat) (other : Ty),
      (Ty.firstEqual [.event (some "a"), .nil, .event none])[2]? = some first ∧
      [Ty.event (some "a"), .nil, .event none][first]? = some other ∧
      (other == .event none) = true ∧ ∀ (k : Nat) (earlier : Ty), k < first →
        [Ty.event (some "a"), .nil, .event none][k]? = some earlier →
          (earlier == .event none) = false := by
  obtain ⟨-, -, hsessions, hlists⟩ := answers_by_history
  refine ⟨?_, (hlists _).2.1 2 _ rfl⟩
  let defines := [Step.define "k" (.event "tick"), .define "u" (.event "tock")]
  have hwritten : ((Session.start Registry.canonical.value).run defines).2 =
      ((Session.start Registry.canonical.value).write "k" (.event (some "tick"))).write "u"
        (.event (some "tock")) := rfl
  have hput : ((Session.start Registry.canonical.value).run defines).2.operation?
      (.put "k" 1) = some (.put (.event (some "tick")) 1) := by
    simp [hwritten, Session.operation?, Session.write, Std.HashMap.getElem_insert]
  have hget : ((Session.start Registry.canonical.value).run (defines ++ [.put "k" 1])).2.operation?
      (.get "u") = some (.get (.event (some "tock"))) := by
    rw [Session.run_append]
    simp only [Session.run, Session.step_of_operation? hput]
    simp [hwritten, Session.operation?, Session.write]
  have hhistory : (Session.start Registry.canonical.value).operations (defines ++ [.put "k" 1]) =
      [.put (.event (some "tick")) 1] := by
    show (((Session.start Registry.canonical.value).run defines).2.operation?
      (.put "k" 1)).toList ++ [] = _
    rw [hput]
    rfl
  refine (hsessions _ _ _ _ _ hget).mpr ?_
  rw [hhistory]
  exact .get _

end MachineTypes
