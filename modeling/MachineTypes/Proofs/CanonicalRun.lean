import MachineTypes.Proofs.CommonPosition
import MachineTypes.Proofs.Reading
import MachineTypes.Session.Run

/-!
# Every type in a run is canonical

A session is given its types in many ways: a registry looks them up, a reader
reads them, constructors and joins build them from others, a component is taken
out of a compound, a cache hands a key back. None of them makes a named tuple
whose fields are out of order, and so none can be found in a session, however
long it has run.

The invariant is `Session.Canonical`. A single recipe keeps to it by
`canonical_of_make`, a step by `canonical_step`, and a whole history by
`canonical_of_reachable`.

A join puts named tuples together without looking at the order of their names.
It may do so because the names are those of its operands: `Assembles` says which
field lists it puts together on the way, and `ascending_of_assembles` that they
ascend.

## Main results

* `canonical_iff_within` — canonical types, by the named tuples in them.
* `canonical_step` — a step of a canonical session answers canonical types and
  leaves the session canonical.
* `ascending_of_reachable` — all named tuples in reach of a session ascend.
-/

namespace MachineTypes

namespace Ty

/-! ## The named tuples in a type -/

/-- One type occurs in another: it is that type, or it occurs in a part of it. -/
inductive Within : Ty → Ty → Prop where
  | refl (ty : Ty) : Within ty ty
  | part {inner part outer : Ty} (hpart : part ∈ outer.parts) (h : Within inner part) :
      Within inner outer

/-- A type is canonical when all named tuples that occur in it ascend. -/
theorem canonical_iff_within {ty : Ty} :
    ty.Canonical ↔ ∀ fields, Within (namedTuple fields) ty → Fields.Ascending fields := by
  constructor
  · intro h fields hwithin
    induction hwithin with
    | refl => exact h.1
    | part hpart _ ih =>
      obtain ⟨i, hi⟩ := List.mem_iff_getElem?.mp hpart
      exact ih ((canonical_iff_parts.mp h).2 i _ hi)
  · intro h
    induction ty using parts_induction with
    | step ty ih =>
      refine canonical_iff_parts.mpr ⟨fun shape hshape => ?_, fun i part hi => ?_⟩
      · cases ty with
        | namedTuple fields =>
          obtain rfl := Option.some.inj hshape
          exact h fields (.refl _)
        | tuple | sequence =>
          obtain rfl := Option.some.inj hshape
          trivial
        | _ => cases hshape
      · exact ih i part hi fun fields hwithin =>
          h fields (.part (List.mem_of_getElem? hi) hwithin)

/-! ## The field lists that a join puts together -/

/-- While the two types are joined, these fields are made a named tuple: those
of the join itself, or of a join of two parts in one place. -/
inductive Assembles : Ty → Ty → List Field → Prop where
  | here {as bs joined : List Field} (hnames : Fields.names as = Fields.names bs)
      (h : joinFields as bs = .ok joined) : Assembles (namedTuple as) (namedTuple bs) joined
  | part {a b x y : Ty} {shape : Shape} {i : Nat} {joined : List Field}
      (ha : a.shape? = some shape) (hb : b.shape? = some shape)
      (hx : a.parts[i]? = some x) (hy : b.parts[i]? = some y) (h : Assembles x y joined) :
      Assembles a b joined

/-- A join of canonical types puts ascending field lists together only. -/
theorem ascending_of_assembles {a b : Ty} {joined : List Field} (h : Assembles a b joined)
    (ha : a.Canonical) (hb : b.Canonical) : Fields.Ascending joined := by
  induction h with
  | here hnames h =>
    rw [Fields.Ascending, names_joinFields hnames h]
    exact ha.1
  | part _ _ hx hy _ ih =>
    exact ih ((canonical_iff_parts.mp ha).2 _ _ hx) ((canonical_iff_parts.mp hb).2 _ _ hy)

/-! ## Canonical types from canonical types -/

theorem canonical_ofKind (kind : Kind) : (ofKind kind).Canonical := by
  cases kind <;> trivial

theorem Canonical.nest {ty : Ty} (h : ty.Canonical) (depth : Nat) : (ty.nest depth).Canonical := by
  induction depth with
  | zero => exact h
  | succ depth ih => exact ih

end Ty

namespace Registry

private theorem canonical_of_mem_bind {spelling : String} {kind : Kind}
    {types : List (String × Ty)} (htypes : ∀ entry ∈ types, entry.2.Canonical) :
    ∀ entry ∈ bind spelling (Ty.ofKind kind) types, entry.2.Canonical := by
  induction types with
  | nil => exact List.forall_mem_singleton.mpr (Ty.canonical_ofKind kind)
  | cons first rest ih =>
    obtain ⟨hfirst, hrest⟩ := List.forall_mem_cons.mp htypes
    rw [bind]
    split
    · exact List.forall_mem_cons.mpr ⟨Ty.canonical_ofKind kind, hrest⟩
    · exact List.forall_mem_cons.mpr ⟨hfirst, ih hrest⟩

private theorem canonical_of_mem_foldl_bind (entries : List (String × Kind)) :
    ∀ types : List (String × Ty), (∀ entry ∈ types, entry.2.Canonical) →
      ∀ entry ∈ entries.foldl (fun types entry => bind entry.1 (Ty.ofKind entry.2) types) types,
        entry.2.Canonical := by
  induction entries with
  | nil => exact fun types htypes => htypes
  | cons first rest ih => exact fun types htypes => ih _ (canonical_of_mem_bind htypes)

/-- A registry holds canonical types, whatever table it was built from. -/
theorem canonical_of_mem_build {spellings : Spellings} {entry : String × Ty}
    (h : entry ∈ (build spellings).value.types) : entry.2.Canonical :=
  canonical_of_mem_foldl_bind spellings.entries [] (by simp) entry h

end Registry

/-- The types that an answer gives out. -/
def Answer.types : Answer → List Ty
  | .defined ty | .held ty => [ty]
  | .found (some (stored, _)) => [stored]
  | .found none | .absent | .compared _ | .displayed _ | .cached _ _ => []

namespace Session

/-! ## What a session holds -/

/-- A type stands in the registry, in a register or in the cache of a session. -/
inductive Holds (session : Session) : Ty → Prop where
  | registry {spelling : String} {ty : Ty} (h : (spelling, ty) ∈ session.registry.types) :
      Holds session ty
  | register {register : String} {ty : Ty} (h : session.read register = .ok ty) :
      Holds session ty
  | key {key stored : Ty} (h : session.cache.key? key = some stored) : Holds session stored

/-- Every type that the session holds is canonical. -/
def Canonical (session : Session) : Prop := ∀ ty, session.Holds ty → ty.Canonical

/-- What is read from a register is what was last written to it. -/
theorem read_write {session : Session} {register other : String} {ty : Ty} :
    (session.write register ty).read other =
      if register = other then .ok ty else session.read other := by
  rw [read, write, Std.HashMap.getElem?_insert]
  by_cases h : register = other
  · simp [h]
  · simp [h, read]

/-- The key of an entry of the cache is one that the session holds. -/
theorem holds_of_get? {session : Session} {key stored : Ty} {value : Int}
    (h : session.cache.get? key = some (stored, value)) : session.Holds stored := by
  unfold Cache.get? at h
  split at h
  · next hkey _ =>
    cases h
    exact .key hkey
  · cases h

/-! ## Reading a canonical session -/

theorem Canonical.read {session : Session} {register : String} {ty : Ty}
    (hsession : session.Canonical) (h : session.read register = .ok ty) : ty.Canonical :=
  hsession ty (.register h)

theorem Canonical.readEach {session : Session} {registers : List String} {tys : List Ty}
    (hsession : session.Canonical) (h : session.readEach registers = .ok tys) :
    ∀ ty ∈ tys, ty.Canonical := by
  induction registers generalizing tys with
  | nil =>
    cases h
    exact fun ty hmem => absurd hmem List.not_mem_nil
  | cons register rest ih =>
    obtain ⟨head, hhead, h⟩ := bind_eq_ok_iff.mp h
    obtain ⟨tail, htail, h⟩ := bind_eq_ok_iff.mp h
    cases h
    exact List.forall_mem_cons.mpr ⟨hsession.read hhead, ih htail⟩

theorem Canonical.readFields {session : Session} {given : List (String × String)}
    {fields : List Field} (hsession : session.Canonical)
    (h : session.readFields given = .ok fields) : Ty.CanonicalFields fields := by
  induction given generalizing fields with
  | nil =>
    cases h
    trivial
  | cons first rest ih =>
    obtain ⟨head, hhead, h⟩ := bind_eq_ok_iff.mp h
    obtain ⟨tail, htail, h⟩ := bind_eq_ok_iff.mp h
    cases h
    exact ⟨hsession.read hhead, ih htail⟩

theorem Canonical.lookup {session : Session} {spelling : String} {ty : Ty}
    (hsession : session.Canonical) (h : session.registry.lookup spelling = .ok ty) :
    ty.Canonical := by
  unfold Registry.lookup at h
  split at h
  · next found hfound =>
    obtain rfl := Except.ok.inj h
    exact hsession found (.registry (Fields.mem_of_lookup hfound))
  · cases h

/-! ## One step -/

/-- What a recipe makes in a canonical session is canonical. -/
theorem canonical_of_make {session : Session} {recipe : Recipe} {ty : Ty}
    (hsession : session.Canonical) (h : (session.make recipe).value = .ok (some ty)) :
    ty.Canonical := by
  cases recipe with
  | written source =>
    obtain ⟨found, hfound, h⟩ := bind_eq_ok_iff.mp h
    cases h
    exact Ty.canonical_of_ofJson (mapError_eq_ok_iff.mp hfound)
  | primitive spelling =>
    obtain ⟨found, hfound, h⟩ := bind_eq_ok_iff.mp h
    cases h
    exact hsession.lookup (mapError_eq_ok_iff.mp hfound)
  | known spelling =>
    obtain ⟨found, hfound, h⟩ := bind_eq_ok_iff.mp h
    cases h
    exact hsession.lookup (mapError_eq_ok_iff.mp (mapError_eq_ok_iff.mp hfound))
  | kind source =>
    obtain ⟨kind, -, h⟩ := bind_eq_ok_iff.mp h
    cases h
    exact Ty.canonical_ofKind kind
  | event refinement =>
    cases h
    trivial
  | tuple parts =>
    obtain ⟨elements, helements, h⟩ := bind_eq_ok_iff.mp h
    cases h
    exact Ty.canonicalEach_iff.mpr (hsession.readEach helements)
  | sequence part depth =>
    obtain ⟨element, helement, h⟩ := bind_eq_ok_iff.mp h
    cases h
    exact (hsession.read helement).nest depth
  | distinct fields =>
    obtain ⟨given, hgiven, h⟩ := bind_eq_ok_iff.mp h
    obtain ⟨built, hbuilt, h⟩ := bind_eq_ok_iff.mp h
    cases h
    exact Ty.canonical_of_ofFields (mapError_eq_ok_iff.mp (mapError_eq_ok_iff.mp hbuilt))
      (hsession.readFields hgiven)
  | named fields =>
    obtain ⟨given, hgiven, h⟩ := bind_eq_ok_iff.mp h
    obtain ⟨built, hbuilt, h⟩ := bind_eq_ok_iff.mp h
    cases h
    exact Ty.canonical_of_ofFields (mapError_eq_ok_iff.mp hbuilt) (hsession.readFields hgiven)
  | join left right =>
    obtain ⟨a, ha, h⟩ := bind_eq_ok_iff.mp h
    obtain ⟨b, hb, h⟩ := bind_eq_ok_iff.mp h
    obtain ⟨joined, hjoined, h⟩ := bind_eq_ok_iff.mp h
    cases h
    exact Ty.canonical_of_join (hsession.read ha) (hsession.read hb)
      (mapError_eq_ok_iff.mp hjoined)
  | joinAll operands =>
    rw [make] at h
    cases htys : session.readEach operands with
    | error failure =>
      rw [htys] at h
      cases h
    | ok tys =>
      rw [htys] at h
      obtain ⟨joined, hjoined, heq⟩ := map_eq_ok_iff.mp h
      cases heq
      exact Ty.canonical_of_joinAll (hsession.readEach htys) (mapError_eq_ok_iff.mp hjoined)
  | part of hop =>
    obtain ⟨outer, houter, h⟩ := bind_eq_ok_iff.mp h
    exact (hsession.read houter).part? (Except.ok.inj h)

theorem Canonical.write {session : Session} {ty : Ty} (hsession : session.Canonical)
    (hty : ty.Canonical) (register : String) : (session.write register ty).Canonical := by
  intro other hother
  cases hother with
  | registry h => exact hsession other (.registry h)
  | key h => exact hsession other (.key h)
  | @register found _ h =>
    rw [read_write] at h
    split at h
    · obtain rfl := Except.ok.inj h
      exact hty
    · exact hsession other (.register h)

theorem Canonical.put {session : Session} {ty : Ty} (hsession : session.Canonical)
    (hty : ty.Canonical) (value : Int) :
    ({ session with cache := session.cache.put ty value } : Session).Canonical := by
  intro other hother
  cases hother with
  | registry h => exact hsession other (.registry h)
  | register h => exact hsession other (.register h)
  | @key key _ h =>
    rw [Cache.key?_put] at h
    split at h
    · -- The key stored is the one that was there before, if there was one.
      cases hstored : session.cache.key? ty with
      | none =>
        obtain rfl : ty = other := by simpa [hstored] using h
        exact hty
      | some stored =>
        obtain rfl : stored = other := by simpa [hstored] using h
        exact hsession stored (.key hstored)
    · exact hsession other (.key h)

theorem Canonical.erase {session : Session} (hsession : session.Canonical) (ty : Ty) :
    ({ session with cache := session.cache.erase ty } : Session).Canonical := by
  intro other hother
  cases hother with
  | registry h => exact hsession other (.registry h)
  | register h => exact hsession other (.register h)
  | @key key _ h =>
    rw [Cache.key?_erase] at h
    split at h
    · cases h
    · exact hsession other (.key h)

private theorem canonical_of_act {session next : Session} {taken : Step} {answer : Answer}
    (hsession : session.Canonical) (h : (session.act taken).value = .ok (answer, next)) :
    next.Canonical ∧ ∀ ty ∈ answer.types, ty.Canonical := by
  cases taken with
  | define target recipe =>
    obtain ⟨made, hmade, heq⟩ := map_eq_ok_iff.mp h
    cases made with
    | none =>
      cases heq
      exact ⟨hsession, by simp [Answer.types]⟩
    | some ty =>
      cases heq
      have hty : ty.Canonical := canonical_of_make hsession hmade
      exact ⟨hsession.write hty target, List.forall_mem_singleton.mpr hty⟩
  | compare left right =>
    obtain ⟨a, -, h⟩ := bind_eq_ok_iff.mp h
    obtain ⟨b, -, h⟩ := bind_eq_ok_iff.mp h
    cases h
    exact ⟨hsession, by simp [Answer.types]⟩
  | display of =>
    obtain ⟨ty, -, h⟩ := bind_eq_ok_iff.mp h
    cases h
    exact ⟨hsession, by simp [Answer.types]⟩
  | read of =>
    obtain ⟨ty, hty, h⟩ := bind_eq_ok_iff.mp h
    cases h
    exact ⟨hsession, List.forall_mem_singleton.mpr (hsession.read hty)⟩
  | put key value =>
    obtain ⟨ty, hty, h⟩ := bind_eq_ok_iff.mp h
    cases h
    exact ⟨hsession.put (hsession.read hty) value, by simp [Answer.types]⟩
  | get key =>
    obtain ⟨ty, -, h⟩ := bind_eq_ok_iff.mp h
    cases h
    refine ⟨hsession, ?_⟩
    cases hentry : session.cache.get? ty with
    | none => simp [Answer.types]
    | some entry => exact List.forall_mem_singleton.mpr (hsession _ (holds_of_get? hentry))
  | remove key =>
    obtain ⟨ty, -, h⟩ := bind_eq_ok_iff.mp h
    cases h
    exact ⟨hsession.erase ty, by simp [Answer.types]⟩

/-- A step of a canonical session leaves it canonical, and all types that it
answers are canonical. -/
theorem canonical_step {session : Session} (hsession : session.Canonical) (taken : Step) :
    (session.step taken).2.Canonical ∧
      ∀ answer, (session.step taken).1.value = .ok answer →
        ∀ ty ∈ answer.types, ty.Canonical := by
  unfold step
  split
  · next answer next log hact =>
    have hvalue : (session.act taken).value = .ok (answer, next) := by rw [hact]
    obtain ⟨hnext, htypes⟩ := canonical_of_act hsession hvalue
    refine ⟨hnext, fun other hother => ?_⟩
    obtain rfl := Except.ok.inj hother
    exact htypes
  · exact ⟨hsession, fun answer hanswer => nomatch hanswer⟩

/-! ## A whole history -/

/-- What a session can become: it starts with a registry and nothing else, takes
steps, and may be given a type that it answered, under any name. -/
inductive Reachable : Session → Prop where
  | start (spellings : Spellings) : Reachable (Session.start (Registry.build spellings).value)
  | step {session : Session} (h : Reachable session) (taken : Step) :
      Reachable (session.step taken).2
  | keep {session : Session} {taken : Step} {answer : Answer} {ty : Ty} (h : Reachable session)
      (hanswer : (session.step taken).1.value = .ok answer) (hty : ty ∈ answer.types)
      (register : String) : Reachable ((session.step taken).2.write register ty)

/-- A run leads from a session to one that can be reached from it. -/
theorem Reachable.run {session : Session} (h : Reachable session) (steps : List Step) :
    Reachable (session.run steps).2 := by
  induction steps generalizing session with
  | nil => exact h
  | cons taken rest ih => exact ih (h.step taken)

theorem canonical_start (spellings : Spellings) :
    (Session.start (Registry.build spellings).value).Canonical := by
  intro ty hty
  cases hty with
  | registry h => exact Registry.canonical_of_mem_build h
  | register h => simp [read, Session.start] at h
  | key h => simp [Session.start] at h

/-- A session is canonical however long it has run. -/
theorem canonical_of_reachable {session : Session} (h : Reachable session) :
    session.Canonical := by
  induction h with
  | start spellings => exact canonical_start spellings
  | step _ taken ih => exact (canonical_step ih taken).1
  | keep _ hanswer hty register ih =>
    obtain ⟨hnext, htypes⟩ := canonical_step ih _
    exact hnext.write (htypes _ hanswer _ hty) register

/-- The pairs of types that a step joins: two registers, or an operand of a list
and what the operands before it were joined to. -/
inductive Joins (session : Session) : Step → Ty → Ty → Prop where
  | join {target left right : String} {a b : Ty} (ha : session.read left = .ok a)
      (hb : session.read right = .ok b) :
      Joins session (.define target (.join left right)) a b
  | joinAll {target : String} {operands : List String} {front back : List Ty} {acc ty : Ty}
      (hread : session.readEach operands = .ok (front ++ ty :: back)) (hfront : front ≠ [])
      (hacc : (Ty.joinAll front).value = .ok acc) :
      Joins session (.define target (.joinAll operands)) acc ty

/-- A canonical session joins canonical types only. -/
theorem canonical_of_joins {session : Session} {taken : Step} {a b : Ty}
    (hsession : session.Canonical) (h : session.Joins taken a b) :
    a.Canonical ∧ b.Canonical := by
  cases h with
  | join ha hb => exact ⟨hsession.read ha, hsession.read hb⟩
  | @joinAll target operands front back acc ty hread _ hacc =>
    obtain ⟨hfront, hrest⟩ := List.forall_mem_append.mp (hsession.readEach hread)
    exact ⟨Ty.canonical_of_joinAll hfront hacc, (List.forall_mem_cons.mp hrest).1⟩

/-- **All named tuples in reach of a session ascend**: those in the types that
it holds, those in the types that its next step answers, and those that the
joins of this step put together on the way. Their names are therefore distinct. -/
theorem ascending_of_reachable {session : Session} (h : Reachable session) :
    (∀ (ty : Ty) (fields : List Field), session.Holds ty → Ty.Within (.namedTuple fields) ty →
      Fields.Ascending fields ∧ (Fields.names fields).Nodup) ∧
    (∀ (taken : Step) (answer : Answer), (session.step taken).1.value = .ok answer →
      ∀ (ty : Ty) (fields : List Field), ty ∈ answer.types → Ty.Within (.namedTuple fields) ty →
        Fields.Ascending fields ∧ (Fields.names fields).Nodup) ∧
    ∀ (taken : Step) (a b : Ty) (joined : List Field), session.Joins taken a b →
      Ty.Assembles a b joined → Fields.Ascending joined := by
  have hsession : session.Canonical := canonical_of_reachable h
  have hwithin : ∀ {ty : Ty} {fields : List Field}, ty.Canonical →
      Ty.Within (.namedTuple fields) ty →
        Fields.Ascending fields ∧ (Fields.names fields).Nodup := by
    intro ty fields hty hfields
    have hascending := Ty.canonical_iff_within.mp hty fields hfields
    exact ⟨hascending, hascending.nodup⟩
  refine ⟨fun ty fields hty => hwithin (hsession ty hty), ?_, ?_⟩
  · intro taken answer hanswer ty fields hty
    exact hwithin ((canonical_step hsession taken).2 answer hanswer ty hty)
  · intro taken a b joined hjoins hassembles
    obtain ⟨ha, hb⟩ := canonical_of_joins hsession hjoins
    exact Ty.ascending_of_assembles hassembles ha hb

/-- Two fields that are named out of order, made a named tuple, and this joined
with itself. -/
theorem ascending_of_reachable_fields :
    ((((Session.start Registry.canonical.value).run
        [.define "e" (.event "tick"), .define "s" (.primitive "int")]).2.step
      (.define "t" (.named [("y", "e"), ("x", "s")]))).1.value =
        .ok (.defined (.namedTuple [("x", .int), ("y", .event (some "tick"))])) ∧
      Fields.Ascending [("x", Ty.int), ("y", .event (some "tick"))]) ∧
    ∃ session : Session, Reachable session ∧
      session.read "t" = .ok (.namedTuple [("x", .int), ("y", .event (some "tick"))]) ∧
      Fields.Ascending [("x", Ty.int), ("y", .event (some "tick"))] := by
  have hstart : Reachable ((Session.start Registry.canonical.value).run
      [.define "e" (.event "tick"), .define "s" (.primitive "int")]).2 :=
    (Reachable.start .canonical).run _
  have hwritten : ((Session.start Registry.canonical.value).run
      [.define "e" (.event "tick"), .define "s" (.primitive "int")]).2 =
        ((Session.start Registry.canonical.value).write "e" (.event (some "tick"))).write
          "s" .int := rfl
  generalize ((Session.start Registry.canonical.value).run
      [.define "e" (.event "tick"), .define "s" (.primitive "int")]).2 = session
    at hstart hwritten ⊢
  have hfields : session.readFields [("y", "e"), ("x", "s")] =
      .ok [("y", .event (some "tick")), ("x", .int)] := by
    simp [hwritten, readFields, read_write, bind, Except.bind, pure, Except.pure]
  have hbuilt : Ty.ofFields [("y", .event (some "tick")), ("x", .int)] =
      .ok (.namedTuple [("x", .int), ("y", .event (some "tick"))]) := by
    simp [Ty.ofFields, Fields.ofList, Fields.sort, List.mergeSort, Fields.adjacentRepeat?,
      Except.map]
  have hstep : session.step (.define "t" (.named [("y", "e"), ("x", "s")])) =
      (.quiet (.ok (.defined (.namedTuple [("x", .int), ("y", .event (some "tick"))]))),
        session.write "t" (.namedTuple [("x", .int), ("y", .event (some "tick"))])) := by
    rw [step, act, make, hfields]
    simp only [bind, Except.bind, hbuilt]
    rfl
  have hread : (session.step (.define "t" (.named [("y", "e"), ("x", "s")]))).2.read "t" =
      .ok (.namedTuple [("x", .int), ("y", .event (some "tick"))]) := by
    rw [hstep, read_write, if_pos rfl]
  have hmade : (session.step (.define "t" (.named [("y", "e"), ("x", "s")]))).1.value =
      .ok (.defined (.namedTuple [("x", .int), ("y", .event (some "tick"))])) := by
    rw [hstep]
    rfl
  refine ⟨⟨hmade, ?_⟩, _, hstart.step _, hread, ?_⟩
  · obtain ⟨-, hanswers, -⟩ := ascending_of_reachable hstart
    exact (hanswers _ _ hmade _ _ (List.mem_singleton_self _) (.refl _)).1
  · obtain ⟨-, -, hjoins⟩ := ascending_of_reachable (hstart.step _)
    exact hjoins (.define "j" (.join "t" "t")) _ _ _ (.join hread hread) (.here rfl rfl)

end Session

end MachineTypes
