import MachineTypes.Proofs.LookupOfText
import MachineTypes.Proofs.Reading
import MachineTypes.Proofs.UniqueReading

/-!
# A registry pairs spellings with kinds

A registry is a list of spellings with their types, made by binding one entry of the
table after the other. Binding a spelling that is there already would put the new type
in the place of the old one, so that a kind would be lost and the order of the others
would no longer be that of the table. The table is therefore checked first, and the
check has to see every way in which two of its spellings can coincide.

A spelling recurs when the same text stands at a later index (`Recurs`). The check goes
through the indices in order and reports the first one that recurs; if none does, the
spellings are distinct, each of them is bound to the type of its kind, and what the
registry answers about a text depends on whether the text is one of them.

## Main results

* `firstRepeat?_eq_some_iff`, `ofSpellings_eq_error_iff` — which spelling is reported.
* `names_build`, `size_build` — a registry lists the spellings of its table.
* `lookup_eq_ok_iff_kind?` — what it finds, by kind and refinement.
* `registry_pairs_spellings` — all of it together, with the other ways to ask.
-/

namespace MachineTypes

namespace Spellings

/-! ## Spellings that recur -/

/-- The text with this index stands at a later index as well. -/
def Recurs (texts : List String) (i : Nat) : Prop :=
  ∃ j text, i < j ∧ texts[i]? = some text ∧ texts[j]? = some text

theorem recurs_zero {text : String} {rest : List String} :
    Recurs (text :: rest) 0 ↔ text ∈ rest := by
  rw [List.mem_iff_getElem?]
  constructor
  · rintro ⟨j, other, hj, hfirst, hlater⟩
    obtain rfl : text = other := Option.some.inj hfirst
    obtain ⟨j, rfl⟩ := Nat.exists_eq_add_one_of_ne_zero (Nat.ne_of_gt hj)
    exact ⟨j, hlater⟩
  · rintro ⟨j, hj⟩
    exact ⟨j + 1, text, Nat.succ_pos j, rfl, hj⟩

theorem recurs_succ {text : String} {rest : List String} {i : Nat} :
    Recurs (text :: rest) (i + 1) ↔ Recurs rest i := by
  constructor
  · rintro ⟨j, other, hj, hfirst, hlater⟩
    obtain ⟨j, rfl⟩ := Nat.exists_eq_add_one_of_ne_zero (Nat.ne_of_gt (Nat.zero_lt_of_lt hj))
    exact ⟨j, other, Nat.lt_of_succ_lt_succ hj, hfirst, hlater⟩
  · rintro ⟨j, other, hj, hfirst, hlater⟩
    exact ⟨j + 1, other, Nat.succ_lt_succ hj, hfirst, hlater⟩

/-- The text recurs, and this is the least index of which that is true. -/
structure FirstRecurs (texts : List String) (i : Nat) (text : String) : Prop where
  recurs : Recurs texts i
  first : ∀ j, Recurs texts j → i ≤ j
  stands : texts[i]? = some text

/-- If the first text of a list recurs, it is the one. -/
theorem exists_firstRecurs_cons_of_mem {head text : String} {rest : List String}
    (h : head ∈ rest) : (∃ i, FirstRecurs (head :: rest) i text) ↔ head = text := by
  constructor
  · rintro ⟨i, -, hfirst, htext⟩
    obtain rfl : i = 0 := Nat.le_zero.mp (hfirst 0 (recurs_zero.mpr h))
    exact Option.some.inj htext
  · rintro rfl
    exact ⟨0, recurs_zero.mpr h, fun j _ => Nat.zero_le j, rfl⟩

/-- If it does not, it is passed over. -/
theorem exists_firstRecurs_cons_of_not_mem {head text : String} {rest : List String}
    (h : head ∉ rest) :
    (∃ i, FirstRecurs (head :: rest) i text) ↔ ∃ i, FirstRecurs rest i text := by
  constructor
  · rintro ⟨i, hrecurs, hfirst, htext⟩
    cases i with
    | zero => exact absurd (recurs_zero.mp hrecurs) h
    | succ i =>
      refine ⟨i, recurs_succ.mp hrecurs, fun j hj => ?_, htext⟩
      exact Nat.le_of_succ_le_succ (hfirst (j + 1) (recurs_succ.mpr hj))
  · rintro ⟨i, hrecurs, hfirst, htext⟩
    refine ⟨i + 1, recurs_succ.mpr hrecurs, fun j hj => ?_, htext⟩
    cases j with
    | zero => exact absurd (recurs_zero.mp hj) h
    | succ j => exact Nat.succ_le_succ (hfirst j (recurs_succ.mp hj))

/-- What is reported of a list is its first text that recurs. -/
theorem firstRepeat?_eq_some_iff {texts : List String} {text : String} :
    firstRepeat? texts = some text ↔ ∃ i, FirstRecurs texts i text := by
  induction texts with
  | nil =>
    constructor
    · intro h
      cases h
    · rintro ⟨i, -, -, htext⟩
      simp at htext
  | cons head rest ih =>
    by_cases hmem : head ∈ rest
    · rw [firstRepeat?, if_pos hmem, Option.some.injEq, exists_firstRecurs_cons_of_mem hmem]
    · rw [firstRepeat?, if_neg hmem, ih, exists_firstRecurs_cons_of_not_mem hmem]

/-- A table is refused for its first spelling that recurs. -/
theorem validate_eq_error_iff {spellings : Spellings} {error : Error} :
    spellings.validate = .error error ↔
      ∃ i spelling, FirstRecurs spellings.toList i spelling ∧
        error = .duplicateSpelling spelling := by
  rw [validate]
  cases hrepeat : firstRepeat? spellings.toList with
  | none =>
    constructor
    · intro h
      cases h
    · rintro ⟨i, spelling, hfirst, -⟩
      rw [firstRepeat?_eq_some_iff.mpr ⟨i, hfirst⟩] at hrepeat
      cases hrepeat
  | some spelling =>
    constructor
    · intro h
      obtain ⟨i, hfirst⟩ := firstRepeat?_eq_some_iff.mp hrepeat
      exact ⟨i, spelling, hfirst, (Except.error.inj h).symm⟩
    · rintro ⟨i, other, hfirst, rfl⟩
      rw [firstRepeat?_eq_some_iff.mpr ⟨i, hfirst⟩] at hrepeat
      rw [Option.some.inj hrepeat]

/-- The spellings of a table are those of its kinds. -/
theorem mem_toList_iff {spellings : Spellings} {name : String} :
    name ∈ spellings.toList ↔ ∃ kind, spellings.spell kind = name := by
  rw [toList, List.mem_map]
  constructor
  · rintro ⟨kind, -, hkind⟩
    exact ⟨kind, hkind⟩
  · rintro ⟨kind, hkind⟩
    exact ⟨kind, kind.mem_all, hkind⟩

end Spellings

namespace Ty

/-- The type of a kind is the one of that kind without a refinement. -/
theorem ofKind_eq_iff {kind : Kind} {ty : Ty} :
    ofKind kind = ty ↔ ty.kind? = some kind ∧ ty.refinement? = none := by
  constructor
  · rintro rfl
    cases kind <;> exact ⟨rfl, rfl⟩
  · rintro ⟨hkind, hrefinement⟩
    cases ty <;> cases hkind <;> try rfl
    cases hrefinement
    rfl

end Ty

namespace Registry

/-! ## Building a registry -/

/-- A registry is built when the spellings of the table are distinct. -/
theorem exists_ofSpellings_iff {spellings : Spellings} :
    (∃ built, ofSpellings spellings = .ok built) ↔ spellings.toList.Nodup := by
  simp [ofSpellings_eq_ok_iff]

/-- No registry is built from a table that is refused. -/
theorem ofSpellings_eq_error_iff {spellings : Spellings} {error : Error} :
    ofSpellings spellings = .error error ↔ spellings.validate = .error error := by
  rw [ofSpellings]
  cases spellings.validate with
  | error refused =>
    show (Except.error refused : Except Error (Logged Registry)) = .error error ↔ _
    simp
  | ok accepted =>
    show (Except.ok (build spellings) : Except Error (Logged Registry)) = .error error ↔ _
    simp

section Built

variable {spellings : Spellings}

/-- A registry lists the spellings of its table, in their order. -/
theorem names_build (h : spellings.toList.Nodup) :
    (build spellings).value.names = spellings.toList := by
  rw [names, build_types h, List.map_map]
  rfl

/-- It holds as many as there are kinds. -/
theorem size_build (h : spellings.toList.Nodup) : (build spellings).value.size = 6 := by
  rw [size, build_types h]
  rfl

/-- What a registry finds is the unrefined type of the kind that is spelled so. -/
theorem lookup_eq_ok_iff_kind? (h : spellings.toList.Nodup) {name : String} {ty : Ty} :
    (build spellings).value.lookup name = .ok ty ↔
      ∃ kind, spellings.spell kind = name ∧ ty.kind? = some kind ∧ ty.refinement? = none := by
  simp only [lookup_eq_ok_iff h, Ty.ofKind_eq_iff]

/-- It finds something exactly under the spellings. -/
theorem exists_lookup_iff (h : spellings.toList.Nodup) {name : String} :
    (∃ ty, (build spellings).value.lookup name = .ok ty) ↔ name ∈ spellings.toList := by
  rw [Spellings.mem_toList_iff]
  constructor
  · rintro ⟨ty, hty⟩
    obtain ⟨kind, hkind, -⟩ := (lookup_eq_ok_iff h).mp hty
    exact ⟨kind, hkind⟩
  · rintro ⟨kind, hkind⟩
    exact ⟨Ty.ofKind kind, (lookup_eq_ok_iff h).mpr ⟨kind, hkind, rfl⟩⟩

end Built

/-! ## The other ways to ask -/

section Asking

variable {registry : Registry} {name : String}

/-- A registry contains what it finds. -/
theorem contains_iff : registry.contains name = true ↔ ∃ ty, registry.lookup name = .ok ty := by
  rw [contains, lookup]
  cases registry.types.lookup name <;> simp

/-- A caller who takes a spelling to be registered breaks off where nothing is found. -/
theorem resolve_eq_error_iff {violation : Violation} :
    registry.resolve name = .error violation ↔
      ∃ error, registry.lookup name = .error error ∧ violation = .spellingRefused error := by
  rw [resolve, mapError_eq_error_iff]
  exact exists_congr fun error => and_congr_right fun _ => eq_comm

end Asking

/-- **A registry pairs the spellings of its table with the kinds.** It is built when
they are distinct, and else the first of them that recurs is reported. Once it is built
it finds the texts that are spellings and no others, and each of them has one kind,
whose unrefined type is found. To contain a text is to find it; a caller who takes it
to be there is given the same type, or else breaks off for the same cause. And the
registry lists the six spellings in the order of the table. -/
theorem registry_pairs_spellings (spellings : Spellings) :
    ((∃ built, ofSpellings spellings = .ok built) ↔ spellings.toList.Nodup) ∧
    (∀ error, ofSpellings spellings = .error error ↔
      ∃ i spelling, Spellings.FirstRecurs spellings.toList i spelling ∧
        error = .duplicateSpelling spelling) ∧
    ∀ built, ofSpellings spellings = .ok built →
      (∀ kind other, spellings.spell kind = spellings.spell other → kind = other) ∧
      (∀ name, (∃ ty, built.value.lookup name = .ok ty) ↔ name ∈ spellings.toList) ∧
      (∀ name ty, built.value.lookup name = .ok ty ↔ ∃ kind,
        spellings.spell kind = name ∧ ty.kind? = some kind ∧ ty.refinement? = none) ∧
      (∀ name, built.value.contains name = true ↔
        ∃ ty, built.value.lookup name = .ok ty) ∧
      (∀ name ty, built.value.resolve name = .ok ty ↔ built.value.lookup name = .ok ty) ∧
      (∀ name violation, built.value.resolve name = .error violation ↔
        ∃ error, built.value.lookup name = .error error ∧
          violation = .spellingRefused error) ∧
      built.value.names = spellings.toList ∧ built.value.size = 6 := by
  refine ⟨exists_ofSpellings_iff, fun error => ?_, fun built h => ?_⟩
  · rw [ofSpellings_eq_error_iff, Spellings.validate_eq_error_iff]
  · obtain ⟨hnodup, rfl⟩ := ofSpellings_eq_ok_iff.mp h
    exact ⟨fun kind other => spellings.spell_injective hnodup,
      fun name => exists_lookup_iff hnodup, fun name ty => lookup_eq_ok_iff_kind? hnodup,
      fun name => contains_iff, fun name ty => mapError_eq_ok_iff,
      fun name violation => resolve_eq_error_iff, names_build hnodup, size_build hnodup⟩

/-- A table that spells `event` like `int` and `state` like `bool`: the spelling of
`bool` is reported, which comes first and is repeated last. And a table that spells
`int` as `integer`: what its registry finds. -/
theorem registry_pairs_spellings_repeats :
    (∃ spellings : Spellings,
      spellings.toList = ["nil", "bool", "int", "id", "int", "bool"] ∧
      ofSpellings spellings = .error (.duplicateSpelling "bool")) ∧
    ∃ (spellings : Spellings) (built : Logged Registry), ofSpellings spellings = .ok built ∧
      built.value.lookup "integer" = .ok .int ∧
      (¬ ∃ ty, built.value.lookup "int" = .ok ty) ∧
      built.value.names = ["nil", "bool", "integer", "id", "event", "state"] := by
  constructor
  · obtain ⟨-, hrefused, -⟩ := registry_pairs_spellings
      ⟨fun kind => if kind = .event then "int" else if kind = .state then "bool" else kind.name⟩
    have hfirst : Spellings.FirstRecurs ["nil", "bool", "int", "id", "int", "bool"] 1 "bool" := by
      refine ⟨⟨5, "bool", by decide, rfl, rfl⟩, fun j hj => ?_, rfl⟩
      refine Nat.pos_of_ne_zero fun hzero => ?_
      subst hzero
      exact absurd (Spellings.recurs_zero.mp hj) (by decide)
    exact ⟨_, rfl, (hrefused _).mpr ⟨1, "bool", hfirst, rfl⟩⟩
  · obtain ⟨hbuilds, -, hasks⟩ := registry_pairs_spellings
      ⟨fun kind => if kind = .int then "integer" else kind.name⟩
    obtain ⟨built, hbuilt⟩ := hbuilds.mpr (by decide)
    obtain ⟨-, hfinds, hlookup, -, -, -, hnames, -⟩ := hasks built hbuilt
    refine ⟨_, built, hbuilt, (hlookup _ _).mpr ⟨.int, rfl, rfl, rfl⟩, fun hfound => ?_, hnames⟩
    exact absurd ((hfinds "int").mp hfound) (by decide)

end Registry

end MachineTypes
