import MachineTypes.Codec.Spellings
import MachineTypes.Proofs.RegisteredSpellings

/-!
# A written table lies over the canonical names

A table of spellings need not be written in full. What is given lies over the canonical
names: a kind that is given has the given spelling, and any other keeps its own name
(`Overlays`). The two forms of a table differ only in where a kind's spelling stands, in
an object under the name of the kind and in an array at its place in the order of
declaration, so either form is for this purpose a function from kinds to what is given.

An object can be wrong in several of its members, and in two ways: a key is the name of
no kind, or what is under it is no text. The members are judged in the order of their
keys. Which key is the smallest can be said without that order (`FirstFault`), and since
the key of a faulty member decides in which way it is wrong, so can the error that is
reported.

The canonical names are distinct, but a given spelling may be one of them, and the kind
of that name need not be among those that are given. So a table is good when the given
spellings are distinct and none of them is a name that was kept (`Apart`).

## Main results

* `fault?_eq_none_iff`, `fault?_eq_some_iff` — when members are faultless, and else which
  fault is reported.
* `ofJson_obj_eq_ok_iff`, `ofJson_arr_eq_ok_iff`, `ofJson_toJson` — what is read.
* `nodup_toList_iff_apart` — when a table over the canonical names is good.
* `ofJson_overlays_canonical` — all of it together.
-/

namespace MachineTypes.Spellings

/-! ## Faulty members -/

/-- The member gives a kind its spelling. -/
def Faultless (member : String × Json) : Prop :=
  (∃ kind : Kind, kind.name = member.1) ∧ ∃ text, member.2 = .str text

/-- What is wrong with a member that does not. -/
inductive MemberFault : String × Json → DecodeError → Prop where
  /-- The key is the name of no kind, whatever is under it. -/
  | unknown {key : String} (value : Json) (hkey : ∀ kind : Kind, kind.name ≠ key) :
      MemberFault (key, value) (.unknownField key (Kind.all.map Kind.name))
  /-- The key is the name of a kind, and what is under it is no text. -/
  | notText {key : String} {value : Json} (hkey : ∃ kind : Kind, kind.name = key)
      (hvalue : ∀ text, value ≠ .str text) : MemberFault (key, value) .malformed

/-- The key of a faulty member decides what is wrong with it. -/
theorem MemberFault.unique {key : String} {value other : Json} {e e' : DecodeError}
    (h : MemberFault (key, value) e) (h' : MemberFault (key, other) e') : e = e' := by
  cases h with
  | unknown _ hnone =>
    cases h' with
    | unknown => rfl
    | notText hkey => exact absurd hkey (not_exists.mpr hnone)
  | notText hkey =>
    cases h' with
    | unknown _ hnone => exact absurd hkey (not_exists.mpr hnone)
    | notText => rfl

theorem faultless_or_memberFault (member : String × Json) :
    Faultless member ∨ ∃ e, MemberFault member e := by
  obtain ⟨key, value⟩ := member
  by_cases hkey : ∃ kind : Kind, kind.name = key
  · by_cases hvalue : ∃ text, value = .str text
    · exact .inl ⟨hkey, hvalue⟩
    · exact .inr ⟨_, .notText hkey (not_exists.mp hvalue)⟩
  · exact .inr ⟨_, .unknown value (not_exists.mp hkey)⟩

theorem memberFault?_of_faultless {member : String × Json} (h : Faultless member) :
    memberFault? member = none := by
  obtain ⟨key, value⟩ := member
  obtain ⟨⟨kind, rfl⟩, text, rfl⟩ := h
  simp [memberFault?]

theorem memberFault?_of_memberFault {member : String × Json} {e : DecodeError}
    (h : MemberFault member e) : memberFault? member = some e := by
  cases h with
  | @unknown key value hkey =>
    have hname : Kind.ofName? key = none :=
      Option.eq_none_iff_forall_ne_some.mpr fun kind hkind =>
        hkey kind (Kind.ofName?_eq_some_iff.mp hkind)
    simp [memberFault?, hname]
  | @notText key value hkey hvalue =>
    obtain ⟨kind, rfl⟩ := hkey
    cases value with
    | str text => exact absurd rfl (hvalue text)
    | _ => simp [memberFault?]

theorem memberFault?_eq_none_iff {member : String × Json} :
    memberFault? member = none ↔ Faultless member := by
  refine ⟨fun h => ?_, memberFault?_of_faultless⟩
  rcases faultless_or_memberFault member with hfaultless | ⟨e, he⟩
  · exact hfaultless
  · rw [memberFault?_of_memberFault he] at h
    cases h

theorem memberFault?_eq_some_iff {member : String × Json} {e : DecodeError} :
    memberFault? member = some e ↔ MemberFault member e := by
  refine ⟨fun h => ?_, memberFault?_of_memberFault⟩
  rcases faultless_or_memberFault member with hfaultless | ⟨e', he'⟩
  · rw [memberFault?_of_faultless hfaultless] at h
    cases h
  · rw [memberFault?_of_memberFault he'] at h
    obtain rfl := Option.some.inj h
    exact he'

/-! ## The first fault -/

/-- A member is faulty in this way, and its key is the smallest of those that are. -/
def FirstFault (members : List (String × Json)) (e : DecodeError) : Prop :=
  ∃ member ∈ members, MemberFault member e ∧
    ∀ other ∈ members, ∀ e', MemberFault other e' → member.1 ≤ other.1

section Faults

variable {members : List (String × Json)} {e e' : DecodeError}

theorem FirstFault.unique (h : FirstFault members e) (h' : FirstFault members e') :
    e = e' := by
  obtain ⟨⟨key, value⟩, hmem, hfault, hleast⟩ := h
  obtain ⟨⟨key', value'⟩, hmem', hfault', hleast'⟩ := h'
  obtain rfl : key = key' :=
    String.le_antisymm (hleast _ hmem' _ hfault') (hleast' _ hmem _ hfault)
  exact hfault.unique hfault'

theorem fault?_eq_none_iff :
    fault? members = none ↔ ∀ member ∈ members, Faultless member := by
  simp only [fault?, List.findSome?_eq_none_iff, List.mem_mergeSort, memberFault?_eq_none_iff]

/-- What is found in the order of the keys is a first fault. -/
theorem firstFault_of_fault? (h : fault? members = some e) : FirstFault members e := by
  obtain ⟨lower, member, upper, hsorted, hfault, hlower⟩ := List.findSome?_eq_some_iff.mp h
  have hmem : ∀ other, other ∈ members ↔ other ∈ lower ++ member :: upper := by
    intro other
    rw [← hsorted, List.mem_mergeSort]
  have hpairwise := Fields.pairwise_mergeSort_name members
  rw [hsorted] at hpairwise
  have hupper := (List.pairwise_cons.mp (List.pairwise_append.mp hpairwise).2.1).1
  refine ⟨member, (hmem member).mpr (by simp), memberFault?_eq_some_iff.mp hfault, ?_⟩
  intro other hother e' hfault'
  rcases List.mem_append.mp ((hmem other).mp hother) with hpassed | hleft
  · -- What was passed over is faultless.
    have hnone := hlower other hpassed
    rw [memberFault?_eq_some_iff.mpr hfault'] at hnone
    cases hnone
  · rcases List.mem_cons.mp hleft with rfl | hleft
    · exact String.le_refl _
    · exact hupper other hleft

/-- Of several faults the one under the smallest key is reported. -/
theorem fault?_eq_some_iff : fault? members = some e ↔ FirstFault members e := by
  constructor
  · exact firstFault_of_fault?
  · intro h
    cases hfault : fault? members with
    | none =>
      obtain ⟨member, hmem, hmember, -⟩ := h
      have hnone := memberFault?_eq_none_iff.mpr (fault?_eq_none_iff.mp hfault member hmem)
      rw [memberFault?_eq_some_iff.mpr hmember] at hnone
      cases hnone
    | some found => rw [h.unique (firstFault_of_fault? hfault)]

end Faults

/-! ## Tables over the canonical names -/

/-- A kind for which something is given is spelled by that text, and any other kind keeps
its name. -/
structure Overlays (given : Kind → Option Json) (spellings : Spellings) : Prop where
  spelled : ∀ kind value, given kind = some value → value = .str (spellings.spell kind)
  kept : ∀ kind, given kind = none → spellings.spell kind = kind.name

/-- What the members of an object give for a kind: the value under its name. -/
def givenByMembers (members : List (String × Json)) (kind : Kind) : Option Json :=
  members.lookup kind.name

/-- What the items of an array give for a kind: the item at its place. -/
def givenByItems (items : List Json) (kind : Kind) : Option Json :=
  items[Kind.all.idxOf kind]?

/-- Where texts are given there is one table that overlays. -/
theorem overlay_eq_iff {given : Kind → Option Json} {texts : Kind → Option String}
    {spellings : Spellings} (h : ∀ kind, given kind = (texts kind).map .str) :
    overlay texts = spellings ↔ Overlays given spellings := by
  constructor
  · rintro rfl
    constructor
    · intro kind value hvalue
      rw [h, Option.map_eq_some_iff] at hvalue
      obtain ⟨text, htext, rfl⟩ := hvalue
      simp [overlay, htext]
    · intro kind hnone
      rw [h, Option.map_eq_none_iff] at hnone
      simp [overlay, hnone]
  · rintro ⟨hspelled, hkept⟩
    apply Spellings.ext
    intro kind
    have hgiven := h kind
    cases htext : texts kind with
    | none =>
      rw [htext] at hgiven
      simp [overlay, htext, hkept kind hgiven]
    | some text =>
      rw [htext] at hgiven
      have heq : text = spellings.spell kind := Json.str.inj (hspelled kind _ hgiven)
      simp [overlay, htext, heq]

/-! ## Objects -/

section Objects

variable {members : List (String × Json)} {spellings : Spellings}

/-- Under the name of a kind faultless members have a text, if anything. -/
theorem givenByMembers_eq (h : ∀ member ∈ members, Faultless member) (kind : Kind) :
    givenByMembers members kind = (textAt? members kind.name).map .str := by
  unfold givenByMembers textAt?
  cases hlookup : members.lookup kind.name with
  | none => rfl
  | some value =>
    obtain ⟨-, text, rfl⟩ := h (kind.name, value) (Fields.mem_of_lookup hlookup)
    rfl

/-- A table is read from members that are all faultless, and it is the one that puts
them over the canonical names. -/
theorem ofJson_obj_eq_ok_iff :
    ofJson (.obj members) = .ok spellings ↔
      (∀ member ∈ members, Faultless member) ∧ Overlays (givenByMembers members) spellings := by
  rw [← fault?_eq_none_iff, ofJson]
  cases hfault : fault? members with
  | some e => simp
  | none => simpa using overlay_eq_iff (givenByMembers_eq (fault?_eq_none_iff.mp hfault))

theorem exists_ofJson_obj_iff :
    (∃ table, ofJson (.obj members) = .ok table) ↔ ∀ member ∈ members, Faultless member := by
  constructor
  · rintro ⟨table, htable⟩
    exact (ofJson_obj_eq_ok_iff.mp htable).1
  · intro h
    rw [ofJson, fault?_eq_none_iff.mpr h]
    exact ⟨_, rfl⟩

theorem ofJson_obj_eq_error_iff {e : DecodeError} :
    ofJson (.obj members) = .error e ↔ FirstFault members e := by
  rw [← fault?_eq_some_iff, ofJson]
  cases fault? members <;> simp

/-- What is written is read back. -/
theorem ofJson_toJson (spellings : Spellings) : ofJson spellings.toJson = .ok spellings := by
  have hgiven : ∀ kind, givenByMembers
      (Kind.all.map fun kind => (kind.name, Json.str (spellings.spell kind))) kind =
        some (.str (spellings.spell kind)) := by
    intro kind
    cases kind <;> rfl
  apply ofJson_obj_eq_ok_iff.mpr
  refine ⟨List.forall_mem_map.mpr fun kind _ => ⟨⟨kind, rfl⟩, spellings.spell kind, rfl⟩, ?_, ?_⟩
  · intro kind value hvalue
    rw [hgiven] at hvalue
    exact (Option.some.inj hvalue).symm
  · intro kind hnone
    rw [hgiven] at hnone
    cases hnone

end Objects

/-! ## Arrays -/

section Arrays

variable {items : List Json} {texts : List String} {spellings : Spellings}

/-- Texts are read from an array of these texts. -/
theorem textsOfJson_eq_ok_iff : textsOfJson items = .ok texts ↔ items = texts.map .str := by
  fun_induction textsOfJson items generalizing texts with
  | case1 => simp [pure, Except.pure, eq_comm]
  | case2 text rest ih =>
    simp only [bind_eq_ok_iff, ih, pure, Except.pure, Except.ok.injEq]
    constructor
    · rintro ⟨others, rfl, rfl⟩
      rfl
    · intro h
      cases texts with
      | nil => cases h
      | cons first others =>
        obtain ⟨hfirst, hrest⟩ := List.cons.inj h
        exact ⟨others, hrest, by rw [Json.str.inj hfirst]⟩
  | case3 item rest hitem =>
    refine iff_of_false ?_ ?_
    · intro h
      cases h
    · intro h
      cases texts with
      | nil => cases h
      | cons first others => exact hitem first (List.cons.inj h).1

/-- Values that are all texts are these texts. -/
theorem exists_texts_iff :
    (∃ texts : List String, items = texts.map .str) ↔ ∀ item ∈ items, ∃ text, item = .str text := by
  constructor
  · rintro ⟨texts, rfl⟩
    exact List.forall_mem_map.mpr fun text _ => ⟨text, rfl⟩
  · intro h
    induction items with
    | nil => exact ⟨[], rfl⟩
    | cons item rest ih =>
      obtain ⟨⟨text, rfl⟩, hrest⟩ := List.forall_mem_cons.mp h
      obtain ⟨texts, rfl⟩ := ih hrest
      exact ⟨text :: texts, rfl⟩

/-- A key is paired with what stands at its own place. -/
theorem lookup_zip {α β : Type} [DecidableEq α] {keys : List α} {values : List β} {key : α}
    (h : key ∈ keys) : (keys.zip values).lookup key = values[keys.idxOf key]? := by
  induction keys generalizing values with
  | nil => cases h
  | cons first rest ih =>
    cases values with
    | nil => rfl
    | cons value others =>
      rw [List.zip_cons_cons, List.lookup_cons]
      by_cases hfirst : key = first
      · subst hfirst
        simp
      · have hrest : key ∈ rest := (List.mem_cons.mp h).resolve_left hfirst
        rw [List.idxOf_cons_ne rest (Ne.symm hfirst), beq_eq_false_iff_ne.mpr hfirst]
        exact ih hrest

/-- At the place of a kind texts have a text, if anything. -/
theorem givenByItems_eq (texts : List String) (kind : Kind) :
    givenByItems (texts.map .str) kind = ((Kind.all.zip texts).lookup kind).map .str := by
  rw [givenByItems, lookup_zip kind.mem_all, List.getElem?_map]

/-- A table is read from at most as many texts as there are kinds, and it is the one that
puts them over the canonical names. -/
theorem ofJson_arr_eq_ok_iff :
    ofJson (.arr items) = .ok spellings ↔
      (items.length ≤ 6 ∧ ∀ item ∈ items, ∃ text, item = .str text) ∧
        Overlays (givenByItems items) spellings := by
  rw [ofJson, bind_eq_ok_iff, ← exists_texts_iff]
  simp only [textsOfJson_eq_ok_iff]
  constructor
  · rintro ⟨texts, rfl, h⟩
    split at h
    · next hlength =>
      refine ⟨⟨?_, texts, rfl⟩, ?_⟩
      · rw [List.length_map]
        exact hlength
      · exact (overlay_eq_iff (givenByItems_eq texts)).mp (Except.ok.inj h)
    · cases h
  · rintro ⟨⟨hlength, texts, rfl⟩, h⟩
    rw [List.length_map] at hlength
    have hfits : texts.length ≤ Kind.all.length := hlength
    refine ⟨texts, rfl, ?_⟩
    rw [if_pos hfits, (overlay_eq_iff (givenByItems_eq texts)).mpr h]
    rfl

theorem exists_ofJson_arr_iff :
    (∃ table, ofJson (.arr items) = .ok table) ↔
      items.length ≤ 6 ∧ ∀ item ∈ items, ∃ text, item = .str text := by
  constructor
  · rintro ⟨table, htable⟩
    exact (ofJson_arr_eq_ok_iff.mp htable).1
  · rintro ⟨hlength, htexts⟩
    obtain ⟨texts, rfl⟩ := exists_texts_iff.mpr htexts
    exact ⟨_, ofJson_arr_eq_ok_iff.mpr
      ⟨⟨hlength, htexts⟩, (overlay_eq_iff (givenByItems_eq texts)).mp rfl⟩⟩

end Arrays

/-! ## Good tables -/

/-- The given spellings are distinct, and none of them is a name that was kept. -/
structure Apart (given : Kind → Option Json) : Prop where
  distinct : ∀ kind other text, given kind = some (.str text) →
    given other = some (.str text) → kind = other
  notKept : ∀ kind other : Kind, given kind = some (.str other.name) → given other ≠ none

/-- A table has distinct spellings when it tells kinds apart. -/
theorem nodup_toList_iff {spellings : Spellings} :
    spellings.toList.Nodup ↔
      ∀ kind other, spellings.spell kind = spellings.spell other → kind = other :=
  ⟨fun h _ _ => spell_injective h, fun h => Kind.nodup_all.map h⟩

/-- Whether a table over the canonical names is good is seen on what is given. -/
theorem nodup_toList_iff_apart {given : Kind → Option Json} {spellings : Spellings}
    (h : Overlays given spellings) : spellings.toList.Nodup ↔ Apart given := by
  have hspell : ∀ kind text, given kind = some (.str text) → spellings.spell kind = text :=
    fun kind text htext => (Json.str.inj (h.spelled kind _ htext)).symm
  rw [nodup_toList_iff]
  constructor
  · intro hinjective
    constructor
    · intro kind other text hkind hother
      apply hinjective
      rw [hspell kind text hkind, hspell other text hother]
    · intro kind other hkind hnone
      have hsame : kind = other := by
        apply hinjective
        rw [hspell kind other.name hkind, h.kept other hnone]
      rw [hsame, hnone] at hkind
      cases hkind
  · rintro ⟨hdistinct, hkept⟩ kind other heq
    cases hkind : given kind with
    | none =>
      cases hother : given other with
      | none =>
        apply Kind.name_injective
        rw [← h.kept kind hkind, ← h.kept other hother, heq]
      | some value =>
        obtain rfl := h.spelled other value hother
        rw [← heq, h.kept kind hkind] at hother
        exact absurd hkind (hkept other kind hother)
    | some value =>
      obtain rfl := h.spelled kind value hkind
      cases hother : given other with
      | none =>
        rw [heq, h.kept other hother] at hkind
        exact absurd hother (hkept kind other hkind)
      | some value =>
        obtain rfl := h.spelled other value hother
        rw [heq] at hkind
        exact hdistinct kind other _ hkind hother

/-! ## What is read -/

/-- **A written table is read as an overlay on the canonical names.** An object is read
when each of its members gives a kind a text, and else the fault under the smallest
faulty key is reported; an array is read when it holds at most six items, all of them
texts. The table that is read has the spellings that are given and the canonical names of
the other kinds. A registry can be built from it when its spellings are distinct, for
which it is enough to look at what was given. And a table is read back from its written
form. -/
theorem ofJson_overlays_canonical :
    (∀ members : List (String × Json),
      ((∃ table, ofJson (.obj members) = .ok table) ↔
        ∀ member ∈ members, (∃ kind : Kind, kind.name = member.1) ∧
          ∃ text, member.2 = .str text) ∧
      (∀ table, ofJson (.obj members) = .ok table →
        Overlays (givenByMembers members) table) ∧
      (∀ e, ofJson (.obj members) = .error e ↔ FirstFault members e) ∧
      ∀ table, ofJson (.obj members) = .ok table →
        ((∃ built, Registry.ofSpellings table = .ok built) ↔
          ∀ kind other, table.spell kind = table.spell other → kind = other) ∧
        ((∃ built, Registry.ofSpellings table = .ok built) ↔ Apart (givenByMembers members))) ∧
    (∀ items : List Json,
      ((∃ table, ofJson (.arr items) = .ok table) ↔
        items.length ≤ 6 ∧ ∀ item ∈ items, ∃ text, item = .str text) ∧
      ∀ table, ofJson (.arr items) = .ok table → Overlays (givenByItems items) table) ∧
    ∀ table : Spellings, ofJson table.toJson = .ok table := by
  refine ⟨fun members => ⟨exists_ofJson_obj_iff, fun table h => ?_,
    fun e => ofJson_obj_eq_error_iff, fun table h => ?_⟩,
    fun items => ⟨exists_ofJson_arr_iff, fun table h => ?_⟩, ofJson_toJson⟩
  · exact (ofJson_obj_eq_ok_iff.mp h).2
  · have hoverlays := (ofJson_obj_eq_ok_iff.mp h).2
    rw [Registry.exists_ofSpellings_iff]
    exact ⟨nodup_toList_iff, nodup_toList_iff_apart hoverlays⟩
  · exact (ofJson_arr_eq_ok_iff.mp h).2

/-- A table that gives `int` the name of `bool`: what is read, and that there is no
registry of it. A table with a number under `id`, and an unknown key that is greater, or
smaller: what is reported. And a table of which the first two spellings are listed. -/
theorem ofJson_overlays_canonical_names :
    (∃ table, ofJson (.obj [("int", .str "bool"), ("nil", .str "null")]) = .ok table ∧
      table.toList = ["null", "bool", "bool", "id", "event", "state"] ∧
      ¬ ∃ built, Registry.ofSpellings table = .ok built) ∧
    ofJson (.obj [("id", .num 5 0), ("kind", .null)]) = .error .malformed ∧
    ofJson (.obj [("id", .num 5 0), ("any", .str "any")]) =
      .error (.unknownField "any" (Kind.all.map Kind.name)) ∧
    ∃ table, ofJson (.arr [.str "null", .str "truth"]) = .ok table ∧
      table.toList = ["null", "truth", "int", "id", "event", "state"] := by
  obtain ⟨hobj, harr, -⟩ := ofJson_overlays_canonical
  refine ⟨?_, ?_, ?_, ?_⟩
  · obtain ⟨hreads, hoverlays, -, hgood⟩ := hobj [("int", .str "bool"), ("nil", .str "null")]
    obtain ⟨table, htable⟩ := hreads.mpr (List.forall_mem_cons.mpr
      ⟨⟨⟨.int, rfl⟩, "bool", rfl⟩, List.forall_mem_singleton.mpr ⟨⟨.nil, rfl⟩, "null", rfl⟩⟩)
    obtain ⟨hspelled, hkept⟩ := hoverlays table htable
    have hnil : "null" = table.spell .nil := Json.str.inj (hspelled .nil _ rfl)
    have hint : "bool" = table.spell .int := Json.str.inj (hspelled .int _ rfl)
    refine ⟨table, htable, ?_, fun hbuilt => ?_⟩
    · simp only [toList, Kind.all, List.map_cons, List.map_nil, ← hnil, ← hint,
        hkept .bool rfl, hkept .id rfl, hkept .event rfl, hkept .state rfl, Kind.name]
    · exact ((hgood table htable).2.mp hbuilt).notKept .int .bool rfl rfl
  · refine ((hobj _).2.2.1 _).mpr ⟨("id", .num 5 0), by simp, .notText ⟨.id, rfl⟩ ?_, ?_⟩
    · intro text h
      cases h
    · intro other hother _ _
      simp only [List.mem_cons, List.not_mem_nil, or_false] at hother
      rcases hother with rfl | rfl <;> decide
  · refine ((hobj _).2.2.1 _).mpr ⟨("any", .str "any"), by simp, .unknown _ ?_, ?_⟩
    · intro kind
      cases kind <;> decide
    · intro other hother _ _
      simp only [List.mem_cons, List.not_mem_nil, or_false] at hother
      rcases hother with rfl | rfl <;> decide
  · obtain ⟨hreads, hoverlays⟩ := harr [.str "null", .str "truth"]
    obtain ⟨table, htable⟩ := hreads.mpr ⟨by decide, List.forall_mem_cons.mpr
      ⟨⟨"null", rfl⟩, List.forall_mem_singleton.mpr ⟨"truth", rfl⟩⟩⟩
    obtain ⟨hspelled, hkept⟩ := hoverlays table htable
    have hnil : "null" = table.spell .nil := Json.str.inj (hspelled .nil _ rfl)
    have hbool : "truth" = table.spell .bool := Json.str.inj (hspelled .bool _ rfl)
    refine ⟨table, htable, ?_⟩
    simp only [toList, Kind.all, List.map_cons, List.map_nil, ← hnil, ← hbool,
      hkept .int rfl, hkept .id rfl, hkept .event rfl, hkept .state rfl, Kind.name]

end MachineTypes.Spellings
