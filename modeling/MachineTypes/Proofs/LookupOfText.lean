import MachineTypes.Fields.Lookup
import MachineTypes.Registry.Basic
import MachineTypes.Ty.Erasure

/-!
# Looking up the text of a type

A registry can write every type, but it finds only the six texts that it has as
spellings. The text of a primitive is one of them, so that looking it up gives the
primitive back, but for the refinement of an event. Any other type has a text that
the printer fixes: `any`, something in round brackets, or something in the square
brackets of a sequence.

A table of spellings is accepted when they differ from each other. Nothing keeps
one of them from being such a text, and then the text of another type finds the
primitive that is spelled so. `Reserved` describes the texts that the spellings of
a table have to avoid; a table that does so is inverted by its registry, and no
type but a primitive is found by its text.

## Main results

* `lookup_eq_ok_iff`, `lookup_eq_error_iff` — what a registry finds, and when it
  finds nothing.
* `reserved_render` — what the text of a type looks like that is no primitive.
* `lookup_display` — what the text of a type finds.
-/

namespace MachineTypes

/-! ## Texts that the printer fixes -/

/-- The text begins with an opening and ends with a closing one. -/
def Enclosed (opening closing text : String) : Prop :=
  opening.toList <+: text.toList ∧ closing.toList <:+ text.toList

instance (opening closing text : String) : Decidable (Enclosed opening closing text) :=
  inferInstanceAs (Decidable (opening.toList <+: text.toList ∧ closing.toList <:+ text.toList))

theorem enclosed_append (opening inner closing : String) :
    Enclosed opening closing (opening ++ inner ++ closing) := by
  rw [Enclosed, String.toList_append, String.toList_append]
  exact ⟨⟨inner.toList ++ closing.toList, (List.append_assoc ..).symm⟩,
    List.suffix_append _ _⟩

/-- A text that could be that of the top type or of a compound. -/
def Reserved (text : String) : Prop :=
  text = "any" ∨ Enclosed "(" ")" text ∨ Enclosed "seq[" "]" text

instance (text : String) : Decidable (Reserved text) :=
  inferInstanceAs (Decidable (text = "any" ∨ Enclosed "(" ")" text ∨ Enclosed "seq[" "]" text))

namespace Ty

/-- A type that is no primitive has a reserved text, whatever the spellings. -/
theorem reserved_render (spell : Kind → String) {ty : Ty} (h : ty.isPrimitive = false) :
    Reserved (ty.render spell) := by
  cases ty <;> simp only [isPrimitive, kind?, Option.isSome_some, Bool.true_eq_false] at h
  case any =>
    rw [render]
    exact .inl rfl
  case tuple elements =>
    rw [render]
    exact .inr (.inl (enclosed_append ..))
  case namedTuple fields =>
    rw [render]
    exact .inr (.inl (enclosed_append ..))
  case sequence element =>
    rw [render]
    exact .inr (.inr (enclosed_append ..))

/-- A primitive is the type of its kind, but for the refinement of an event. -/
theorem ofKind_beq_of_kind? {ty : Ty} {kind : Kind} (h : ty.kind? = some kind) :
    (ofKind kind == ty) = true := by
  cases ty <;> cases h <;> rfl

end Ty

/-! ## What a registry finds -/

namespace Registry

section Lookup

variable {spellings : Spellings} {name : String}

/-- A registry finds a spelling, and then the type of the kind that is spelled so. -/
theorem lookup_eq_ok_iff (h : spellings.toList.Nodup) {ty : Ty} :
    (build spellings).value.lookup name = .ok ty ↔
      ∃ kind, spellings.spell kind = name ∧ Ty.ofKind kind = ty := by
  have hnames : (Fields.names (build spellings).value.types).Nodup := by
    rw [Fields.names, build_types h, List.map_map]
    exact h
  have hmem : (name, ty) ∈ (build spellings).value.types ↔
      ∃ kind, spellings.spell kind = name ∧ Ty.ofKind kind = ty := by
    rw [build_types h, List.mem_map]
    constructor
    · rintro ⟨kind, -, hkind⟩
      exact ⟨kind, Prod.mk.inj hkind⟩
    · rintro ⟨kind, rfl, rfl⟩
      exact ⟨kind, kind.mem_all, rfl⟩
  rw [← hmem, ← Fields.lookup_eq_some_iff_mem hnames, lookup]
  cases (build spellings).value.types.lookup name <;> simp

/-- Any other text is unknown. -/
theorem lookup_eq_error_iff (h : spellings.toList.Nodup) {error : Error} :
    (build spellings).value.lookup name = .error error ↔
      (∀ kind, spellings.spell kind ≠ name) ∧ error = .unknownPrimitive name := by
  have hunknown : ∀ e, (build spellings).value.lookup name = .error e →
      e = .unknownPrimitive name := by
    intro e he
    rw [lookup] at he
    split at he
    · cases he
    · exact (Except.error.inj he).symm
  constructor
  · intro herror
    refine ⟨fun kind hkind => ?_, hunknown error herror⟩
    rw [(lookup_eq_ok_iff h).mpr ⟨kind, hkind, rfl⟩] at herror
    cases herror
  · rintro ⟨hne, rfl⟩
    cases hfound : (build spellings).value.lookup name with
    | ok ty =>
      obtain ⟨kind, hkind, -⟩ := (lookup_eq_ok_iff h).mp hfound
      exact absurd hkind (hne kind)
    | error e => rw [hunknown e hfound]

end Lookup

/-! ## What the text of a type finds -/

/-- The text of a primitive finds this primitive, but for the refinement of an event. -/
private theorem lookup_display_of_isPrimitive {spellings : Spellings}
    (h : spellings.toList.Nodup) {ty : Ty} (hty : ty.isPrimitive = true) :
    ∃ found, (build spellings).value.lookup ((build spellings).value.display ty) = .ok found ∧
      (found == ty) = true := by
  obtain ⟨kind, hkind⟩ := Option.isSome_iff_exists.mp hty
  have hspelled : spellings.spell kind = (build spellings).value.display ty :=
    (Ty.render_of_kind? hkind).symm
  exact ⟨Ty.ofKind kind, (lookup_eq_ok_iff h).mpr ⟨kind, hspelled, rfl⟩,
    Ty.ofKind_beq_of_kind? hkind⟩

/-- The text of any other type is unknown where no spelling is reserved. -/
private theorem lookup_display_of_not_isPrimitive {spellings : Spellings}
    (h : spellings.toList.Nodup) (hfree : ∀ kind, ¬ Reserved (spellings.spell kind)) {ty : Ty}
    (hty : ty.isPrimitive = false) :
    (build spellings).value.lookup ((build spellings).value.display ty) =
      .error (.unknownPrimitive ((build spellings).value.display ty)) := by
  refine (lookup_eq_error_iff h).mpr ⟨fun kind hkind => hfree kind ?_, rfl⟩
  rw [hkind]
  exact Ty.reserved_render spellings.spell hty

/-- **What the text of a type finds in the registry that wrote it.** A primitive is
found again. The text of any other type is unknown, except where it is one of the
spellings; it then finds the primitive that is spelled so. When no spelling is
reserved, exactly the primitives are found by their texts. -/
theorem lookup_display {spellings : Spellings} {built : Logged Registry}
    (h : ofSpellings spellings = .ok built) :
    (∀ ty : Ty, ty.isPrimitive = true →
      ∃ found, built.value.lookup (built.value.display ty) = .ok found ∧
        (found == ty) = true) ∧
    (∀ ty : Ty, ty.isPrimitive = false →
      (∀ kind, spellings.spell kind = built.value.display ty →
        built.value.lookup (built.value.display ty) = .ok (Ty.ofKind kind)) ∧
      ((∀ kind, spellings.spell kind ≠ built.value.display ty) →
        built.value.lookup (built.value.display ty) =
          .error (.unknownPrimitive (built.value.display ty)))) ∧
    ((∀ kind, ¬ Reserved (spellings.spell kind)) → ∀ ty : Ty,
      ((∃ found, built.value.lookup (built.value.display ty) = .ok found) ↔
        ty.isPrimitive = true) ∧
      (ty.isPrimitive = false → built.value.lookup (built.value.display ty) =
        .error (.unknownPrimitive (built.value.display ty)))) := by
  obtain ⟨hnodup, rfl⟩ := ofSpellings_eq_ok_iff.mp h
  refine ⟨fun ty hty => lookup_display_of_isPrimitive hnodup hty, fun ty hty => ⟨?_, ?_⟩,
    fun hfree ty => ⟨⟨?_, ?_⟩, lookup_display_of_not_isPrimitive hnodup hfree⟩⟩
  · exact fun kind hkind => (lookup_eq_ok_iff hnodup).mpr ⟨kind, hkind, rfl⟩
  · exact fun hne => (lookup_eq_error_iff hnodup).mpr ⟨hne, rfl⟩
  · rintro ⟨found, hfound⟩
    cases hty : ty.isPrimitive with
    | true => rfl
    | false =>
      rw [lookup_display_of_not_isPrimitive hnodup hfree hty] at hfound
      cases hfound
  · intro hty
    obtain ⟨found, hfound, -⟩ := lookup_display_of_isPrimitive hnodup hty
    exact ⟨found, hfound⟩

/-- A registry in which `int` is spelled `integer` finds a primitive that it wrote,
and no tuple. -/
theorem lookup_display_integer :
    ∃ spellings : Spellings, spellings.spell .int = "integer" ∧
      (∃ found, (build spellings).value.lookup "integer" = .ok found ∧
        (found == .int) = true) ∧
      (build spellings).value.lookup "(integer)" = .error (.unknownPrimitive "(integer)") := by
  have hbuilt : ofSpellings ⟨fun kind => if kind = .int then "integer" else kind.name⟩ =
      .ok (build ⟨fun kind => if kind = .int then "integer" else kind.name⟩) :=
    ofSpellings_eq_ok_iff.mpr ⟨by decide, rfl⟩
  obtain ⟨hprimitive, -, hfree⟩ := lookup_display hbuilt
  exact ⟨_, rfl, hprimitive .int rfl,
    (hfree (fun kind => by cases kind <;> decide) (.tuple [.int])).2 rfl⟩

/-- A registry is built from a table in which `int` is spelled `any` and `bool` is
spelled `()`, and it finds a primitive by the text of the top type and by that of
the empty tuple. -/
theorem lookup_display_reserved_spellings :
    ∃ (spellings : Spellings) (built : Logged Registry), ofSpellings spellings = .ok built ∧
      built.value.lookup (built.value.display .any) = .ok .int ∧
      built.value.lookup (built.value.display (.tuple [])) = .ok .bool ∧
      ¬ ∀ ty : Ty, (∃ found, built.value.lookup (built.value.display ty) = .ok found) ↔
        ty.isPrimitive = true := by
  have hnodup : (Spellings.mk fun
      | .int => "any"
      | .bool => "()"
      | kind => kind.name).toList.Nodup := by decide
  have hany := (lookup_eq_ok_iff hnodup).mpr ⟨.int, rfl, rfl⟩
  refine ⟨_, _, ofSpellings_eq_ok_iff.mpr ⟨hnodup, rfl⟩, hany,
    (lookup_eq_ok_iff hnodup).mpr ⟨.bool, rfl, rfl⟩, fun hexact => ?_⟩
  exact Bool.false_ne_true ((hexact .any).mp ⟨_, hany⟩)

end Registry

end MachineTypes
