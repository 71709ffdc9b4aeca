import MachineTypes.Proofs.Refinements
import MachineTypes.Ty.Marks
import Mathlib.Data.List.Nodup

/-!
# The text of a type can be read in one way only

A type is written without quotes, and whatever names it contains stand in its
text as they are. As long as these names do not look like punctuation, the text
determines the type: up to refinements, which are not shown, and up to the two
compounds without components, which are both written `()`.

A text is taken apart from its front. It starts with a word, perhaps an empty
one, that ends at the first mark of punctuation, and the word together with this
mark tells what was written: a type without components, a group in round
brackets, or a sequence (`Written`). The components follow, and each of them
ends where the punctuation of the whole goes on. So the statement proved by
induction is about a text and what may follow it: if two types are written and
something that closes them follows, then the types are shown alike and the same
follows (`ReadsUniquely`).

Tuples and named tuples are written in the same brackets, and a component of the
one could be taken for a component of the other. Both are therefore treated as
groups of entries, with a label or without one.

## Main results

* `word_append_inj` — a word is split off in one way.
* `entry_append_inj`, `group_append_inj` — so is an entry, and so is a group.
* `readsUniquely` — so is the text of a type.
* `display_eq_iff_beq_mergeEmpty` — which types a registry writes alike.
-/

namespace MachineTypes

/-! ## Words and what follows them -/

/-- What follows begins with a mark, if there is anything. -/
def Breaks (following : List Char) : Prop := ∀ c ∈ following.head?, c ∈ marks

/-- What follows begins with a mark that stands after a whole type, if there is
anything. -/
def Closes (following : List Char) : Prop := ∀ c ∈ following.head?, c ∈ [',', ')', ']']

theorem Closes.breaks {following : List Char} (h : Closes following) : Breaks following := by
  intro c hc
  have hclosing := h c hc
  simp only [List.mem_cons, List.not_mem_nil, or_false] at hclosing
  rcases hclosing with rfl | rfl | rfl <;> decide

theorem breaks_cons {c : Char} {rest : List Char} (h : c ∈ marks) : Breaks (c :: rest) := by
  intro d hd
  rw [List.head?_cons, Option.mem_some_iff] at hd
  exact hd ▸ h

theorem closes_cons {c : Char} {rest : List Char} (h : c ∈ [',', ')', ']']) :
    Closes (c :: rest) := by
  intro d hd
  rw [List.head?_cons, Option.mem_some_iff] at hd
  exact hd ▸ h

/-- What closes a type does not begin like the rest of one. -/
theorem Closes.ne_cons {following rest : List Char} {c : Char} (h : Closes following)
    (hc : c ∉ [',', ')', ']']) : following ≠ c :: rest := by
  intro heq
  exact hc (h c (by rw [heq]; rfl))

/-- A word that a mark or nothing follows is split off in one way. -/
theorem word_append_inj {v w r s : List Char} (hv : ∀ c ∈ v, c ∉ marks)
    (hw : ∀ c ∈ w, c ∉ marks) (hr : Breaks r) (hs : Breaks s) (h : v ++ r = w ++ s) :
    v = w ∧ r = s := by
  induction v generalizing w with
  | nil =>
    cases w with
    | nil => exact ⟨rfl, h⟩
    | cons d w =>
      have hmark : d ∈ marks := hr d (by rw [← List.nil_append r, h]; rfl)
      exact absurd hmark (hw d List.mem_cons_self)
  | cons c v ih =>
    cases w with
    | nil =>
      have hmark : c ∈ marks := hs c (by rw [← List.nil_append s, ← h]; rfl)
      exact absurd hmark (hv c List.mem_cons_self)
    | cons d w =>
      obtain ⟨hcd, hrest⟩ := List.cons.inj h
      obtain ⟨hvw, hrs⟩ := ih (fun c hc => hv c (List.mem_cons_of_mem _ hc))
        (fun c hc => hw c (List.mem_cons_of_mem _ hc)) hrest
      exact ⟨by rw [hcd, hvw], hrs⟩

namespace Ty

/-! ## Entries -/

/-- A component of a tuple or of a named tuple, with its label if it has one. -/
abbrev Entry : Type := Option String × Ty

/-- The components of a type that is written in round brackets. -/
def entries? : Ty → Option (List Entry)
  | tuple elements => some (elements.map fun element => (none, element))
  | namedTuple fields => some (fields.map fun field => (some field.1, field.2))
  | _ => none

/-- What the text of a type tells of it. -/
def shown (ty : Ty) : Ty := ty.mergeEmpty.erase

/-- What the text of an entry tells of it. -/
def Entry.shown (entry : Entry) : Entry := (entry.1, entry.2.shown)

/-- The type with the given entries, all with labels or all without. -/
def ofEntries : List Entry → Ty
  | [] => tuple []
  | (none, ty) :: rest => tuple (ty :: rest.map Prod.snd)
  | (some label, ty) :: rest =>
    namedTuple ((label, ty) :: rest.map fun entry => (entry.1.getD label, entry.2))

/-- What is told of a type in round brackets is what is told of its entries. -/
private theorem shown_eq_ofEntries {ty : Ty} {entries : List Entry}
    (h : ty.entries? = some entries) : ty.shown = ofEntries (entries.map Entry.shown) := by
  cases ty <;> simp only [entries?, Option.some.injEq, reduceCtorEq] at h
  case tuple elements =>
    subst h
    cases elements with
    | nil => rfl
    | cons first rest =>
      simp [shown, mergeEmpty, erase, mergeEmptyEach_eq_map, eraseEach_eq_map, ofEntries,
        Entry.shown, Function.comp_def]
  case namedTuple fields =>
    subst h
    cases fields with
    | nil => rfl
    | cons first rest =>
      simp [shown, mergeEmpty, erase, mergeEmptyFields_eq_map, eraseFields_eq_map, ofEntries,
        Entry.shown, Function.comp_def]

/-! ## Texts as lists of characters -/

section Reading

variable (spell : Kind → String)

/-- The characters of the text of a type. -/
def chars (ty : Ty) : List Char := (ty.render spell).toList

/-- The characters of an entry: its label and a colon, if it has one, and its type. -/
def entryChars : Entry → List Char
  | (none, ty) => chars spell ty
  | (some label, ty) => label.toList ++ ':' :: chars spell ty

/-- The characters of the entries that follow a first one. -/
def furtherChars (entries : List Entry) : List Char :=
  entries.flatMap fun entry => ',' :: entryChars spell entry

/-- The characters of all entries. -/
def groupChars : List Entry → List Char
  | [] => []
  | entry :: rest => entryChars spell entry ++ furtherChars spell rest

private theorem intercalate_eq_groupChars (entries : List Entry) :
    List.intercalate [','] (entries.map (entryChars spell)) = groupChars spell entries := by
  cases entries with
  | nil => rfl
  | cons entry rest =>
    induction rest generalizing entry with
    | nil => simp [groupChars, furtherChars]
    | cons next rest ih =>
      rw [List.map_cons, List.map_cons, List.intercalate_cons_cons, ← List.map_cons, ih]
      simp [groupChars, furtherChars]

/-- A type with entries is written as a group in round brackets. -/
private theorem chars_eq_of_entries {ty : Ty} {entries : List Entry}
    (h : ty.entries? = some entries) :
    chars spell ty = '(' :: (groupChars spell entries ++ [')']) := by
  have hbrackets : ∀ inner : List String,
      ("(" ++ String.intercalate "," inner ++ ")").toList =
        '(' :: (List.intercalate [','] (inner.map String.toList) ++ [')']) := by
    intro inner
    rw [String.toList_append, String.toList_append, String.toList_intercalate]
    rfl
  rw [← intercalate_eq_groupChars]
  cases ty <;> simp only [entries?, Option.some.injEq, reduceCtorEq] at h
  case tuple elements =>
    subst h
    rw [chars, render, hbrackets, renderEach_eq_map, List.map_map, List.map_map]
    rfl
  case namedTuple fields =>
    subst h
    rw [chars, render, hbrackets, renderFields_eq_map, List.map_map, List.map_map]
    congr 4
    funext field
    simp [entryChars, chars]

example : chars Kind.name (namedTuple [("a", event (some "e")), ("b", tuple [])]) =
    "(a:event,b:())".toList := rfl

/-! ## The front of a text -/

/-- Spellings with which texts can be read: plain, different from each other, and
different from the text of the top type. -/
structure Legible : Prop where
  plain : ∀ kind, Plain (spell kind)
  ne_any : ∀ kind, spell kind ≠ "any"
  injective : ∀ {a b : Kind}, spell a = spell b → a = b

/-- The word in front of the text of a type, and what follows it. -/
inductive Written : Ty → List Char → List Char → Prop where
  | scalar {ty : Ty} (h : ty.shape? = none) : Written ty (chars spell ty) []
  | group {ty : Ty} {entries : List Entry} (h : ty.entries? = some entries) :
      Written ty [] ('(' :: (groupChars spell entries ++ [')']))
  | sequence (element : Ty) :
      Written (sequence element) "seq".toList ('[' :: (chars spell element ++ [']']))

theorem exists_written (ty : Ty) : ∃ word body, Written spell ty word body := by
  cases ty with
  | tuple elements => exact ⟨_, _, .group rfl⟩
  | namedTuple fields => exact ⟨_, _, .group rfl⟩
  | sequence element => exact ⟨_, _, .sequence element⟩
  | _ => exact ⟨_, _, .scalar rfl⟩

variable {spell}

theorem Written.chars_eq {ty : Ty} {word body : List Char} (h : Written spell ty word body) :
    chars spell ty = word ++ body := by
  cases h with
  | scalar h => rw [List.append_nil]
  | group h => exact chars_eq_of_entries spell h
  | sequence element =>
    rw [chars, render, String.toList_append, String.toList_append, List.append_assoc]
    rfl

/-- After the front word of a type's text, which is followed by what closes the
type, comes a mark or nothing. -/
theorem Written.breaks {ty : Ty} {word body following : List Char}
    (h : Written spell ty word body) (hfollowing : Closes following) :
    Breaks (body ++ following) := by
  cases h with
  | scalar h => exact hfollowing.breaks
  | group h => exact breaks_cons (by decide)
  | sequence element => exact breaks_cons (by decide)

/-- A type without parts is a primitive or the top type. -/
private theorem kind?_or_any_of_scalar {ty : Ty} (h : ty.shape? = none) :
    (∃ kind, ty.kind? = some kind) ∨ ty = any := by
  cases ty <;> simp [shape?, kind?] at h ⊢

private theorem plain_of_scalar (hspell : Legible spell) {ty : Ty} (h : ty.shape? = none) :
    Plain (ty.render spell) := by
  rcases kind?_or_any_of_scalar h with ⟨kind, hkind⟩ | rfl
  · rw [render_of_kind? hkind]
    exact hspell.plain kind
  · rw [render]
    decide

theorem Written.unmarked (hspell : Legible spell) {ty : Ty} {word body : List Char}
    (h : Written spell ty word body) : ∀ c ∈ word, c ∉ marks := by
  cases h with
  | scalar h => exact (plain_of_scalar hspell h).2
  | group h => exact fun c hc => absurd hc List.not_mem_nil
  | sequence element =>
    have hseq : MachineTypes.Unmarked "seq" := by decide
    exact hseq

/-- Types without parts that are written alike are shown alike. -/
private theorem shown_eq_of_scalar (hspell : Legible spell) {a b : Ty} (ha : a.shape? = none)
    (hb : b.shape? = none) (h : a.render spell = b.render spell) : a.shown = b.shown := by
  have hkind : ∀ {ty : Ty} {kind : Kind}, ty.kind? = some kind → ty.shown = ofKind kind := by
    intro ty kind hkind
    cases ty <;> cases hkind <;> rfl
  rcases kind?_or_any_of_scalar ha with ⟨k, hk⟩ | rfl
  · rw [render_of_kind? hk] at h
    rcases kind?_or_any_of_scalar hb with ⟨l, hl⟩ | rfl
    · rw [render_of_kind? hl] at h
      rw [hkind hk, hkind hl, hspell.injective h]
    · exact absurd h (hspell.ne_any k)
  · rcases kind?_or_any_of_scalar hb with ⟨l, hl⟩ | rfl
    · rw [render_of_kind? hl] at h
      exact absurd h.symm (hspell.ne_any l)
    · rfl

/-! ## Reading entries -/

variable (spell) in
/-- In whatever text the type stands, no other type can be read in its place, apart
from those that are shown alike. -/
def ReadsUniquely (a : Ty) : Prop :=
  ∀ (b : Ty) (r s : List Char), b.NamesUnmarked → Closes r → Closes s →
    chars spell a ++ r = chars spell b ++ s → a.shown = b.shown ∧ r = s

/-- The label of the entry, if it has one, contains no punctuation. -/
def Entry.Unmarked (entry : Entry) : Prop := ∀ label ∈ entry.1, MachineTypes.Unmarked label

/-- No type is written like an entry with a label. -/
private theorem chars_append_ne_label (hspell : Legible spell) {ty : Ty} {label : String}
    {r s : List Char} (hlabel : MachineTypes.Unmarked label) (hr : Closes r) :
    chars spell ty ++ r ≠ label.toList ++ ':' :: s := by
  intro h
  obtain ⟨word, body, hwritten⟩ := exists_written spell ty
  rw [hwritten.chars_eq, List.append_assoc] at h
  have hbody : body ++ r = ':' :: s :=
    (word_append_inj (hwritten.unmarked hspell) hlabel (hwritten.breaks hr)
      (breaks_cons (by decide)) h).2
  cases hwritten with
  | scalar => exact absurd hbody (hr.ne_cons (by decide))
  | group => exact absurd (List.cons.inj hbody).1 (by decide)
  | sequence => exact absurd (List.cons.inj hbody).1 (by decide)

/-- No entry begins with a closing bracket. -/
private theorem entryChars_append_ne_close (hspell : Legible spell) {entry : Entry}
    {r s : List Char} (hentry : entry.Unmarked) (hr : Closes r) :
    entryChars spell entry ++ r ≠ ')' :: s := by
  intro h
  have hempty : ∀ c ∈ ([] : List Char), c ∉ marks := fun c hc => absurd hc List.not_mem_nil
  obtain ⟨label?, ty⟩ := entry
  cases label? with
  | some label =>
    rw [entryChars, List.append_assoc, List.cons_append] at h
    have hmark := (word_append_inj (hentry label rfl) hempty (breaks_cons (by decide))
      (breaks_cons (by decide)) h).2
    exact absurd (List.cons.inj hmark).1 (by decide)
  | none =>
    obtain ⟨word, body, hwritten⟩ := exists_written spell ty
    rw [entryChars, hwritten.chars_eq, List.append_assoc] at h
    obtain ⟨hword, hbody⟩ := word_append_inj (hwritten.unmarked hspell) hempty
      (hwritten.breaks hr) (breaks_cons (by decide)) h
    cases hwritten with
    | scalar hscalar =>
      have hne : ty.render spell ≠ "" := (plain_of_scalar hspell hscalar).1
      exact hne (String.toList_inj.mp hword)
    | group => exact absurd (List.cons.inj hbody).1 (by decide)
    | sequence => exact absurd hword (by decide)

/-- An entry is split off in one way. -/
theorem entry_append_inj (hspell : Legible spell) {e f : Entry} {r s : List Char}
    (he : e.Unmarked) (hread : ReadsUniquely spell e.2) (hf : f.Unmarked)
    (hnames : f.2.NamesUnmarked) (hr : Closes r) (hs : Closes s)
    (h : entryChars spell e ++ r = entryChars spell f ++ s) : e.shown = f.shown ∧ r = s := by
  obtain ⟨elabel, ety⟩ := e
  obtain ⟨flabel, fty⟩ := f
  cases elabel with
  | none =>
    cases flabel with
    | none =>
      obtain ⟨hshown, hrs⟩ := hread fty r s hnames hr hs h
      exact ⟨congrArg (Prod.mk none) hshown, hrs⟩
    | some flabel =>
      rw [entryChars, entryChars, List.append_assoc, List.cons_append] at h
      exact absurd h (chars_append_ne_label hspell (hf flabel rfl) hr)
  | some elabel =>
    cases flabel with
    | none =>
      rw [entryChars, entryChars, List.append_assoc, List.cons_append] at h
      exact absurd h.symm (chars_append_ne_label hspell (he elabel rfl) hs)
    | some flabel =>
      simp only [entryChars, List.append_assoc, List.cons_append] at h
      obtain ⟨hlabel, hrest⟩ := word_append_inj (he elabel rfl) (hf flabel rfl)
        (breaks_cons (by decide)) (breaks_cons (by decide)) h
      obtain ⟨hshown, hrs⟩ := hread fty r s hnames hr hs (List.cons.inj hrest).2
      rw [Entry.shown, Entry.shown, String.toList_inj.mp hlabel, hshown]
      exact ⟨rfl, hrs⟩

/-- After an entry of a group the entry is over. -/
private theorem closes_further (entries : List Entry) (following : List Char) :
    Closes (furtherChars spell entries ++ ')' :: following) := by
  cases entries with
  | nil => exact closes_cons (by decide)
  | cons entry rest => exact closes_cons (by decide)

/-- Entries that follow others are split off in one way, up to the closing bracket. -/
private theorem further_append_inj (hspell : Legible spell) {es fs : List Entry}
    {r s : List Char} (hes : ∀ e ∈ es, e.Unmarked ∧ ReadsUniquely spell e.2)
    (hfs : ∀ f ∈ fs, f.Unmarked ∧ f.2.NamesUnmarked)
    (h : furtherChars spell es ++ ')' :: r = furtherChars spell fs ++ ')' :: s) :
    es.map Entry.shown = fs.map Entry.shown ∧ r = s := by
  induction es generalizing fs with
  | nil =>
    cases fs with
    | nil => exact ⟨rfl, (List.cons.inj h).2⟩
    | cons f fs => exact absurd (List.cons.inj h).1 (by decide)
  | cons e es ih =>
    cases fs with
    | nil => exact absurd (List.cons.inj h).1 (by decide)
    | cons f fs =>
      obtain ⟨⟨he, hread⟩, hes⟩ := List.forall_mem_cons.mp hes
      obtain ⟨⟨hf, hnames⟩, hfs⟩ := List.forall_mem_cons.mp hfs
      simp only [furtherChars, List.flatMap_cons, List.cons_append, List.append_assoc,
        List.cons.injEq, true_and] at h
      obtain ⟨hshown, hrest⟩ := entry_append_inj hspell he hread hf hnames
        (closes_further es r) (closes_further fs s) h
      obtain ⟨hshowns, hrs⟩ := ih hes hfs hrest
      exact ⟨by rw [List.map_cons, List.map_cons, hshown, hshowns], hrs⟩

/-- A group is split off in one way, up to its closing bracket. -/
theorem group_append_inj (hspell : Legible spell) {es fs : List Entry} {r s : List Char}
    (hes : ∀ e ∈ es, e.Unmarked ∧ ReadsUniquely spell e.2)
    (hfs : ∀ f ∈ fs, f.Unmarked ∧ f.2.NamesUnmarked)
    (h : groupChars spell es ++ ')' :: r = groupChars spell fs ++ ')' :: s) :
    es.map Entry.shown = fs.map Entry.shown ∧ r = s := by
  cases es with
  | nil =>
    cases fs with
    | nil => exact ⟨rfl, (List.cons.inj h).2⟩
    | cons f fs =>
      obtain ⟨⟨hf, -⟩, -⟩ := List.forall_mem_cons.mp hfs
      rw [groupChars, groupChars, List.append_assoc] at h
      exact absurd h.symm (entryChars_append_ne_close hspell hf (closes_further fs s))
  | cons e es =>
    cases fs with
    | nil =>
      obtain ⟨⟨he, -⟩, -⟩ := List.forall_mem_cons.mp hes
      rw [groupChars, groupChars, List.append_assoc] at h
      exact absurd h (entryChars_append_ne_close hspell he (closes_further es r))
    | cons f fs =>
      refine further_append_inj hspell hes hfs ?_
      simpa [furtherChars, groupChars] using h

/-! ## Reading types -/

private theorem mem_parts_of_mem_entries {ty : Ty} {entries : List Entry} {entry : Entry}
    (h : ty.entries? = some entries) (hmem : entry ∈ entries) : entry.2 ∈ ty.parts := by
  cases ty <;> simp only [entries?, Option.some.injEq, reduceCtorEq] at h
  case tuple elements =>
    subst h
    obtain ⟨element, helement, rfl⟩ := List.mem_map.mp hmem
    exact helement
  case namedTuple fields =>
    subst h
    obtain ⟨field, hfield, rfl⟩ := List.mem_map.mp hmem
    exact List.mem_map_of_mem hfield

private theorem unmarked_of_mem_entries {ty : Ty} {entries : List Entry} {entry : Entry}
    (hnames : ty.NamesUnmarked) (h : ty.entries? = some entries) (hmem : entry ∈ entries) :
    entry.Unmarked ∧ entry.2.NamesUnmarked := by
  cases ty <;> simp only [entries?, Option.some.injEq, reduceCtorEq] at h
  case tuple elements =>
    subst h
    obtain ⟨element, helement, rfl⟩ := List.mem_map.mp hmem
    exact ⟨fun label hlabel => (Option.some_ne_none label hlabel.symm).elim,
      namesUnmarkedEach_iff.mp hnames element helement⟩
  case namedTuple fields =>
    subst h
    obtain ⟨field, hfield, rfl⟩ := List.mem_map.mp hmem
    obtain ⟨hname, hty⟩ := namesUnmarkedFields_iff.mp hnames field hfield
    exact ⟨fun label hlabel => Option.some.inj hlabel ▸ hname, hty⟩

/-- The text of a type can be read in one way only, whatever it stands in. -/
theorem readsUniquely (hspell : Legible spell) {a : Ty} (ha : a.NamesUnmarked) :
    ReadsUniquely spell a := by
  induction a using parts_induction with
  | step a ih =>
    intro b r s hb hr hs h
    obtain ⟨word, body, hwa⟩ := exists_written spell a
    obtain ⟨other, rest, hwb⟩ := exists_written spell b
    rw [hwa.chars_eq, hwb.chars_eq, List.append_assoc, List.append_assoc] at h
    obtain ⟨hword, hbody⟩ := word_append_inj (hwa.unmarked hspell) (hwb.unmarked hspell)
      (hwa.breaks hr) (hwb.breaks hs) h
    -- The mark after the word tells the three forms apart.
    cases hwa with
    | scalar has =>
      cases hwb with
      | scalar hbs => exact ⟨shown_eq_of_scalar hspell has hbs (String.toList_inj.mp hword), hbody⟩
      | group => exact absurd hbody (hr.ne_cons (by decide))
      | sequence => exact absurd hbody (hr.ne_cons (by decide))
    | @group _ es hes =>
      cases hwb with
      | scalar => exact absurd hbody.symm (hs.ne_cons (by decide))
      | @group _ fs hfs =>
        simp only [List.cons_append, List.append_assoc, List.nil_append, List.cons.injEq,
          true_and] at hbody
        have hread : ∀ e ∈ es, e.Unmarked ∧ ReadsUniquely spell e.2 := by
          intro e he
          obtain ⟨hlabel, hnames⟩ := unmarked_of_mem_entries ha hes he
          obtain ⟨i, hi⟩ := List.mem_iff_getElem?.mp (mem_parts_of_mem_entries hes he)
          exact ⟨hlabel, ih i e.2 hi hnames⟩
        obtain ⟨hshown, hrs⟩ := group_append_inj hspell hread
          (fun f hf => unmarked_of_mem_entries hb hfs hf) hbody
        rw [shown_eq_ofEntries hes, shown_eq_ofEntries hfs, hshown]
        exact ⟨rfl, hrs⟩
      | sequence => exact absurd (List.cons.inj hbody).1 (by decide)
    | sequence x =>
      cases hwb with
      | scalar => exact absurd hbody.symm (hs.ne_cons (by decide))
      | group => exact absurd (List.cons.inj hbody).1 (by decide)
      | sequence y =>
        simp only [List.cons_append, List.append_assoc, List.nil_append, List.cons.injEq,
          true_and] at hbody
        obtain ⟨hshown, hrs⟩ := ih 0 x rfl ha y (']' :: r) (']' :: s) hb
          (closes_cons (by decide)) (closes_cons (by decide)) hbody
        have hsequence : ∀ ty : Ty, (sequence ty).shown = sequence ty.shown := fun ty => rfl
        rw [hsequence, hsequence, hshown]
        exact ⟨rfl, (List.cons.inj hrs).2⟩

/-- Types without punctuation in their field names are written alike exactly when
they are equal, but for empty compounds. -/
theorem render_eq_iff (hspell : Legible spell) {a b : Ty} (ha : a.NamesUnmarked)
    (hb : b.NamesUnmarked) :
    a.render spell = b.render spell ↔ (a.mergeEmpty == b.mergeEmpty) = true := by
  constructor
  · intro h
    have hnil : Closes [] := fun c hc => absurd hc (Option.not_mem_none c)
    have hchars : chars spell a ++ [] = chars spell b ++ [] := by rw [chars, chars, h]
    exact beq_iff.mpr (readsUniquely hspell ha b [] [] hb hnil hnil hchars).1
  · intro h
    rw [← render_mergeEmpty spell a, render_eq_of_beq spell h, render_mergeEmpty]

end Reading

end Ty

/-! ## Registries -/

/-- A table of different spellings tells kinds apart. -/
theorem Spellings.spell_injective {spellings : Spellings} (h : spellings.toList.Nodup)
    {a b : Kind} (heq : spellings.spell a = spellings.spell b) : a = b :=
  List.inj_on_of_nodup_map h a.mem_all b.mem_all heq

namespace Registry

/-- The canonical names are plain, different, and none of them is `any`. -/
private theorem legible_name : Ty.Legible Kind.name where
  plain kind := by cases kind <;> decide
  ne_any kind := by cases kind <;> decide
  injective h := Kind.name_injective h

/-- **A registry with plain spellings writes types so that they can be told
apart**, but for refinements and empty compounds, as long as no field name holds
punctuation. The registry of the canonical names writes types as they are written
without a registry, so that the same holds of their own texts. -/
theorem display_eq_iff_beq_mergeEmpty :
    (∀ (spellings : Spellings) (built : Logged Registry), ofSpellings spellings = .ok built →
      (∀ kind, Plain (spellings.spell kind) ∧ spellings.spell kind ≠ "any") →
      ∀ a b : Ty, a.NamesUnmarked → b.NamesUnmarked →
        (built.value.display a = built.value.display b ↔
          (a.mergeEmpty == b.mergeEmpty) = true)) ∧
    (∀ ty : Ty, canonical.value.display ty = ty.text) ∧
    ∀ a b : Ty, a.NamesUnmarked → b.NamesUnmarked →
      (a.text = b.text ↔ (a.mergeEmpty == b.mergeEmpty) = true) := by
  refine ⟨fun spellings built hbuilt hspell a b ha hb => ?_, fun ty => rfl, fun a b ha hb => ?_⟩
  · obtain ⟨hnodup, rfl⟩ := ofSpellings_eq_ok_iff.mp hbuilt
    have hlegible : Ty.Legible spellings.spell :=
      ⟨fun kind => (hspell kind).1, fun kind => (hspell kind).2, spellings.spell_injective hnodup⟩
    exact Ty.render_eq_iff hlegible ha hb
  · exact Ty.render_eq_iff legible_name ha hb

/-- A registry in which `int` is spelled like the front of a sequence: two types
that it writes alike, and two that it does not. -/
theorem display_eq_iff_beq_mergeEmpty_seq :
    ∃ spellings : Spellings, spellings.spell .int = "seq" ∧
      (build spellings).value.display (.tuple [.int, .sequence (.namedTuple [])]) =
        (build spellings).value.display (.tuple [.int, .sequence (.tuple [])]) ∧
      (build spellings).value.display (.namedTuple [("seq", .sequence .int)]) ≠
        (build spellings).value.display (.tuple [.sequence .int]) := by
  have hbuilt : ofSpellings ⟨fun kind => if kind = .int then "seq" else kind.name⟩ =
      .ok (build ⟨fun kind => if kind = .int then "seq" else kind.name⟩) :=
    ofSpellings_eq_ok_iff.mpr ⟨by decide, rfl⟩
  have hiff := display_eq_iff_beq_mergeEmpty.1 _ _ hbuilt fun kind => by cases kind <;> decide
  refine ⟨⟨fun kind => if kind = .int then "seq" else kind.name⟩, rfl, ?_, ?_⟩
  · refine (hiff _ _ ?_ ?_).mpr rfl <;>
      simp [Ty.NamesUnmarked, Ty.NamesUnmarkedEach, Ty.NamesUnmarkedFields]
  · intro h
    have hfield : (Ty.namedTuple [("seq", .sequence .int)]).NamesUnmarked :=
      ⟨by decide, trivial, trivial⟩
    have htuple : (Ty.tuple [.sequence .int]).NamesUnmarked := ⟨trivial, trivial⟩
    have hbeq := (hiff _ _ hfield htuple).mp h
    cases hbeq

end Registry

end MachineTypes
