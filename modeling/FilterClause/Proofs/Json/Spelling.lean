import FilterClause.Proofs.Json.Reading
import FilterClause.Proofs.Json.Scan
import Mathlib.Data.List.Nodup
import Mathlib.Tactic.Choose

/-!
# Spellings

A value of a given shape can be written in many ways: the fields of a record stand in any order,
among members of other names, or in an array in their own order; those without a value may be null
or missing; a case without content is its name or an object with null; strings may have escapes. A
`Spelling` is the set of these ways, as tokens. A reader that accepts the spellings of the parts of
a value accepts those of the whole, whatever is chosen in each of them.
-/

namespace FilterClause.Json

/-- The tokens of a value of any shape. Its numbers may be out of range and the escapes in its
strings may denote no character. -/
inductive IsValue : List (List Char) → Prop where
  | null : IsValue ["null".toList]
  | bool (b : Bool) : IsValue (tokens (.bool b))
  | number {n : Numeral} {token} (hn : n.IsWellFormed) (ht : token ∈ n.spellings) : IsValue [token]
  | string {body units} (h : Spells body units) : IsValue [quoted body]
  | array {items} (h : ∀ item ∈ items, IsValue item) :
    IsValue (['['] :: (commaTokens items ++ [[']']]))
  | object {members : List (List Char × List (List Char))}
    (hkeys : ∀ m ∈ members, ∃ units, Spells m.1 units) (hvalues : ∀ m ∈ members, IsValue m.2) :
    IsValue (['{'] :: (commaTokens (members.map fun m => quoted m.1 :: [':'] :: m.2) ++ [['}']]))

theorem IsValue.exists_shows {tokens : List (List Char)} (h : IsValue tokens) :
    ∃ doc, Shows doc tokens := by
  have hdocument : Nonempty Document := ⟨.missing⟩
  induction h with
  | null => exact ⟨_, shows_null⟩
  | bool b => exact ⟨_, shows_bool b⟩
  | number hn ht => exact ⟨_, shows_number hn ht⟩
  | string h => exact ⟨_, shows_string h⟩
  | @array items _ ih =>
    choose! doc hdoc using ih
    refine ⟨.array (items.map doc) none, shows_array ?_⟩
    rw [List.forall₂_map_left_iff, List.forall₂_same]
    exact hdoc
  | @object members hkeys _ ih =>
    choose! units hunits using hkeys
    choose! doc hdoc using ih
    refine ⟨.object (members.map fun m => ((decodeUnits none (units m)).map String.ofList, doc m))
      none, shows_object ?_⟩
    rw [List.forall₂_map_left_iff, List.forall₂_map_right_iff, List.forall₂_same]
    exact fun m hm => .intro (hunits m hm) (hdoc m hm)

/-- The ways to write a value, as tokens that open at most so many levels. The levels of what a
reader passes over do not count. -/
abbrev Spelling := ℕ → List (List Char) → Prop

namespace Spelling

/-- The tokens of a JSON value. -/
def verbatim (j : Json) : Spelling := fun levels tokens => j.depth ≤ levels ∧ tokens = j.tokens

/-- A string that denotes the content. -/
def string (content : String) : Spelling :=
  fun _ tokens => ∃ token, Writes token content ∧ tokens = [token]

/-- A string, or null if there is none. -/
def optionalString : Option String → Spelling
  | some content => string content
  | none => verbatim .null

/-- A case of a union without content: its name, or an object with null. -/
inductive bare (name : String) : ℕ → List (List Char) → Prop where
  | name {levels token} (h : Writes token name) : bare name levels [token]
  | object {levels key} (h : Writes key name) :
    bare name (levels + 1) [['{'], key, [':'], "null".toList, ['}']]

/-- A case of a union with content. -/
inductive carrying (name : String) (content : Spelling) : ℕ → List (List Char) → Prop where
  | object {levels key tokens} (hkey : Writes key name) (h : content levels tokens) :
    carrying name content (levels + 1) (['{'] :: key :: [':'] :: (tokens ++ [['}']]))

inductive list (items : List Spelling) : ℕ → List (List Char) → Prop where
  | array {levels parts} (h : List.Forall₂ (fun item part => item levels part) items parts) :
    list items (levels + 1) (['['] :: (commaTokens parts ++ [[']']]))

/-- A field of a record: its name, its spellings, and whether it may be missing. -/
structure Field where
  name : String
  value : Spelling
  Omittable : Prop

/-- The members of an object: the fields in any order, but for some that may be missing, and among
them values of other names. -/
inductive Members (names : List String) (levels : ℕ) :
    List Field → List (List (List Char)) → Prop where
  | nil {fields} (h : ∀ f ∈ fields, f.Omittable) : Members names levels fields []
  | field {before after f key value parts} (hkey : Writes key f.name)
    (hvalue : f.value levels value) (h : Members names levels (before ++ after) parts) :
    Members names levels (before ++ f :: after) ((key :: [':'] :: value) :: parts)
  | unknown {fields name key value parts} (hname : name ∉ names) (hkey : Writes key name)
    (hvalue : IsValue value) (h : Members names levels fields parts) :
    Members names levels fields ((key :: [':'] :: value) :: parts)

/-- A field that may be missing is missing. -/
theorem Members.skip {names : List String} {levels : ℕ} {f : Field} {fields : List Field}
    {parts : List (List (List Char))} (hf : f.Omittable) (h : Members names levels fields parts) :
    Members names levels (f :: fields) parts := by
  induction h with
  | nil homittable => exact .nil (List.forall_mem_cons.mpr ⟨hf, homittable⟩)
  | @field before after g key value parts hkey hvalue h ih =>
    exact @Members.field _ _ (f :: before) after g _ _ _ hkey hvalue ih
  | unknown hname hkey hvalue h ih => exact .unknown hname hkey hvalue ih

/-- The items of an array: the fields in their order, but for last ones that may be missing. -/
inductive Items (levels : ℕ) : List Field → List (List (List Char)) → Prop where
  | nil {fields} (h : ∀ f ∈ fields, f.Omittable) : Items levels fields []
  | cons {f fields value parts} (hvalue : f.value levels value) (h : Items levels fields parts) :
    Items levels (f :: fields) (value :: parts)

inductive record (fields : List Field) : ℕ → List (List Char) → Prop where
  | object {levels parts} (h : Members (fields.map Field.name) levels fields parts) :
    record fields (levels + 1) (['{'] :: (commaTokens parts ++ [['}']]))
  | array {levels parts} (h : Items levels fields parts) :
    record fields (levels + 1) (['['] :: (commaTokens parts ++ [[']']]))

end Spelling

variable {α β δ : Type} {bound : ℕ}

/-- Below the bound, whatever spells the value is read as it. -/
def Accepts (bound : ℕ) (read : Reader α) (S : Spelling) (a : α) : Prop :=
  ∀ level < bound, ∀ tokens, S level tokens → ∃ doc, Shows doc tokens ∧ read level doc = .ok a

section

variable {read : Reader α} {S : Spelling} {a : α}

theorem Accepts.mono {bound' : ℕ} (h : Accepts bound read S a) (hb : bound' ≤ bound) :
    Accepts bound' read S a :=
  fun level hl => h level (by omega)

theorem Accepts.map (f : α → β) (h : Accepts bound read S a) :
    Accepts bound (fun level doc => f <$> read level doc) S (f a) := by
  intro level hl tokens ht
  obtain ⟨doc, hdoc, hread⟩ := h level hl tokens ht
  exact ⟨doc, hdoc, map_eq_ok_iff.mpr ⟨a, hread, rfl⟩⟩

theorem Reads.accepts {j : Json} {good : Prop} (h : Reads bound read j good a)
    (hj : j.IsWellFormed) (hgood : good) : Accepts bound read (.verbatim j) a := by
  rintro level hl _ ⟨hd, rfl⟩
  exact ⟨_, shows_ofJson hj, (h level hl a).mpr ⟨hgood, hd, rfl⟩⟩

theorem accepts_string {content : String}
    (h : ∀ level, read level (.string (.ok content) none) = .ok a) :
    Accepts bound read (.string content) a := by
  rintro level - _ ⟨token, ht, rfl⟩
  exact ⟨_, ht.shows, h level⟩

theorem accepts_optionalString (content : Option String) :
    Accepts bound (readOption readString) (.optionalString content) content := by
  cases content with
  | some content => exact accepts_string fun _ => rfl
  | none =>
    rintro level - _ ⟨-, rfl⟩
    exact ⟨_, shows_null, rfl⟩

/-- The document of an object with one member. -/
theorem shows_singleton {key : List Char} {name : String} (hkey : Writes key name)
    {doc : Document} {tokens : List (List Char)} (h : Shows doc tokens) :
    Shows (.object [(.ok name, doc)] none) (['{'] :: key :: [':'] :: (tokens ++ [['}']])) :=
  shows_object (.cons (hkey.showsMember h) .nil)

theorem accepts_bare {caseOf : String → Option (UnionCase α)} {name : String}
    (hcase : caseOf name = some (.bare a)) :
    Accepts bound (readUnion caseOf) (.bare name) a := by
  intro level _ tokens ht
  cases ht with
  | name h => exact ⟨_, h.shows, readUnion_string_eq_ok_iff.mpr ⟨name, rfl, hcase⟩⟩
  | object h =>
    exact ⟨_, shows_singleton h shows_null,
      readUnion_object_eq_ok_iff.mpr ⟨name, _, _, rfl, rfl, hcase, rfl⟩⟩

theorem Accepts.carrying {caseOf : String → Option (UnionCase α)} {name : String}
    (hcase : caseOf name = some (.carrying read)) (h : Accepts bound read S a) :
    Accepts (bound + 1) (readUnion caseOf) (.carrying name S) a := by
  intro level hl tokens ht
  obtain ⟨hkey, hcontent⟩ := ht
  obtain ⟨doc, hdoc, hread⟩ := h _ (by omega) _ hcontent
  exact ⟨_, shows_singleton hkey hdoc,
    readUnion_object_eq_ok_iff.mpr ⟨name, doc, _, rfl, rfl, hcase, hread⟩⟩

theorem Accepts.list {spelling : α → Spelling} {as : List α}
    (h : ∀ a ∈ as, Accepts bound read (spelling a) a) :
    Accepts (bound + 1) (readList read) (.list (as.map spelling)) as := by
  intro level hl tokens ht
  obtain @⟨level, parts, hparts⟩ := ht
  have hlevel : level < bound := by omega
  obtain ⟨items, hitems, hread⟩ : ∃ items, List.Forall₂ Shows items parts ∧
      List.Forall₂ (fun item a => read level item = .ok a) items as := by
    clear hl
    induction as generalizing parts with
    | nil =>
      cases hparts
      exact ⟨[], .nil, .nil⟩
    | cons a as ih =>
      obtain _ | ⟨hpart, hparts⟩ := hparts
      obtain ⟨item, hitem, hread⟩ := h a List.mem_cons_self level hlevel _ hpart
      obtain ⟨items, hitems, hreads⟩ := ih (fun b hb => h b (List.mem_cons_of_mem _ hb)) hparts
      exact ⟨item :: items, .cons hitem hitems, .cons hread hreads⟩
  exact ⟨_, shows_array hitems, readList_eq_ok_iff.mpr ⟨level, items, rfl, rfl, hread⟩⟩

end

section

variable {known : List String} {name : String}

/-- What a draft has for a field, if it has the fields of these names. -/
def held (known : List String) (name : String) (a : α) : Option α :=
  if name ∈ known then some a else none

theorem isSome_held (a : α) : (held known name a).isSome = true ↔ name ∈ known := by
  simp [held]

theorem held_of_mem (h : name ∈ known) (a : α) : held known name a = some a := if_pos h

@[simp] theorem held_cons_self (a : α) : held (name :: known) name a = some a :=
  held_of_mem List.mem_cons_self a

@[simp] theorem held_cons_of_ne {other : String} (h : name ≠ other) (a : α) :
    held (other :: known) name a = held known name a := by
  simp [held, h]

/-- A missing field stands for the default. -/
theorem getD_held {a default : α} (h : a = default ∨ name ∈ known) :
    (held known name a).getD default = a := by
  unfold held
  split
  · rfl
  · next hn => exact (h.resolve_right hn).symm

/-- A missing field stands for nothing. -/
theorem join_held {a : Option α} (h : a = none ∨ name ∈ known) : (held known name a).join = a := by
  have hd := getD_held h
  cases hh : held known name a <;> rwa [hh] at hd

end

section

/-- A field of a draft takes in whatever spells its value. The drafts are those that have just the
fields of certain names. -/
structure Takes (bound : ℕ) (draft : List String → δ) (field : RecordField δ) (f : Spelling.Field) :
    Prop where
  name_eq : field.name = f.name
  isSet_iff : ∀ known, field.isSet (draft known) = true ↔ f.name ∈ known
  read : ∀ level < bound, ∀ tokens, f.value level tokens →
    ∃ doc, Shows doc tokens ∧
      ∀ known, field.read level doc (draft known) = .ok (draft (f.name :: known))

/-- A field of a draft takes in what its reader accepts. -/
theorem Accepts.takes {draft : List String → δ} {read : Reader α} {S : Spelling} {a : α}
    (h : Accepts bound read S a) {name : String} {omittable : Prop} {get : δ → Option α}
    {put : α → δ → δ}
    (hget : ∀ known, get (draft known) = held known name a)
    (hput : ∀ known, put a (draft known) = draft (name :: known)) :
    Takes bound draft (.of name read get put) ⟨name, S, omittable⟩ where
  name_eq := rfl
  isSet_iff known := by
    change (get (draft known)).isSome = true ↔ name ∈ known
    rw [hget, isSome_held]
  read := by
    intro level hl tokens ht
    obtain ⟨doc, hdoc, hread⟩ := h level hl tokens ht
    exact ⟨doc, hdoc, fun known => RecordField.of_read_eq_ok_iff.mpr ⟨a, hread, hput known⟩⟩

variable {draft : List String → δ} {fields : List (RecordField δ)} {all : List Spelling.Field}

theorem exists_find?_of_takes (h : List.Forall₂ (Takes bound draft) fields all)
    (hnodup : (all.map Spelling.Field.name).Nodup) {f : Spelling.Field} (hf : f ∈ all) :
    ∃ field, fields.find? (·.name == f.name) = some field ∧ Takes bound draft field f := by
  induction h with
  | nil => cases hf
  | @cons field g fields all hfield hfields ih =>
    rw [List.map_cons, List.nodup_cons] at hnodup
    rcases List.mem_cons.mp hf with rfl | hf
    · refine ⟨field, ?_, hfield⟩
      rw [List.find?_cons_of_pos]
      exact beq_iff_eq.mpr hfield.name_eq
    · obtain ⟨field', hfind, htakes⟩ := ih hnodup.2 hf
      have hne : field.name ≠ f.name := by
        rw [hfield.name_eq]
        exact fun he => hnodup.1 (he ▸ List.mem_map_of_mem hf)
      refine ⟨field', ?_, htakes⟩
      rw [List.find?_cons_of_neg (by simpa using hne)]
      exact hfind

theorem find?_eq_none_of_takes (h : List.Forall₂ (Takes bound draft) fields all) {name : String}
    (hname : name ∉ all.map Spelling.Field.name) : fields.find? (·.name == name) = none := by
  induction h with
  | nil => rfl
  | @cons field g fields all hfield hfields ih =>
    rw [List.map_cons, List.mem_cons, not_or] at hname
    rw [List.find?_cons_of_neg, ih hname.2]
    rw [beq_iff_eq, hfield.name_eq]
    exact Ne.symm hname.1

/-- Each field is still to come or its name is among those that have been read, and none is both. -/
structure Pending (all pending : List Spelling.Field) (known : List String) : Prop where
  subset : ∀ f ∈ pending, f ∈ all
  notMem : ∀ f ∈ pending, f.name ∉ known
  nodup : (pending.map Spelling.Field.name).Nodup
  cover : ∀ f ∈ all, f ∈ pending ∨ f.name ∈ known

/-- Once a field has been read it is no longer to come. -/
theorem Pending.erase {before after : List Spelling.Field} {f : Spelling.Field}
    {known : List String} (h : Pending all (before ++ f :: after) known) :
    Pending all (before ++ after) (f.name :: known) := by
  have hsub : ∀ g ∈ before ++ after, g ∈ before ++ f :: after := fun g hg =>
    List.mem_append.mpr ((List.mem_append.mp hg).imp_right (List.mem_cons_of_mem f))
  have hnodup := h.nodup
  rw [List.map_append, List.map_cons, List.nodup_middle, List.nodup_cons, ← List.map_append]
    at hnodup
  obtain ⟨hname, hnodup⟩ := hnodup
  refine ⟨fun g hg => h.subset g (hsub g hg), fun g hg => ?_, hnodup, fun g hg => ?_⟩
  · have hne : g.name ≠ f.name := fun he => hname (he ▸ List.mem_map_of_mem hg)
    exact List.not_mem_cons_of_ne_of_not_mem hne (h.notMem g (hsub g hg))
  · rcases h.cover g hg with hg | hg
    · rw [List.mem_append, List.mem_cons] at hg
      rcases hg with hg | rfl | hg
      · exact .inl (List.mem_append_left _ hg)
      · exact .inr List.mem_cons_self
      · exact .inl (List.mem_append_right _ hg)
    · exact .inr (List.mem_cons_of_mem _ hg)

/-- Whatever spells members is read, and the draft then has all fields that may not be missing. From
member to member a field moves from what is pending to what is known, and an unknown name changes
neither, so no field is set twice. -/
theorem Spelling.Members.exists_draft {level : ℕ} (hl : level < bound)
    (hfields : List.Forall₂ (Takes bound draft) fields all)
    (hnodup : (all.map Spelling.Field.name).Nodup) {pending : List Spelling.Field}
    {parts : List (List (List Char))} {known : List String} (hpending : Pending all pending known)
    (h : Spelling.Members (all.map Spelling.Field.name) level pending parts) :
    ∃ members known', List.Forall₂ ShowsMember members parts ∧
      readMembers fields level (draft known) members = .ok (draft known') ∧
        ∀ f ∈ all, f.Omittable ∨ f.name ∈ known' := by
  induction h generalizing known with
  | nil homittable =>
    refine ⟨[], known, .nil, rfl, fun f hf => ?_⟩
    exact (hpending.cover f hf).imp_left (homittable f)
  | @field before after f key value parts hkey hvalue h ih =>
    have hf : f ∈ before ++ f :: after := List.mem_append_right _ List.mem_cons_self
    obtain ⟨members, known', hmembers, hreads, hknown⟩ := ih hpending.erase
    obtain ⟨field, hfind, htakes⟩ := exists_find?_of_takes hfields hnodup (hpending.subset f hf)
    obtain ⟨doc, hdoc, hread⟩ := htakes.read level hl value hvalue
    have hset : field.isSet (draft known) = false := by
      rw [← Bool.not_eq_true, htakes.isSet_iff]
      exact hpending.notMem f hf
    refine ⟨(.ok f.name, doc) :: members, known', .cons (hkey.showsMember hdoc) hmembers,
      bind_eq_ok_iff.mpr ⟨draft (f.name :: known), ?_, hreads⟩, hknown⟩
    rw [readMember_of_find?_eq_some hfind hset]
    exact hread known
  | @unknown pending name key value parts hname hkey hvalue h ih =>
    obtain ⟨members, known', hmembers, hread, hknown⟩ := ih hpending
    obtain ⟨doc, hdoc⟩ := hvalue.exists_shows
    have hnone := find?_eq_none_of_takes hfields hname
    exact ⟨(.ok name, doc) :: members, known', .cons (hkey.showsMember hdoc) hmembers,
      bind_eq_ok_iff.mpr ⟨draft known,
        readMember_of_find?_eq_none hnone hdoc.fault_eq_none _, hread⟩, hknown⟩

/-- Likewise for the items of an array. -/
theorem Spelling.Items.exists_draft {level : ℕ} (hl : level < bound) {pending : List Spelling.Field}
    (hfields : List.Forall₂ (Takes bound draft) fields pending)
    {parts : List (List (List Char))} {known : List String}
    (hcover : ∀ f ∈ all, f ∈ pending ∨ f.name ∈ known)
    (h : Spelling.Items level pending parts) :
    ∃ items known', List.Forall₂ Shows items parts ∧
      readPositions level fields (draft known) items = .ok (draft known') ∧
        ∀ f ∈ all, f.Omittable ∨ f.name ∈ known' := by
  induction h generalizing known fields with
  | nil homittable =>
    refine ⟨[], known, .nil, by cases fields <;> rfl, fun f hf => ?_⟩
    exact (hcover f hf).imp_left (homittable f)
  | @cons f pending value parts hvalue h ih =>
    obtain _ | ⟨hfield, hfields⟩ := hfields
    obtain ⟨doc, hdoc, hread⟩ := hfield.read level hl value hvalue
    have hcover' : ∀ g ∈ all, g ∈ pending ∨ g.name ∈ f.name :: known := by
      intro g hg
      rcases hcover g hg with hg | hg
      · exact (List.mem_cons.mp hg).symm.imp_right fun he : g = f => he ▸ List.mem_cons_self
      · exact .inr (List.mem_cons_of_mem _ hg)
    obtain ⟨items, known', hitems, hreads, hknown⟩ := ih hfields hcover'
    exact ⟨doc :: items, known', .cons hdoc hitems,
      bind_eq_ok_iff.mpr ⟨_, hread known, hreads⟩, hknown⟩

/-- A record is read from its spellings, if the drafts take in its fields and those that have the
fields that must be there can be finished. -/
theorem accepts_record (draft : List String → δ) {a : α} {finish : δ → Option α}
    (hfields : List.Forall₂ (Takes bound draft) fields all)
    (hnodup : (all.map Spelling.Field.name).Nodup)
    (hfinish : ∀ known, (∀ f ∈ all, f.Omittable ∨ f.name ∈ known) →
      finish (draft known) = some a) :
    Accepts (bound + 1) (readRecord fields (draft []) finish) (.record all) a := by
  intro level hl tokens ht
  cases ht with
  | @object level parts h =>
    have hpending : Pending all all [] :=
      ⟨fun _ hf => hf, fun _ _ => List.not_mem_nil, hnodup, fun _ hf => .inl hf⟩
    obtain ⟨members, known, hmembers, hread, hknown⟩ :=
      Spelling.Members.exists_draft (by omega) hfields hnodup hpending h
    exact ⟨_, shows_object hmembers, readRecord_eq_ok_iff.mpr
      ⟨level, draft known, rfl, .inl ⟨members, rfl, hread⟩, hfinish known hknown⟩⟩
  | @array level parts h =>
    obtain ⟨items, known, hitems, hread, hknown⟩ :=
      Spelling.Items.exists_draft (by omega) hfields (fun _ hf => .inl hf) h
    exact ⟨_, shows_array hitems, readRecord_eq_ok_iff.mpr
      ⟨level, draft known, rfl, .inr ⟨items, rfl, hread⟩, hfinish known hknown⟩⟩

end

/-- The JSON value, if it is not too deep, is one of the spellings. -/
def Spelling.Includes (S : Spelling) (j : Json) : Prop :=
  ∀ levels, j.depth ≤ levels → S levels j.tokens

/-- The members, if they are not too deep, spell the fields. -/
def IncludesMembers (fields : List Spelling.Field) (members : List (String × Json)) : Prop :=
  ∀ names levels, memberDepth members ≤ levels →
    Spelling.Members names levels fields (memberTokens members)

theorem includes_verbatim (j : Json) : (Spelling.verbatim j).Includes j := fun _ h => ⟨h, rfl⟩

theorem includes_string (content : String) : (Spelling.string content).Includes (.string content) :=
  fun _ _ => ⟨_, writes_stringChars content, rfl⟩

theorem includes_bare (name : String) : Spelling.Includes (.bare name) (.string name) :=
  fun _ _ => .name (writes_stringChars name)

theorem Spelling.Includes.carrying {S : Spelling} {j : Json} (h : S.Includes j) (name : String) :
    Spelling.Includes (.carrying name S) (.object [(name, j)]) := by
  intro levels hd
  rw [depth, memberDepth, memberDepth] at hd
  obtain ⟨levels, rfl⟩ : ∃ m, levels = m + 1 := Nat.exists_eq_add_one.mpr (by omega)
  exact .object (writes_stringChars name) (h levels (by omega))

theorem includes_list {spelling : α → Spelling} {toJson : α → Json} {as : List α}
    (h : ∀ a ∈ as, (spelling a).Includes (toJson a)) :
    Spelling.Includes (.list (as.map spelling)) (.array (as.map toJson)) := by
  intro levels hd
  rw [depth] at hd
  obtain ⟨levels, rfl⟩ : ∃ m, levels = m + 1 := Nat.exists_eq_add_one.mpr (by omega)
  rw [Nat.add_le_add_iff_right, itemDepth_le_iff, List.forall_mem_map] at hd
  refine .array ?_
  rw [itemTokens_eq_map, List.map_map, List.forall₂_map_left_iff, List.forall₂_map_right_iff,
    List.forall₂_same]
  exact fun a ha => h a ha levels (hd a ha)

theorem includesMembers_nil : IncludesMembers [] [] := fun _ _ _ => .nil nofun

theorem IncludesMembers.skip {f : Spelling.Field} {fields : List Spelling.Field}
    {members : List (String × Json)} (hf : f.Omittable) (h : IncludesMembers fields members) :
    IncludesMembers (f :: fields) members := fun names levels hd => (h names levels hd).skip hf

theorem IncludesMembers.cons {f : Spelling.Field} {fields : List Spelling.Field} {j : Json}
    {members : List (String × Json)} (hj : f.value.Includes j)
    (h : IncludesMembers fields members) :
    IncludesMembers (f :: fields) ((f.name, j) :: members) := by
  intro names levels hd
  rw [memberDepth] at hd
  exact @Spelling.Members.field names levels [] fields f _ _ _ (writes_stringChars f.name)
    (hj levels (by omega)) (h names levels (by omega))

theorem IncludesMembers.record {fields : List Spelling.Field} {members : List (String × Json)}
    (h : IncludesMembers fields members) :
    Spelling.Includes (.record fields) (.object members) := by
  intro levels hd
  rw [depth] at hd
  obtain ⟨levels, rfl⟩ : ∃ m, levels = m + 1 := Nat.exists_eq_add_one.mpr (by omega)
  exact .object (h _ levels (by omega))

end FilterClause.Json
