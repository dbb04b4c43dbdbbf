import FilterClause.Json.Reading
import Mathlib.Data.List.Forall2

/-!
# Readers

What a reader of each shape accepts: a successful read comes down to successful reads of the parts,
one level further in for lists, records and unions. From this follow an invariant of the drafts that
a record is put together in, and how a reader treats what has been written: `Reads` states that the
document of a JSON value reads as one value and no other, exactly if it is good and not too deep.
-/

namespace FilterClause.Json

section

variable {ε α β : Type}

theorem bind_eq_ok_iff {x : Except ε α} {f : α → Except ε β} {b : β} :
    x >>= f = .ok b ↔ ∃ a, x = .ok a ∧ f a = .ok b := by
  cases x <;> simp [bind, Except.bind]

theorem map_eq_ok_iff {x : Except ε α} {f : α → β} {b : β} :
    f <$> x = .ok b ↔ ∃ a, x = .ok a ∧ f a = b := by
  cases x <;> simp [Functor.map, Except.map]

end

theorem pass_eq_ok_iff {fault : Option Fault} {u : Unit} : pass fault = .ok u ↔ fault = none := by
  cases fault <;> simp [pass]

variable {α β δ : Type} {level : ℕ} {doc : Document}

theorem eq_ok_of_readOption {read : Reader α} {a : α}
    (h : readOption read level doc = .ok (some a)) : read level doc = .ok a := by
  unfold readOption at h
  split at h
  · obtain ⟨_, -, h⟩ := bind_eq_ok_iff.mp h
    cases h
  · obtain ⟨a', ha, h⟩ := map_eq_ok_iff.mp h
    cases h
    exact ha

theorem readItems_eq_ok_iff {read : Document → Except Rejection α} {items : List Document}
    {as : List α} :
    readItems read items = .ok as ↔ List.Forall₂ (fun item a => read item = .ok a) items as := by
  induction items generalizing as with
  | nil => cases as <;> simp [readItems]
  | cons item items ih =>
    rw [readItems, bind_eq_ok_iff]
    constructor
    · rintro ⟨a, ha, h⟩
      obtain ⟨as', has, h⟩ := bind_eq_ok_iff.mp h
      cases h
      exact .cons ha (ih.mp has)
    · rintro (_ | ⟨ha, has⟩)
      exact ⟨_, ha, bind_eq_ok_iff.mpr ⟨_, ih.mpr has, rfl⟩⟩

theorem readList_eq_ok_iff {read : Reader α} {as : List α} :
    readList read level doc = .ok as ↔ ∃ n items, level = n + 1 ∧ doc = .array items none ∧
      List.Forall₂ (fun item a => read n item = .ok a) items as := by
  constructor
  · intro h
    unfold readList at h
    split at h
    · cases h
    · next n items fault =>
      obtain ⟨as', has, h⟩ := bind_eq_ok_iff.mp h
      obtain ⟨_, hp, h⟩ := bind_eq_ok_iff.mp h
      cases h
      cases pass_eq_ok_iff.mp hp
      exact ⟨n, items, rfl, rfl, readItems_eq_ok_iff.mp has⟩
    · cases h
  · rintro ⟨n, items, rfl, rfl, h⟩
    exact bind_eq_ok_iff.mpr ⟨as, readItems_eq_ok_iff.mpr h, rfl⟩

theorem exists_item_of_readList {read : Reader α} {as : List α}
    (h : readList read level doc = .ok as) :
    ∃ n, level = n + 1 ∧ ∀ a ∈ as, ∃ item, read n item = .ok a := by
  obtain ⟨n, items, hn, -, hitems⟩ := readList_eq_ok_iff.mp h
  refine ⟨n, hn, ?_⟩
  clear h
  induction hitems with
  | nil => simp
  | cons h _ ih => exact List.forall_mem_cons.mpr ⟨⟨_, h⟩, ih⟩

theorem readString_eq_ok_iff {s : String} :
    readString level doc = .ok s ↔ ∃ fault, doc = .string (.ok s) fault := by
  constructor
  · intro h
    unfold readString at h
    split at h
    · next fault =>
      cases h
      exact ⟨fault, rfl⟩
    · cases h
  · rintro ⟨fault, rfl⟩
    rfl

theorem readKey_eq_ok_iff {key : Except Fault String} {name : String} :
    readKey key = .ok name ↔ key = .ok name := by
  cases key <;> simp [readKey]

section

variable {caseOf : String → Option (UnionCase α)} {fault : Option Fault} {a : α}

theorem readUnion_string_eq_ok_iff {content : Except Fault String} :
    readUnion caseOf level (.string content fault) = .ok a ↔
      ∃ name, content = .ok name ∧ caseOf name = some (.bare a) := by
  rw [readUnion, bind_eq_ok_iff]
  constructor
  · rintro ⟨name, hname, h⟩
    obtain ⟨_, hdoc⟩ := readString_eq_ok_iff.mp hname
    cases hdoc
    split at h
    · next hcase =>
      cases h
      exact ⟨name, rfl, hcase⟩
    · cases h
  · rintro ⟨name, rfl, hcase⟩
    exact ⟨name, rfl, by rw [hcase]⟩

theorem readUnion_object_eq_ok_iff {n : ℕ} {members : List (Except Fault String × Document)} :
    readUnion caseOf (n + 1) (.object members fault) = .ok a ↔
      ∃ name content unionCase, members = [(.ok name, content)] ∧ fault = none ∧
        caseOf name = some unionCase ∧ unionCase.readContent n content = .ok a := by
  cases members with
  | nil => simp [readUnion]
  | cons member more =>
    obtain ⟨key, content⟩ := member
    rw [readUnion]
    simp only [bind_eq_ok_iff, readKey_eq_ok_iff]
    constructor
    · rintro ⟨name, rfl, h⟩
      split at h
      · cases h
      · next unionCase hcase =>
        obtain ⟨value, hvalue, h⟩ := bind_eq_ok_iff.mp h
        split at h
        · next hmore =>
          obtain ⟨_, hp, h⟩ := bind_eq_ok_iff.mp h
          cases h
          rw [List.isEmpty_iff] at hmore
          exact ⟨name, content, unionCase, by rw [hmore], pass_eq_ok_iff.mp hp, hcase, hvalue⟩
        · cases h
    · rintro ⟨name, content', unionCase, hmembers, rfl, hcase, hvalue⟩
      cases hmembers
      refine ⟨name, rfl, ?_⟩
      rw [hcase]
      exact bind_eq_ok_iff.mpr ⟨a, hvalue, rfl⟩

theorem readUnion_eq_ok_iff :
    readUnion caseOf level doc = .ok a ↔
      (∃ name fault, doc = .string (.ok name) fault ∧ caseOf name = some (.bare a)) ∨
      ∃ n name content unionCase, level = n + 1 ∧ doc = .object [(.ok name, content)] none ∧
        caseOf name = some unionCase ∧ unionCase.readContent n content = .ok a := by
  constructor
  · intro h
    cases doc with
    | string content fault =>
      obtain ⟨name, rfl, hcase⟩ := readUnion_string_eq_ok_iff.mp h
      exact .inl ⟨name, fault, rfl, hcase⟩
    | object members fault =>
      cases level with
      | zero => cases h
      | succ n =>
        obtain ⟨name, content, unionCase, rfl, rfl, hcase, hvalue⟩ :=
          readUnion_object_eq_ok_iff.mp h
        exact .inr ⟨n, name, content, unionCase, rfl, rfl, hcase, hvalue⟩
    | missing | stray | word _ _ | number _ | array _ _ => cases level <;> cases h
  · rintro (⟨name, fault, rfl, hcase⟩ | ⟨n, name, content, unionCase, rfl, rfl, hcase, hvalue⟩)
    · exact readUnion_string_eq_ok_iff.mpr ⟨name, rfl, hcase⟩
    · exact readUnion_object_eq_ok_iff.mpr ⟨name, content, unionCase, rfl, rfl, hcase, hvalue⟩

end

theorem RecordField.of_read_eq_ok_iff {name : String} {read : Reader α} {get : δ → Option α}
    {put : α → δ → δ} {draft draft' : δ} :
    (RecordField.of name read get put).read level doc draft = .ok draft' ↔
      ∃ a, read level doc = .ok a ∧ put a draft = draft' :=
  map_eq_ok_iff

/-- Reading the field, one level further in, keeps a property of drafts. -/
def RecordField.Keeps (level : ℕ) (P : δ → Prop) (field : RecordField δ) : Prop :=
  ∀ doc draft draft', P draft → field.read level doc draft = .ok draft' → P draft'

theorem RecordField.keeps_of {name : String} {read : Reader α} {get : δ → Option α}
    {put : α → δ → δ} {P : δ → Prop}
    (h : ∀ doc a draft, read level doc = .ok a → P draft → P (put a draft)) :
    (RecordField.of name read get put).Keeps level P := by
  intro doc draft draft' hP hread
  obtain ⟨a, ha, rfl⟩ := RecordField.of_read_eq_ok_iff.mp hread
  exact h doc a draft ha hP

theorem readRecord_eq_ok_iff {fields : List (RecordField δ)} {empty : δ} {finish : δ → Option α}
    {a : α} :
    readRecord fields empty finish level doc = .ok a ↔ ∃ n draft, level = n + 1 ∧
      ((∃ members, doc = .object members none ∧ readMembers fields n empty members = .ok draft) ∨
        ∃ items, doc = .array items none ∧ readPositions n fields empty items = .ok draft) ∧
      finish draft = some a := by
  have hfinish (draft : δ) : finishRecord finish draft = .ok a ↔ finish draft = some a := by
    cases hf : finish draft <;> simp [finishRecord, hf]
  constructor
  · intro h
    unfold readRecord at h
    split at h
    · cases h
    · cases h
    · next n members fault =>
      obtain ⟨draft, hd, h⟩ := bind_eq_ok_iff.mp h
      obtain ⟨_, hp, h⟩ := bind_eq_ok_iff.mp h
      cases pass_eq_ok_iff.mp hp
      exact ⟨n, draft, rfl, .inl ⟨members, rfl, hd⟩, (hfinish draft).mp h⟩
    · next n items fault =>
      obtain ⟨draft, hd, h⟩ := bind_eq_ok_iff.mp h
      obtain ⟨_, hp, h⟩ := bind_eq_ok_iff.mp h
      cases pass_eq_ok_iff.mp hp
      exact ⟨n, draft, rfl, .inr ⟨items, rfl, hd⟩, (hfinish draft).mp h⟩
    · cases h
  · rintro ⟨n, draft, rfl, ⟨members, rfl, hd⟩ | ⟨items, rfl, hd⟩, h⟩
    all_goals
      rw [readRecord]
      exact bind_eq_ok_iff.mpr ⟨draft, hd, (hfinish draft).mpr h⟩

/-- A member of a known name is read into its field, if the field is not yet set. -/
theorem readMember_of_find?_eq_some {fields : List (RecordField δ)} {name : String}
    {field : RecordField δ} (hfield : fields.find? (·.name == name) = some field) {draft : δ}
    (hset : field.isSet draft = false) :
    readMember fields level draft (.ok name, doc) = field.read level doc draft := by
  simp [readMember, readKey, bind, Except.bind, hfield, hset]

/-- A member of an unknown name is passed over. -/
theorem readMember_of_find?_eq_none {fields : List (RecordField δ)} {name : String}
    (hfield : fields.find? (·.name == name) = none) (hfault : doc.fault = none) (draft : δ) :
    readMember fields level draft (.ok name, doc) = .ok draft := by
  simp [readMember, readKey, bind, Except.bind, hfield, hfault, pass, pure, Except.pure]

section Invariant

variable {fields : List (RecordField δ)} {P : δ → Prop}

theorem readMembers_invariant
    (hkeeps : ∀ field ∈ fields, field.Keeps level P)
    {members : List (Except Fault String × Document)} {draft draft' : δ} (hP : P draft)
    (h : readMembers fields level draft members = .ok draft') : P draft' := by
  induction members generalizing draft with
  | nil =>
    cases h
    exact hP
  | cons member members ih =>
    obtain ⟨next, hnext, h⟩ := bind_eq_ok_iff.mp h
    obtain ⟨name, -, hnext⟩ := bind_eq_ok_iff.mp hnext
    refine ih ?_ h
    split at hnext
    · next field hfield =>
      split at hnext
      · cases hnext
      · exact hkeeps field (List.mem_of_find?_eq_some hfield) _ _ _ hP hnext
    · obtain ⟨_, -, hnext⟩ := bind_eq_ok_iff.mp hnext
      cases hnext
      exact hP

theorem readPositions_invariant
    (hkeeps : ∀ field ∈ fields, field.Keeps level P)
    {items : List Document} {draft draft' : δ} (hP : P draft)
    (h : readPositions level fields draft items = .ok draft') : P draft' := by
  induction fields generalizing items draft with
  | nil =>
    cases items with
    | nil =>
      cases h
      exact hP
    | cons item items => cases h
  | cons field fields ih =>
    cases items with
    | nil =>
      cases h
      exact hP
    | cons item items =>
      obtain ⟨next, hnext, h⟩ := bind_eq_ok_iff.mp h
      exact ih (fun f hf => hkeeps f (List.mem_cons_of_mem _ hf))
        (hkeeps field List.mem_cons_self _ _ _ hP hnext) h

/-- What holds of the empty draft and is kept by each field holds of the draft that is finished. -/
theorem exists_draft_of_readRecord {empty : δ} {finish : δ → Option α} {a : α}
    (h : readRecord fields empty finish level doc = .ok a) :
    ∃ n, level = n + 1 ∧ ∀ P : δ → Prop, P empty →
      (∀ field ∈ fields, field.Keeps n P) →
      ∃ draft, P draft ∧ finish draft = some a := by
  obtain ⟨n, draft, hn, hread, hfinish⟩ := readRecord_eq_ok_iff.mp h
  refine ⟨n, hn, fun P hempty hkeeps => ⟨draft, ?_, hfinish⟩⟩
  rcases hread with ⟨members, -, hd⟩ | ⟨items, -, hd⟩
  · exact readMembers_invariant hkeeps hempty hd
  · exact readPositions_invariant hkeeps hempty hd

end Invariant

theorem exists_document_of_readText {read : Reader α} {text : String} {a : α}
    (h : readText read text = .ok a) : ∃ doc, read nestingLimit doc = .ok a := by
  obtain ⟨b, hb, h⟩ := bind_eq_ok_iff.mp h
  refine ⟨(scanText text.toList).document, ?_⟩
  split at h
  · cases h
    exact hb
  · cases h

/-- Below the bound, the document of the JSON value reads as `a` and as nothing else, exactly if it
is good and opens no more levels than may be opened. -/
def Reads (bound : ℕ) (read : Reader α) (j : Json) (good : Prop) (a : α) : Prop :=
  ∀ level < bound, ∀ b, read level (.ofJson j) = .ok b ↔ good ∧ j.depth ≤ level ∧ b = a

/-- Likewise for the members of an object, which are read into a draft. -/
def ReadsMembers (bound : ℕ) (fields : List (RecordField δ)) (draft : δ)
    (members : List (String × Json)) (good : Prop) (draft' : δ) : Prop :=
  ∀ level < bound, ∀ d, readMembers fields level draft (Document.ofMembers members) = .ok d ↔
    good ∧ memberDepth members ≤ level ∧ d = draft'

section

variable {bound : ℕ} {read : Reader α} {j : Json} {good : Prop} {a : α}

theorem Reads.mono {bound' : ℕ} (h : Reads bound read j good a) (hb : bound' ≤ bound) :
    Reads bound' read j good a :=
  fun level hl => h level (by omega)

theorem Reads.congr {good' : Prop} (h : Reads bound read j good a) (hg : good ↔ good') :
    Reads bound read j good' a := by
  rwa [propext hg] at h

theorem Reads.zero (read : Reader α) (j : Json) (good : Prop) (a : α) : Reads 0 read j good a :=
  fun _ hl => absurd hl (Nat.not_lt_zero _)

theorem Reads.map (f : α → β) (h : Reads bound read j good a) :
    Reads bound (fun level doc => f <$> read level doc) j good (f a) := by
  intro level hl b
  rw [map_eq_ok_iff]
  constructor
  · rintro ⟨a', ha, rfl⟩
    obtain ⟨hg, hd, rfl⟩ := (h level hl a').mp ha
    exact ⟨hg, hd, rfl⟩
  · rintro ⟨hg, hd, rfl⟩
    exact ⟨a, (h level hl a).mpr ⟨hg, hd, rfl⟩, rfl⟩

theorem Reads.option (h : Reads bound read j good a)
    (hj : ∀ fault, Document.ofJson j ≠ .word .null fault) :
    Reads bound (readOption read) j good (some a) := by
  intro level hl b
  rw [← h.map some level hl b, readOption]
  exact hj

theorem forall₂_read_iff {toJson : α → Json} {good : α → Prop} {as : List α}
    (h : ∀ a ∈ as, Reads bound read (toJson a) (good a) a) (hl : level < bound) (bs : List α) :
    List.Forall₂ (fun item b => read level item = .ok b) (Document.ofItems (as.map toJson)) bs ↔
      (∀ a ∈ as, good a) ∧ itemDepth (as.map toJson) ≤ level ∧ bs = as := by
  induction as generalizing bs with
  | nil => simp [Document.ofItems, itemDepth]
  | cons a as ih =>
    have hhead := h a List.mem_cons_self level hl
    have htail := ih fun b hb => h b (List.mem_cons_of_mem _ hb)
    rw [List.map_cons, Document.ofItems, List.forall₂_cons_left_iff]
    constructor
    · rintro ⟨b, bs, hb, hbs, rfl⟩
      obtain ⟨hg, hd, rfl⟩ := (hhead b).mp hb
      obtain ⟨hgs, hds, rfl⟩ := (htail bs).mp hbs
      exact ⟨List.forall_mem_cons.mpr ⟨hg, hgs⟩, Nat.max_le.mpr ⟨hd, hds⟩, rfl⟩
    · rintro ⟨hg, hd, rfl⟩
      obtain ⟨hg, hgs⟩ := List.forall_mem_cons.mp hg
      obtain ⟨hd, hds⟩ := Nat.max_le.mp hd
      exact ⟨a, as, (hhead a).mpr ⟨hg, hd, rfl⟩, (htail as).mpr ⟨hgs, hds, rfl⟩, rfl⟩

theorem Reads.list {toJson : α → Json} {good : α → Prop} {as : List α}
    (h : ∀ a ∈ as, Reads bound read (toJson a) (good a) a) :
    Reads (bound + 1) (readList read) (.array (as.map toJson)) (∀ a ∈ as, good a) as := by
  intro level hl bs
  rw [readList_eq_ok_iff, depth]
  constructor
  · rintro ⟨n, items, rfl, hdoc, hitems⟩
    cases hdoc
    obtain ⟨hg, hd, rfl⟩ := (forall₂_read_iff h (by omega) bs).mp hitems
    exact ⟨hg, by omega, rfl⟩
  · rintro ⟨hg, hd, rfl⟩
    obtain ⟨n, rfl⟩ : ∃ n, level = n + 1 := Nat.exists_eq_add_one.mpr (by omega)
    exact ⟨n, _, rfl, rfl, (forall₂_read_iff h (by omega) bs).mpr ⟨hg, by omega, rfl⟩⟩

/-- A case without content, by its name. -/
theorem Reads.bare {caseOf : String → Option (UnionCase α)} {name : String}
    (hcase : caseOf name = some (.bare a)) (bound : ℕ) :
    Reads bound (readUnion caseOf) (.string name) True a := by
  intro level _ b
  rw [readUnion_eq_ok_iff, depth]
  constructor
  · rintro (⟨name', fault, hdoc, hb⟩ | ⟨n, name', content, unionCase, -, hdoc, -⟩)
    · cases hdoc
      rw [hcase] at hb
      cases hb
      exact ⟨trivial, Nat.zero_le _, rfl⟩
    · cases hdoc
  · rintro ⟨-, -, rfl⟩
    exact .inl ⟨name, none, rfl, hcase⟩

/-- A case with content. -/
theorem Reads.carrying {caseOf : String → Option (UnionCase α)} {name : String}
    (hcase : caseOf name = some (.carrying read)) (h : Reads bound read j good a) :
    Reads (bound + 1) (readUnion caseOf) (.object [(name, j)]) good a := by
  intro level hl b
  have hdepth : depth (.object [(name, j)]) = j.depth + 1 := by simp [depth, memberDepth]
  rw [readUnion_eq_ok_iff, hdepth]
  constructor
  · rintro (⟨name', fault, hdoc, -⟩ | ⟨n, name', content, unionCase, rfl, hdoc, hc, hb⟩)
    · cases hdoc
    · cases hdoc
      rw [hcase] at hc
      cases hc
      obtain ⟨hg, hd, rfl⟩ := (h n (by omega) b).mp hb
      exact ⟨hg, by omega, rfl⟩
  · rintro ⟨hg, hd, rfl⟩
    obtain ⟨n, rfl⟩ : ∃ n, level = n + 1 := Nat.exists_eq_add_one.mpr (by omega)
    exact .inr ⟨n, name, .ofJson j, .carrying read, rfl, rfl, hcase,
      (h n (by omega) b).mpr ⟨hg, by omega, rfl⟩⟩

theorem ReadsMembers.congr {fields : List (RecordField δ)} {draft draft' : δ}
    {members : List (String × Json)} {good' : Prop}
    (h : ReadsMembers bound fields draft members good draft') (hg : good ↔ good') :
    ReadsMembers bound fields draft members good' draft' := by
  rwa [propext hg] at h

theorem ReadsMembers.nil (bound : ℕ) (fields : List (RecordField δ)) (draft : δ) :
    ReadsMembers bound fields draft [] True draft := by
  intro level _ d
  simp [Document.ofMembers, readMembers, memberDepth, eq_comm]

/-- A member is read into its field, if the field is not yet set. -/
theorem ReadsMembers.cons {fields : List (RecordField δ)} {name : String} {get : δ → Option α}
    {put : α → δ → δ} {draft draft' : δ} {members : List (String × Json)} {good' : Prop}
    (hfield : fields.find? (·.name == name) = some (.of name read get put))
    (hget : get draft = none) (hread : Reads bound read j good a)
    (hmembers : ReadsMembers bound fields (put a draft) members good' draft') :
    ReadsMembers bound fields draft ((name, j) :: members) (good ∧ good') draft' := by
  intro level hl d
  have hmember (d : δ) : readMember fields level draft (.ok name, .ofJson j) = .ok d ↔
      (good ∧ j.depth ≤ level) ∧ d = put a draft := by
    have hset : (RecordField.of name read get put).isSet draft = false := by
      simp [RecordField.of, hget]
    rw [readMember_of_find?_eq_some hfield hset, RecordField.of_read_eq_ok_iff]
    constructor
    · rintro ⟨b, hb, rfl⟩
      obtain ⟨hg, hd, rfl⟩ := (hread level hl b).mp hb
      exact ⟨⟨hg, hd⟩, rfl⟩
    · rintro ⟨⟨hg, hd⟩, rfl⟩
      exact ⟨a, (hread level hl a).mpr ⟨hg, hd, rfl⟩, rfl⟩
  rw [Document.ofMembers, readMembers, bind_eq_ok_iff, memberDepth]
  constructor
  · rintro ⟨next, hnext, hrest⟩
    obtain ⟨⟨hg, hd⟩, rfl⟩ := (hmember next).mp hnext
    obtain ⟨hg', hd', rfl⟩ := (hmembers level hl d).mp hrest
    exact ⟨⟨hg, hg'⟩, Nat.max_le.mpr ⟨hd, hd'⟩, rfl⟩
  · rintro ⟨⟨hg, hg'⟩, hd, rfl⟩
    obtain ⟨hd, hd'⟩ := Nat.max_le.mp hd
    exact ⟨_, (hmember _).mpr ⟨⟨hg, hd⟩, rfl⟩, (hmembers level hl _).mpr ⟨hg', hd', rfl⟩⟩

theorem ReadsMembers.record {fields : List (RecordField δ)} {empty full : δ}
    {finish : δ → Option α} {members : List (String × Json)}
    (h : ReadsMembers bound fields empty members good full) (hfinish : finish full = some a) :
    Reads (bound + 1) (readRecord fields empty finish) (.object members) good a := by
  intro level hl b
  rw [readRecord_eq_ok_iff, depth]
  constructor
  · rintro ⟨n, draft, rfl, ⟨members', hdoc, hread⟩ | ⟨items, hdoc, -⟩, hb⟩
    · cases hdoc
      obtain ⟨hg, hd, rfl⟩ := (h n (by omega) draft).mp hread
      rw [hfinish] at hb
      cases hb
      exact ⟨hg, by omega, rfl⟩
    · cases hdoc
  · rintro ⟨hg, hd, rfl⟩
    obtain ⟨n, rfl⟩ : ∃ n, level = n + 1 := Nat.exists_eq_add_one.mpr (by omega)
    exact ⟨n, full, rfl, .inl ⟨_, rfl, (h n (by omega) full).mpr ⟨hg, by omega, rfl⟩⟩, hfinish⟩

end

end FilterClause.Json
