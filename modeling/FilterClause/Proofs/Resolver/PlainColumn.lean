import FilterClause.Proofs.Resolver
import Mathlib.Computability.Language
import Mathlib.Data.Char

/-!
# Plain columns identify properties

The plain columns form a regular language: an identifier, or two with a point between them. There is
no point in an identifier, so a column shows whether its property has an entity and where the entity
ends, and no two properties share a plain column.
-/

open Computability

namespace FilterClause

/-- The texts of a single character, one of a class. -/
def oneOf (s : Set Char) : Language Char := {w | ∃ c ∈ s, w = [c]}

theorem mem_kstar_oneOf {s : Set Char} {w : List Char} : w ∈ (oneOf s)∗ ↔ ∀ c ∈ w, c ∈ s := by
  rw [Language.mem_kstar]
  constructor
  · rintro ⟨parts, rfl, hparts⟩ c hc
    obtain ⟨part, hpart, hc⟩ := List.mem_flatten.mp hc
    obtain ⟨d, hd, rfl⟩ := hparts part hpart
    rwa [List.mem_singleton.mp hc]
  · intro h
    refine ⟨w.map fun c => [c], ?_, ?_⟩
    · rw [← List.flatMap_def, List.flatMap_singleton']
    · intro part hpart
      obtain ⟨c, hc, rfl⟩ := List.mem_map.mp hpart
      exact ⟨c, h c hc, rfl⟩

theorem mem_oneOf_mul_kstar {s t : Set Char} {w : List Char} :
    w ∈ oneOf s * (oneOf t)∗ ↔ ∃ c cs, w = c :: cs ∧ c ∈ s ∧ ∀ d ∈ cs, d ∈ t := by
  rw [Language.mem_mul]
  constructor
  · rintro ⟨_, ⟨c, hc, rfl⟩, cs, hcs, rfl⟩
    exact ⟨c, cs, rfl, hc, mem_kstar_oneOf.mp hcs⟩
  · rintro ⟨c, cs, rfl, hc, hcs⟩
    exact ⟨[c], ⟨c, hc, rfl⟩, cs, mem_kstar_oneOf.mpr hcs, rfl⟩

/-- `[A-Za-z_]` -/
def identifierInitials : Set Char := Set.Icc 'A' 'Z' ∪ Set.Icc 'a' 'z' ∪ {'_'}

/-- `[A-Za-z_][A-Za-z0-9_]*` -/
def identifiers : Language Char :=
  oneOf identifierInitials * (oneOf (identifierInitials ∪ Set.Icc '0' '9'))∗

theorem mem_identifierInitials_iff {c : Char} :
    c ∈ identifierInitials ↔ (c.isAlpha || c = '_') = true := by
  delta Char.isAlpha Char.isUpper Char.isLower
  simp [identifierInitials, Char.le_def, or_comm]

theorem mem_identifierChars_iff {c : Char} :
    c ∈ identifierInitials ∪ Set.Icc '0' '9' ↔ isIdentifierChar c = true := by
  have hdigit : c ∈ Set.Icc '0' '9' ↔ c.isDigit = true := by simp [Char.isDigit, Char.le_def]
  rw [Set.mem_union, mem_identifierInitials_iff, hdigit, isIdentifierChar, Char.isAlphanum,
    Bool.or_eq_true, Bool.or_eq_true, Bool.or_eq_true]
  exact or_right_comm

theorem isIdentifier_iff_mem {s : String} : isIdentifier s ↔ s.toList ∈ identifiers := by
  rw [identifiers, mem_oneOf_mul_kstar]
  simp only [mem_identifierInitials_iff, mem_identifierChars_iff]
  unfold isIdentifier
  cases s.toList with
  | nil => simp
  | cons c cs => simp

theorem point_notMem_of_isIdentifier {s : String} (h : isIdentifier s) : '.' ∉ s.toList :=
  fun hpoint => absurd ((isIdentifierChar_of_isIdentifier h).2 '.' hpoint) (by decide)

/-- One identifier, or two with a point between them. -/
def plainColumns : Language Char := identifiers + identifiers * {['.']} * identifiers

theorem mem_plainColumns_iff {w : List Char} :
    w ∈ plainColumns ↔
      w ∈ identifiers ∨
        ∃ entity ∈ identifiers, ∃ name ∈ identifiers, entity ++ '.' :: name = w := by
  rw [plainColumns, Language.mem_add, mul_assoc, Language.mem_mul]
  refine or_congr_right ⟨?_, ?_⟩
  · rintro ⟨entity, hentity, _, ⟨_, rfl, name, hname, rfl⟩, rfl⟩
    exact ⟨entity, hentity, name, hname, rfl⟩
  · rintro ⟨entity, hentity, name, hname, rfl⟩
    have hpoint : '.' :: name ∈ {['.']} * identifiers :=
      Language.append_mem_mul (Set.mem_singleton ['.']) hname
    exact ⟨entity, hentity, '.' :: name, hpoint, rfl⟩

namespace Property

theorem exists_plainColumn?_eq_some_iff (p : Property) :
    (∃ column, p.plainColumn? = some column) ↔
      isIdentifier p.name ∧ ∀ entity ∈ p.entity, isIdentifier entity := by
  obtain ⟨_ | entity, name⟩ := p
  · simp [plainColumn?_unqualified]
  · simp [plainColumn?_qualified, and_comm]

theorem plainColumn?_mem_plainColumns {p : Property} {column : String}
    (h : p.plainColumn? = some column) : column.toList ∈ plainColumns := by
  rw [mem_plainColumns_iff]
  obtain ⟨_ | entity, name⟩ := p
  · obtain ⟨hname, rfl⟩ := plainColumn?_unqualified.mp h
    exact .inl (isIdentifier_iff_mem.mp hname)
  · obtain ⟨hentity, hname, rfl⟩ := plainColumn?_qualified.mp h
    refine .inr ⟨_, isIdentifier_iff_mem.mp hentity, _, isIdentifier_iff_mem.mp hname, ?_⟩
    simp

theorem exists_of_mem_plainColumns {column : String} (h : column.toList ∈ plainColumns) :
    ∃ p : Property, p.plainColumn? = some column := by
  rcases mem_plainColumns_iff.mp h with h | ⟨entity, hentity, name, hname, h⟩
  · exact ⟨⟨none, column⟩, plainColumn?_unqualified.mpr ⟨isIdentifier_iff_mem.mpr h, rfl⟩⟩
  · have he : isIdentifier (.ofList entity) :=
      isIdentifier_iff_mem.mpr (by rwa [String.toList_ofList])
    have hn : isIdentifier (.ofList name) :=
      isIdentifier_iff_mem.mpr (by rwa [String.toList_ofList])
    have hcolumn : String.ofList entity ++ "." ++ String.ofList name = column :=
      String.toList_injective (by simpa using h)
    exact ⟨⟨some (.ofList entity), .ofList name⟩,
      plainColumn?_qualified.mpr ⟨he, hn, hcolumn⟩⟩

/-- A point in the column stands for an entity. -/
theorem point_mem_plainColumn?_iff {p : Property} {column : String}
    (h : p.plainColumn? = some column) : '.' ∈ column.toList ↔ p.entity.isSome := by
  obtain ⟨_ | entity, name⟩ := p
  · obtain ⟨hname, rfl⟩ := plainColumn?_unqualified.mp h
    simp [point_notMem_of_isIdentifier hname]
  · obtain ⟨-, -, rfl⟩ := plainColumn?_qualified.mp h
    simp

/-- The first point of a column is where its entity ends. -/
theorem eq_of_plainColumn?_eq_some {p q : Property} {column : String}
    (hp : p.plainColumn? = some column) (hq : q.plainColumn? = some column) : p = q := by
  have hentity : p.entity.isSome ↔ q.entity.isSome :=
    (point_mem_plainColumn?_iff hp).symm.trans (point_mem_plainColumn?_iff hq)
  obtain ⟨entity, name⟩ := p
  obtain ⟨entity', name'⟩ := q
  cases entity with
  | none =>
    cases entity' with
    | none =>
      obtain ⟨-, rfl⟩ := plainColumn?_unqualified.mp hp
      obtain ⟨-, rfl⟩ := plainColumn?_unqualified.mp hq
      rfl
    | some entity' => exact absurd (hentity.mpr rfl) Bool.false_ne_true
  | some entity =>
    cases entity' with
    | none => exact absurd (hentity.mp rfl) Bool.false_ne_true
    | some entity' =>
      obtain ⟨he, hn, hcolumn⟩ := plainColumn?_qualified.mp hp
      obtain ⟨-, -, rfl⟩ := plainColumn?_qualified.mp hq
      have hlists :
          entity.toList ++ '.' :: name.toList = entity'.toList ++ '.' :: name'.toList := by
        simpa using congrArg String.toList hcolumn
      obtain ⟨hentities, -, hnames⟩ := (List.append_cons_inj_of_notMem
        (point_notMem_of_isIdentifier he) (point_notMem_of_isIdentifier hn)).mp hlists
      rw [String.toList_injective hentities, String.toList_injective hnames]

/-- A property has a plain column just if its name and, where it has one, its entity are
identifiers. These columns are the identifiers and the pairs of them with a point between, and each
of them belongs to one property only. -/
theorem plainColumns_identify :
    (∀ p : Property, (∃ column, p.plainColumn? = some column) ↔
      p.name.toList ∈ identifiers ∧ ∀ entity ∈ p.entity, entity.toList ∈ identifiers) ∧
    (∀ column : String, (∃ p : Property, p.plainColumn? = some column) ↔
      column.toList ∈ plainColumns) ∧
    ∀ (p q : Property) (column : String),
      p.plainColumn? = some column → q.plainColumn? = some column → p = q := by
  refine ⟨fun p => ?_, fun column => ⟨?_, exists_of_mem_plainColumns⟩, fun p q column => ?_⟩
  · simp only [← isIdentifier_iff_mem]
    exact p.exists_plainColumn?_eq_some_iff
  · rintro ⟨p, hp⟩
    exact plainColumn?_mem_plainColumns hp
  · exact eq_of_plainColumn?_eq_some

theorem plainColumns_identify_qualified :
    let p : Property := ⟨some "_o", "Total2"⟩
    p.plainColumn? = some "_o.Total2" ∧ "_o.Total2".toList ∈ plainColumns ∧
      ∀ q : Property, q.plainColumn? = some "_o.Total2" → q = p := by
  intro p
  have hp : p.plainColumn? = some "_o.Total2" := by decide
  obtain ⟨-, hrange, hone⟩ := plainColumns_identify
  exact ⟨hp, (hrange "_o.Total2").mp ⟨p, hp⟩, fun q hq => hone q p "_o.Total2" hq hp⟩

end Property

end FilterClause
