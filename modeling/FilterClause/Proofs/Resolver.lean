import FilterClause.Resolver
import Mathlib.Data.List.Basic

/-!
# Plain columns

The columns of plain identifiers and their characters.
-/

namespace FilterClause

theorem isIdentifierChar_of_isIdentifier {s : String} (h : isIdentifier s) :
    s.toList ≠ [] ∧ ∀ c ∈ s.toList, isIdentifierChar c := by
  unfold isIdentifier at h
  split at h
  · cases h
  · next c cs ht =>
    simp only [Bool.and_eq_true, Bool.or_eq_true, List.all_eq_true] at h
    rw [ht]
    refine ⟨List.cons_ne_nil c cs, List.forall_mem_cons.mpr ⟨?_, h.2⟩⟩
    rcases h.1 with hc | hc
    · simp [isIdentifierChar, Char.isAlphanum, hc]
    · simp [isIdentifierChar, of_decide_eq_true hc]

namespace Property

/-- A name alone is its column if it is an identifier. -/
theorem plainColumn?_unqualified {name column : String} :
    (⟨none, name⟩ : Property).plainColumn? = some column ↔ isIdentifier name ∧ name = column := by
  simp [plainColumn?]

/-- An entity and a name are joined if both of them are identifiers. -/
theorem plainColumn?_qualified {entity name column : String} :
    (⟨some entity, name⟩ : Property).plainColumn? = some column ↔
      isIdentifier entity ∧ isIdentifier name ∧ entity ++ "." ++ name = column := by
  simp only [plainColumn?, Option.ite_none_right_eq_some, Option.some.injEq]
  exact and_left_comm

/-- What holds of the characters of identifiers and of the point holds of those of a plain
column. -/
theorem forall_mem_plainColumn? {P : Char → Prop} (hP : ∀ c, isIdentifierChar c → P c)
    (hpoint : P '.') {p : Property} {column : String} (h : p.plainColumn? = some column) :
    column.toList ≠ [] ∧ ∀ c ∈ column.toList, P c := by
  obtain ⟨_ | entity, name⟩ := p
  · obtain ⟨hn, rfl⟩ := plainColumn?_unqualified.mp h
    obtain ⟨hne, hname⟩ := isIdentifierChar_of_isIdentifier hn
    exact ⟨hne, fun c hc => hP c (hname c hc)⟩
  · obtain ⟨he, hn, rfl⟩ := plainColumn?_qualified.mp h
    obtain ⟨-, hentity⟩ := isIdentifierChar_of_isIdentifier he
    obtain ⟨-, hname⟩ := isIdentifierChar_of_isIdentifier hn
    simp only [String.toList_append, List.forall_mem_append]
    refine ⟨by simp, ⟨fun c hc => hP c (hentity c hc), ?_⟩, fun c hc => hP c (hname c hc)⟩
    exact List.forall_mem_singleton.mpr hpoint

end Property

end FilterClause
