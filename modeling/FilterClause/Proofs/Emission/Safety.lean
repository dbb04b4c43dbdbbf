import FilterClause.Proofs.Emission.Readability
import FilterClause.Proofs.Resolver
import FilterClause.Proofs.Text.Harmless

/-!
# Safety of the emitted text

With the columns of plain identifiers nothing of an expression reaches its text but the names of
columns: no constant, no name of a function or a type. The words and the templates of the vocabulary
are harmless, so the whole text is safe, however deep they are nested.
-/

namespace FilterClause

/-- The characters of plain columns and of placeholders. -/
def isNameChar (c : Char) : Bool := isIdentifierChar c || c ∈ ['.', '@', '?', '$']

theorem isStatementChar_of_isNameChar {c : Char} (h : isNameChar c) : IsStatementChar c := by
  have hn : ∀ d ∈ [';', '"', '[', ']'], ¬isNameChar d := by simp [isNameChar, isIdentifierChar]
  have hc : 32 ≤ c.toNat ∧ c.toNat ≤ 126 := by
    simp only [isNameChar, isIdentifierChar, Char.isAlphanum] at h
    delta Char.isAlpha Char.isUpper Char.isLower Char.isDigit at h
    simp only [Bool.or_eq_true, Bool.and_eq_true, decide_eq_true_eq, UInt32.le_iff_toNat_le,
      ge_iff_le, List.mem_cons, List.not_mem_nil, or_false] at h
    change 32 ≤ c.val.toNat ∧ c.val.toNat ≤ 126
    rcases h with (((h | h) | h) | rfl) | rfl | rfl | rfl | rfl <;>
      simp only [UInt32.reduceToNat, Char.reduceVal] at * <;> omega
  exact ⟨hc.1, hc.2, fun hm => hn c hm h⟩

theorem safe_of_isNameChar {s : List Char} (h : ∀ c ∈ s, isNameChar c) : Safe s := by
  have hn : ∀ d ∈ ['-', '/', '\'', '(', ')'], ¬isNameChar d := by
    simp [isNameChar, isIdentifierChar]
  have hne : ∀ c ∈ s, c ∉ ['-', '/', '\'', '(', ')'] := fun c hc hm => hn c hm (h c hc)
  simp only [List.mem_cons, not_or] at hne
  have hm : ∀ c ∈ s, c ∉ commentChars := by
    intro c hc
    simp [commentChars, hne c hc]
  constructor
  · constructor
    · exact fun c hc => isStatementChar_of_isNameChar (h c hc)
    · refine List.isChain_iff_forall_rel_of_append_cons_cons.mpr ?_
      rintro c d before after rfl hc
      exact absurd hc (hm c (by simp))
    · exact fun c hc => hm c (List.mem_of_getLast? hc)
    · exact quotesPercents_of_forall fun c hc => (hne c hc).2.2.1
  · exact isLevel_of_forall fun c hc => ⟨(hne c hc).2.2.2.1, (hne c hc).2.2.2.2.1⟩

theorem safe_render (style : PlaceholderStyle) (n : ℕ) : Safe (style.render n).toList := by
  have hd : ∀ n : ℕ, ∀ c ∈ (toString n).toList, isNameChar c := by
    intro n c hc
    simp [isNameChar, isIdentifierChar, Char.isAlphanum, Skeleton.isDigit_toString n c hc]
  apply safe_of_isNameChar
  cases style with
  | atP =>
    rw [PlaceholderStyle.render, String.toList_append, List.forall_mem_append]
    exact ⟨List.all_eq_true.mp (by decide), hd n⟩
  | question =>
    rw [PlaceholderStyle.render]
    exact List.all_eq_true.mp (by decide)
  | dollar =>
    rw [PlaceholderStyle.render, String.toList_append, List.forall_mem_append]
    exact ⟨List.all_eq_true.mp (by decide), hd (n + 1)⟩

theorem Property.safe_plainColumn? {p : Property} {c : String} (h : p.plainColumn? = some c) :
    Safe c.toList := by
  have hi : ∀ c, isIdentifierChar c → isNameChar c := fun c hc => by simp [isNameChar, hc]
  exact safe_of_isNameChar (forall_mem_plainColumn? hi (by decide) h).2

namespace Call

theorem safe_intercalate {texts : List String} (h : ∀ t ∈ texts, Safe t.toList) :
    Safe (", ".intercalate texts).toList := by
  have hs : Safe ", ".toList := ⟨by decide +kernel, by decide⟩
  induction texts with
  | nil => exact ⟨by decide +kernel, by decide⟩
  | cons t texts ih =>
    cases texts with
    | nil =>
      rw [String.intercalate_singleton]
      exact h t (by simp)
    | cons u texts =>
      rw [String.intercalate_cons_cons, String.toList_append, String.toList_append]
      exact ((h t (by simp)).append hs).append (ih fun v hv => h v (by simp [hv]))

theorem safe_delimiters {d : Delimiters} (hd : d ∈ brackets ++ patterns) :
    Safe d.word.toList ∧ Harmless d.opening.toList ∧ Harmless d.closing.toList ∧
      IsLevel (d.opening.toList ++ d.closing.toList) := by
  have h : ∀ d ∈ brackets ++ patterns, (Harmless d.word.toList ∧ IsLevel d.word.toList) ∧
      Harmless d.opening.toList ∧ Harmless d.closing.toList ∧
      IsLevel (d.opening.toList ++ d.closing.toList) := by decide +kernel
  obtain ⟨hw, ho, hc, hl⟩ := h d hd
  exact ⟨⟨hw.1, hw.2⟩, ho, hc, hl⟩

/-- A call is safe if its arguments are. -/
theorem safe_text {name : String} {arguments : List String}
    (hk : IsKnown name arguments.length) (h : ∀ a ∈ arguments, Safe a.toList) :
    Safe (text name arguments).toList := by
  by_cases hn : name ∈ predicates
  · obtain ⟨hl, d, hd, rfl, ht⟩ := exists_pattern hk hn
    obtain ⟨subject, argument, rfl⟩ := List.length_eq_two.mp hl
    obtain ⟨_, ho, hc, hlevel⟩ := safe_delimiters (List.mem_append_right _ hd)
    have hs := (h subject (by simp)).append (.between ho hc hlevel (h argument (by simp)))
    rw [ht]
    simpa using hs
  · obtain ⟨d, hd, rfl⟩ := mem_brackets_of_isKnown hk hn
    obtain ⟨hw, ho, hc, hlevel⟩ := safe_delimiters (List.mem_append_left _ hd)
    have ha : Safe (", ".intercalate (inEmissionOrder d.name arguments)).toList :=
      safe_intercalate fun a ha => h a (mem_inEmissionOrder.mp ha)
    have hs := hw.append (.between ho hc hlevel ha)
    rw [text_of_mem_brackets hd hk]
    simpa using hs

end Call

namespace Skeleton

theorem safe_word {word : String} (h : word ∈ words) :
    Safe (" " ++ word ++ " ").toList := by
  have hw : ∀ word ∈ words, Harmless (" " ++ word ++ " ").toList ∧
      IsLevel (" " ++ word ++ " ").toList := by decide +kernel
  exact ⟨(hw word h).1, (hw word h).2⟩

theorem exists_of_mem_argumentTexts {write : ℕ → String} {fromLast : Bool} {n : ℕ}
    {ks : List Skeleton} {t : String} (h : t ∈ argumentTexts write fromLast n ks) :
    ∃ k ∈ ks, ∃ m, t = k.text write m := by
  induction ks generalizing n with
  | nil => cases h
  | cons k ks ih =>
    rcases List.mem_cons.mp h with rfl | h
    · exact ⟨k, by simp, _, rfl⟩
    · obtain ⟨l, hl, m, rfl⟩ := ih h
      exact ⟨l, by simp [hl], m, rfl⟩

end Skeleton

namespace Expression

theorem safe_text_of_skeleton? {e : Expression} {k : Skeleton}
    (h : e.skeleton? Property.plainColumn? = some k) (style : PlaceholderStyle) (n : ℕ) :
    Safe (k.text style.render n).toList := by
  induction e generalizing k n with
  | convert source target ih => exact ih h n
  | constant v =>
    cases h
    split
    · rw [Skeleton.text]
      exact ⟨by decide +kernel, by decide⟩
    · rw [Skeleton.text]
      exact safe_render style n
  | binary operator left right ihl ihr =>
    obtain ⟨word, l, r, hw, hl, hr, rfl⟩ := skeleton?_binary_eq_some_iff.mp h
    have hw := Skeleton.safe_word (BinaryOperator.ofWord?_of_word? hw).2
    have hs := ((ihl hl n).append hw).append (ihr hr (n + l.holes))
    have hopen : Harmless ['('] := by decide +kernel
    have hclose : Harmless [')'] := by decide +kernel
    have hb := Safe.between hopen hclose (by decide) hs
    rw [Skeleton.text]
    simpa using hb
  | unary operator operand ih =>
    obtain ⟨_, x, hx, rfl⟩ := skeleton?_unary_eq_some_iff.mp h
    have hn : Safe "NOT ".toList := ⟨by decide +kernel, by decide⟩
    rw [Skeleton.text, String.toList_append]
    exact hn.append (ih hx n)
  | property p =>
    obtain ⟨c, hc, rfl⟩ := skeleton?_property_eq_some_iff.mp h
    rw [Skeleton.text]
    exact p.safe_plainColumn? hc
  | call name arguments ih =>
    obtain ⟨hk, ks, hks, rfl⟩ := skeleton?_call_eq_some_iff.mp h
    rw [Skeleton.text]
    apply Call.safe_text
    · rw [Skeleton.length_argumentTexts, ← hks.length_eq]
      exact hk
    · intro t ht
      obtain ⟨k, hm, m, rfl⟩ := Skeleton.exists_of_mem_argumentTexts ht
      obtain ⟨a, ha, hak⟩ := exists_mem_of_forall₂ hks hm
      exact ih a ha hak m
  | collection items | lambda q s x p | rangeVariable x => cases h

variable {σ : Type}

/-- With the columns of plain identifiers the text of an expression is printable ASCII, without
semicolons, double quotes, square brackets and the beginnings of comments; between the literals of
a percent sign in quotes it has no single quotes; and its brackets match. -/
theorem emit_safe {e : Expression} {state : σ} {parameters : Parameters} {sql : String}
    (h : (e.emit (.ofFunction Property.plainColumn?) state parameters).result = .ok sql) :
    (∀ c ∈ sql.toList, ' ' ≤ c ∧ c ≤ '~' ∧ c ∉ [';', '"', '[', ']']) ∧
      ¬['-', '-'] <:+: sql.toList ∧ ¬['/', '*'] <:+: sql.toList ∧
      (∃ part parts, (∀ p ∈ part :: parts, '\'' ∉ p) ∧
        sql.toList = ['\'', '%', '\''].intercalate (part :: parts)) ∧
      (∀ t, t <+: sql.toList → t.count ')' ≤ t.count '(') ∧
      sql.toList.count ')' = sql.toList.count '(' := by
  obtain ⟨k, hk, rfl⟩ := text_of_emit_ok h
  have hs := safe_text_of_skeleton? hk parameters.style parameters.size
  exact ⟨hs.isStatementChar, hs.not_infix (by decide) (by decide),
    hs.not_infix (by decide) (by decide), exists_intercalate hs.quotes, hs.level.count⟩

theorem emit_safe_subtract :
    let e : Expression := .call "contains" [.property ⟨some "t", "a"⟩,
      .binary .subtract (.constant (.text "'; --")) (.convert (.constant (.int (-1))) "/*")]
    let sql := "t.a LIKE ('%' + (@p0 - @p1) + '%')"
    (e.emit (.ofFunction Property.plainColumn?) () (.empty .atP)).result = .ok sql ∧
      ¬['-', '-'] <:+: sql.toList ∧ ¬['/', '*'] <:+: sql.toList ∧
      ∀ t, t <+: sql.toList → t.count ')' ≤ t.count '(' := by
  intro e sql
  have h : (e.emit (.ofFunction Property.plainColumn?) () (.empty .atP)).result = .ok sql := by
    decide
  obtain ⟨_, hh, hc, _, hb, _⟩ := emit_safe h
  exact ⟨h, hh, hc, hb⟩

end Expression

end FilterClause
