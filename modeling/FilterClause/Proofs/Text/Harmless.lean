import Mathlib.Data.List.Chain
import Mathlib.Tactic.Common

/-!
# Harmless texts

What the characters of a text may do to the statement around it: end it, open a comment, a quoted
name or a text, or close a bracket that stands outside. A safe text does none of these, and safe
texts stay so when they are put together. Their hyphens and slashes are followed by blanks, their
single quotes stand around percent signs, and their brackets match.
-/

namespace FilterClause

/-- The number of open brackets after a character, if it closes none that is not open. -/
def bracketStep (n : ℕ) (c : Char) : Option ℕ :=
  if c = '(' then some (n + 1)
  else if c = ')' then if n = 0 then none else some (n - 1)
  else some n

def openAfter? : ℕ → List Char → Option ℕ
  | n, [] => some n
  | n, c :: s => (bracketStep n c).bind (openAfter? · s)

/-- The brackets of the text match. -/
def IsLevel (s : List Char) : Prop := openAfter? 0 s = some 0

instance (s : List Char) : Decidable (IsLevel s) := inferInstanceAs (Decidable (_ = _))

theorem openAfter?_append (n : ℕ) (s t : List Char) :
    openAfter? n (s ++ t) = (openAfter? n s).bind (openAfter? · t) := by
  induction s generalizing n with
  | nil => rfl
  | cons c s ih => simp only [List.cons_append, openAfter?, ih, Option.bind_assoc]

theorem bracketStep_add {n m : ℕ} {c : Char} (h : bracketStep n c = some m) (k : ℕ) :
    bracketStep (n + k) c = some (m + k) := by
  grind [bracketStep]

theorem openAfter?_add {n m : ℕ} {s : List Char} (h : openAfter? n s = some m) (k : ℕ) :
    openAfter? (n + k) s = some (m + k) := by
  induction s generalizing n with
  | nil =>
    cases h
    rfl
  | cons c s ih =>
    obtain ⟨l, hc, hs⟩ := Option.bind_eq_some_iff.mp h
    rw [openAfter?, bracketStep_add hc]
    exact ih hs

theorem IsLevel.openAfter?_eq {s : List Char} (h : IsLevel s) (n : ℕ) :
    openAfter? n s = some n := by
  simpa using openAfter?_add h n

theorem IsLevel.append {s t : List Char} (hs : IsLevel s) (ht : IsLevel t) : IsLevel (s ++ t) := by
  rw [IsLevel, openAfter?_append, hs]
  exact ht

/-- A level text stays so between texts whose brackets match. -/
theorem IsLevel.between {before s after : List Char} (h : IsLevel (before ++ after))
    (hs : IsLevel s) : IsLevel (before ++ s ++ after) := by
  rw [IsLevel, openAfter?_append] at h
  obtain ⟨n, hb, ha⟩ := Option.bind_eq_some_iff.mp h
  rw [IsLevel, openAfter?_append, openAfter?_append, hb, Option.bind_some, hs.openAfter?_eq]
  exact ha

theorem isLevel_of_forall {s : List Char} (h : ∀ c ∈ s, c ≠ '(' ∧ c ≠ ')') : IsLevel s := by
  induction s with
  | nil => rfl
  | cons c s ih =>
    obtain ⟨ho, hc⟩ := h c (by simp)
    rw [IsLevel, openAfter?, bracketStep, if_neg ho, if_neg hc]
    exact ih fun d hd => h d (by simp [hd])

theorem count_of_bracketStep {n m : ℕ} {c : Char} (h : bracketStep n c = some m) :
    n + [c].count '(' = m + [c].count ')' := by
  rw [List.count_singleton, List.count_singleton]
  grind [bracketStep]

theorem count_of_openAfter? {n m : ℕ} {s : List Char} (h : openAfter? n s = some m) :
    n + s.count '(' = m + s.count ')' := by
  induction s generalizing n with
  | nil =>
    cases h
    rfl
  | cons c s ih =>
    obtain ⟨l, hc, hs⟩ := Option.bind_eq_some_iff.mp h
    have hc := count_of_bracketStep hc
    have hs := ih hs
    rw [List.count_cons, List.count_cons]
    rw [List.count_singleton, List.count_singleton] at hc
    omega

/-- No beginning of a level text closes more brackets than it opens, and the whole closes all. -/
theorem IsLevel.count {s : List Char} (h : IsLevel s) :
    (∀ t, t <+: s → t.count ')' ≤ t.count '(') ∧ s.count ')' = s.count '(' := by
  have hs := count_of_openAfter? h
  refine ⟨?_, by omega⟩
  rintro t ⟨u, rfl⟩
  rw [IsLevel, openAfter?_append] at h
  obtain ⟨n, ht, _⟩ := Option.bind_eq_some_iff.mp h
  have ht := count_of_openAfter? ht
  omega

/-- Single quotes come only in threes of a quote, a percent sign and a quote. -/
def quotesPercents : List Char → Bool
  | [] => true
  | '\'' :: '%' :: '\'' :: s => quotesPercents s
  | c :: s => c != '\'' && quotesPercents s

theorem quotesPercents_append {s t : List Char} (hs : quotesPercents s) (ht : quotesPercents t) :
    quotesPercents (s ++ t) := by
  fun_induction quotesPercents s with
  | case1 => exact ht
  | case2 s ih => exact ih hs
  | case3 c s hn ih =>
    simp only [Bool.and_eq_true, bne_iff_ne] at hs
    simp [quotesPercents, hs.1, ih hs.2]

theorem quotesPercents_of_forall {s : List Char} (h : ∀ c ∈ s, c ≠ '\'') : quotesPercents s := by
  induction s with
  | nil => rfl
  | cons c s ih =>
    have hc : c ≠ '\'' := h c (by simp)
    simp [quotesPercents, hc, ih fun d hd => h d (by simp [hd])]

/-- The parts between the quoted percent signs have no quotes. -/
theorem exists_intercalate {s : List Char} (h : quotesPercents s) :
    ∃ part parts, (∀ p ∈ part :: parts, '\'' ∉ p) ∧
      s = ['\'', '%', '\''].intercalate (part :: parts) := by
  fun_induction quotesPercents s with
  | case1 => exact ⟨[], [], by simp, rfl⟩
  | case2 s ih =>
    obtain ⟨part, parts, hp, rfl⟩ := ih h
    exact ⟨[], part :: parts, by simpa using hp, by simp [List.intercalate_cons_cons]⟩
  | case3 c s hn ih =>
    simp only [Bool.and_eq_true, bne_iff_ne] at h
    obtain ⟨part, parts, hp, rfl⟩ := ih h.2
    rw [List.forall_mem_cons] at hp
    refine ⟨c :: part, parts, List.forall_mem_cons.mpr ⟨?_, hp.2⟩, ?_⟩
    · exact List.not_mem_cons_of_ne_of_not_mem h.1.symm hp.1
    · cases parts <;> simp [List.intercalate_cons_cons]

/-- Printable ASCII, but nothing that ends a statement or quotes a name. -/
def IsStatementChar (c : Char) : Prop := ' ' ≤ c ∧ c ≤ '~' ∧ c ∉ [';', '"', '[', ']']

instance (c : Char) : Decidable (IsStatementChar c) := inferInstanceAs (Decidable (_ ∧ _ ∧ _))

/-- The characters that comments begin with. -/
def commentChars : List Char := ['-', '/']

/-- The characters of a text are harmless also together with those of other such texts. -/
structure Harmless (s : List Char) : Prop where
  isStatementChar : ∀ c ∈ s, IsStatementChar c
  chain : s.IsChain fun c d => c ∈ commentChars → d = ' '
  last : ∀ c ∈ s.getLast?, c ∉ commentChars
  quotes : quotesPercents s

instance (s : List Char) : Decidable (Harmless s) :=
  decidable_of_iff ((s.all fun c => decide (IsStatementChar c)) ∧
      (s.IsChain fun c d => c ∈ commentChars → d = ' ') ∧
      (s.getLast?.all fun c => decide (c ∉ commentChars)) ∧ quotesPercents s) <| by
    simp only [List.all_eq_true, Option.all_eq_true, decide_eq_true_eq]
    exact ⟨fun h => ⟨h.1, h.2.1, h.2.2.1, h.2.2.2⟩,
      fun h => ⟨h.isStatementChar, h.chain, h.last, h.quotes⟩⟩

theorem Harmless.append {s t : List Char} (hs : Harmless s) (ht : Harmless t) :
    Harmless (s ++ t) where
  isStatementChar := List.forall_mem_append.mpr ⟨hs.isStatementChar, ht.isStatementChar⟩
  chain := List.isChain_append.mpr
    ⟨hs.chain, ht.chain, fun c hc _ _ hm => absurd hm (hs.last c hc)⟩
  last := by
    intro c hc
    rw [List.getLast?_append] at hc
    rcases Option.or_eq_some_iff.mp hc with hc | ⟨_, hc⟩
    · exact ht.last c hc
    · exact hs.last c hc
  quotes := quotesPercents_append hs.quotes ht.quotes

/-- A harmless text opens no comment. -/
theorem Harmless.not_infix {s : List Char} (h : Harmless s) {c d : Char} (hc : c ∈ commentChars)
    (hd : d ≠ ' ') : ¬[c, d] <:+: s := by
  rintro hs
  have hp := h.chain.infix hs
  exact hd ((List.isChain_pair.mp hp) hc)

/-- The brackets of a harmless text match. -/
structure Safe (s : List Char) : Prop extends Harmless s where
  level : IsLevel s

theorem Safe.append {s t : List Char} (hs : Safe s) (ht : Safe t) : Safe (s ++ t) :=
  ⟨hs.toHarmless.append ht.toHarmless, hs.level.append ht.level⟩

theorem Safe.between {before s after : List Char} (hb : Harmless before) (ha : Harmless after)
    (h : IsLevel (before ++ after)) (hs : Safe s) : Safe (before ++ s ++ after) :=
  ⟨(hb.append hs.toHarmless).append ha, h.between hs.level⟩

end FilterClause
