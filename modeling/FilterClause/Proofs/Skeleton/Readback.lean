import FilterClause.Proofs.Skeleton.Reader

/-!
# Reading back

The fixed texts of calls and binary operations are told apart by their first differing characters,
none of which can begin an expression. So the reader finds its way through the text of a legible
skeleton, and returns the normal skeleton.
-/

namespace FilterClause.Skeleton

open Call (Delimiters brackets patterns)

/-- An expression ends before these characters. -/
def Delimited (s : List Char) : Prop := ∀ c ∈ s.head?, c ∈ [' ', ')', ',']

/-- An expression ends before these characters, and is not the first argument of a predicate. -/
structure Ended (s : List Char) : Prop where
  delimited : Delimited s
  opening_eq : opening? patterns s = none

theorem Delimited.not_isColumnChar {s : List Char} (h : Delimited s) :
    ∀ c ∈ s.head?, ¬isColumnChar c := by
  intro c hc
  have hd : ∀ d ∈ [' ', ')', ','], ¬isColumnChar d := by simp [isColumnChar]
  exact hd c (h c hc)

def closings : List String := [")", "))", " AS date)", " AS time)", " + '%')"]

theorem mem_closings {d : Delimiters} (hd : d ∈ brackets ++ patterns) : d.closing ∈ closings := by
  have h : ∀ d ∈ brackets ++ patterns, d.closing ∈ closings := by decide
  exact h d hd

theorem ended_closing {closing : String} (h : closing ∈ closings) (s : List Char) :
    Ended (closing.toList ++ s) := by
  simp only [closings, List.mem_cons, List.not_mem_nil, or_false] at h
  rcases h with rfl | rfl | rfl | rfl | rfl
  all_goals exact ⟨by simp [Delimited], rfl⟩

theorem skip?_comma_closing {closing : String} (h : closing ∈ closings) (s : List Char) :
    skip? ", ".toList (closing.toList ++ s) = none := by
  simp only [closings, List.mem_cons, List.not_mem_nil, or_false] at h
  rcases h with rfl | rfl | rfl | rfl | rfl
  all_goals rfl

theorem ended_comma (s : List Char) : Ended (", ".toList ++ s) := ⟨by simp [Delimited], rfl⟩

theorem ended_bracket (s : List Char) : Ended (')' :: s) := ⟨by simp [Delimited], rfl⟩

theorem ended_word {word : String} (h : word ∈ words) (s : List Char) :
    Ended ((" " ++ word ++ " ").toList ++ s) := by
  constructor
  · simp [Delimited]
  · simp only [words, List.mem_cons, List.not_mem_nil, or_false] at h
    rcases h with rfl | rfl | rfl | rfl | rfl | rfl | rfl | rfl | rfl | rfl | rfl | rfl | rfl |
      rfl | rfl
    all_goals rfl

theorem word?_append {word : String} (h : word ∈ words) {s : List Char}
    (hs : word = "IS" → ∃ t, s = "NULL".toList ++ t) :
    word? ((" " ++ word ++ " ").toList ++ s) = some (word, s) := by
  simp only [words, List.mem_cons, List.not_mem_nil, or_false] at h
  rcases h with rfl | rfl | rfl | rfl | rfl | rfl | rfl | rfl | rfl | rfl | rfl | rfl | rfl |
    rfl | rfl
  case inr.inr.inr.inr.inr.inr.inr.inr.inr.inr.inr.inr.inr.inr =>
    obtain ⟨t, rfl⟩ := hs rfl
    rfl
  all_goals rfl

theorem opening?_patterns {d : Delimiters} (hd : d ∈ patterns) {s : List Char}
    (hs : s.head? ≠ some '\'') :
    opening? patterns (d.opening.toList ++ s) = some (d.opening, s) := by
  simp only [patterns, List.mem_cons, List.not_mem_nil, or_false] at hd
  rcases hd with rfl | rfl | rfl
  · rfl
  · rfl
  · have hn : skip? " LIKE ('%' + ".toList (" LIKE (".toList ++ s) = none := by
      cases s with
      | nil => rfl
      | cons c s =>
        have hc : '\'' ≠ c := fun h => hs (by rw [h]; rfl)
        change (if '\'' = c then skip? "%' + ".toList s else none) = none
        rw [if_neg hc]
    simp only [opening?, patterns, List.findSome?_cons, hn, Option.map_none]
    rfl

theorem closing?_patterns {d : Delimiters} (hd : d ∈ patterns) (s : List Char) :
    closing? patterns d.opening (d.closing.toList ++ s) = some (d.name, s) := by
  simp only [patterns, List.mem_cons, List.not_mem_nil, or_false] at hd
  rcases hd with rfl | rfl | rfl
  all_goals rfl

theorem opening?_closing?_brackets {d : Delimiters} (hd : d ∈ brackets) (s : List Char) :
    opening? (brackets.filter (·.word.toList = d.word.toList)) (d.opening.toList ++ s) =
        some (d.opening, s) ∧
      closing? (brackets.filter (·.word.toList = d.word.toList)) d.opening
        (d.closing.toList ++ s) = some (d.name, s) := by
  simp only [brackets, List.mem_cons, List.not_mem_nil, or_false] at hd
  rcases hd with rfl | rfl | rfl | rfl | rfl | rfl | rfl | rfl | rfl | rfl | rfl | rfl | rfl | rfl |
    rfl | rfl | rfl | rfl | rfl | rfl | rfl
  all_goals exact ⟨rfl, rfl⟩

theorem word_of_mem_brackets {d : Delimiters} (hd : d ∈ brackets) :
    d.word.toList ≠ [] ∧ (∀ c ∈ d.word.toList, isColumnChar c) ∧ d.word.toList ≠ "NOT".toList ∧
      d.opening.toList.head? = some '(' := by
  have h : ∀ d ∈ brackets, d.word.toList ≠ [] ∧ d.word.toList.all isColumnChar ∧
      d.word.toList ≠ "NOT".toList ∧ d.opening.toList.head? = some '(' := by decide
  obtain ⟨hne, hw, hn, ho⟩ := h d hd
  exact ⟨hne, List.all_eq_true.mp hw, hn, ho⟩

theorem skip?_eq_none {t s : List Char} (h : t.head? ≠ s.head?) (ht : t ≠ []) :
    skip? t s = none := by
  cases t with
  | nil => exact absurd rfl ht
  | cons c cs =>
    cases s with
    | nil => rfl
    | cons d ds =>
      have hc : c ≠ d := fun hc => h (by simp [hc])
      rw [skip?, if_neg hc]

/-- A word before the end of an expression is not the word of a call. -/
theorem opening?_delimited {s : List Char} (hs : Delimited s) (w : List Char) :
    opening? (brackets.filter (·.word.toList = w)) s = none := by
  apply List.findSome?_eq_none_iff.mpr
  intro d hd
  obtain ⟨_, _, _, ho⟩ := word_of_mem_brackets (List.mem_of_mem_filter hd)
  have hne : d.opening.toList.head? ≠ s.head? := by
    rw [ho]
    intro h
    have hm := hs '(' h.symm
    simp at hm
  rw [skip?_eq_none hne (by rintro h; simp [h] at ho)]
  rfl

theorem isDigit_toString (n : ℕ) : ∀ c ∈ (toString n).toList, c.isDigit := by
  intro c hc
  have hm : c ∈ Nat.toDigits 10 n := by simpa using hc
  exact Nat.isDigit_of_mem_toDigits (by decide) (by decide) hm

theorem isColumnChar_toString (n : ℕ) : ∀ c ∈ (toString n).toList, isColumnChar c := by
  intro c hc
  simp [isColumnChar, Char.isAlphanum, isDigit_toString n c hc]

theorem toList_render (style : PlaceholderStyle) (n : ℕ) :
    ∃ c cs, (style.render n).toList = c :: cs ∧ c ∈ ['?', '@', '$'] ∧ ∀ d ∈ cs, isColumnChar d := by
  cases style with
  | atP =>
    refine ⟨'@', 'p' :: (toString n).toList, by simp [PlaceholderStyle.render], by simp, ?_⟩
    exact List.forall_mem_cons.mpr ⟨by decide, isColumnChar_toString n⟩
  | question => exact ⟨'?', [], by simp [PlaceholderStyle.render], by simp, by simp⟩
  | dollar =>
    refine ⟨'$', (toString (n + 1)).toList, by simp [PlaceholderStyle.render], by simp, ?_⟩
    exact isColumnChar_toString (n + 1)

/-- The text reads as the skeleton wherever it ends. -/
def ReadsAs (t : String) (k : Skeleton) : Prop :=
  ∀ s, Ended s → Reads 0 (t.toList ++ s) (k, s)

theorem reads_more {ts : List String} {ks : List Skeleton} (h : List.Forall₂ ReadsAs ts ks)
    {s : List Char} (hs : Ended s) (hc : skip? ", ".toList s = none) :
    Ended (ts.flatMap (", ".toList ++ ·.toList) ++ s) ∧
      ReadsMore (ts.flatMap (", ".toList ++ ·.toList) ++ s) (ks, s) := by
  induction h with
  | nil => exact ⟨hs, readsMore_nil hc⟩
  | @cons t k ts ks ht _ ih =>
    rw [List.flatMap_cons, List.append_assoc, List.append_assoc]
    exact ⟨ended_comma _, readsMore_cons rfl (ht _ ih.1) ih.2⟩

theorem toList_intercalate_cons (t : String) (ts : List String) :
    (", ".intercalate (t :: ts)).toList =
      t.toList ++ ts.flatMap (", ".toList ++ ·.toList) := by
  induction ts generalizing t with
  | nil => simp
  | cons u us ih =>
    rw [String.intercalate_cons_cons, String.toList_append, String.toList_append, ih]
    simp

theorem reads_arguments {ts : List String} {ks : List Skeleton}
    (h : List.Forall₂ ReadsAs ts ks) {closing : String} (hc : closing ∈ closings)
    (hn : ts = [] → closing = ")") (s : List Char) :
    ReadsArguments ((", ".intercalate ts).toList ++ (closing.toList ++ s))
      (ks, closing.toList ++ s) := by
  cases h with
  | nil =>
    rw [hn rfl]
    exact readsArguments_nil rfl
  | @cons t k ts ks ht hts =>
    obtain ⟨he, hm⟩ := reads_more hts (ended_closing hc s) (skip?_comma_closing hc s)
    have hr := ht _ he
    rw [toList_intercalate_cons, List.append_assoc]
    exact readsArguments_cons hr.head.2 hr hm

theorem reads_call {d : Delimiters} (hd : d ∈ brackets) {ts : List String} {ks : List Skeleton}
    (hk : Call.IsKnown d.name ts.length) (h : List.Forall₂ ReadsAs ts ks) {m : ℕ} {s : List Char}
    {out : Skeleton × List Char} (hp : ReadsPatterns (nots m (.call d.name ks)) s out) :
    Reads m ((Call.text d.name ts).toList ++ s) out := by
  obtain ⟨hne, hw, hnot, ho⟩ := word_of_mem_brackets hd
  have hn : Call.inEmissionOrder d.name ts = [] → d.closing = ")" := by
    intro he
    have hc : ∀ d ∈ brackets, Call.IsKnown d.name 0 → d.closing = ")" := by decide
    rw [Call.inEmissionOrder_eq_nil_iff.mp he] at hk
    exact hc d hd hk
  have hs : ∀ s, ∀ c ∈ (d.opening.toList ++ s).head?, ¬isColumnChar c := by
    intro s c hc
    rw [List.head?_append, ho] at hc
    obtain rfl := Option.some.inj hc
    decide
  rw [Call.text_of_mem_brackets hd hk, String.toList_append, String.toList_append,
    String.toList_append, List.append_assoc, List.append_assoc, List.append_assoc]
  have hc : d.closing ∈ closings := mem_closings (List.mem_append_left _ hd)
  have ha := reads_arguments (Call.forall₂_inEmissionOrder d.name h) hc hn s
  have hc' := (opening?_closing?_brackets hd s).2
  apply reads_word hne hw (hs _)
  apply readsWord_call hnot (opening?_closing?_brackets hd _).1 ha hc'
  rwa [Call.inEmissionOrder_inEmissionOrder]

theorem reads_pattern {d : Delimiters} (hd : d ∈ patterns) {t : String} {k argument : Skeleton}
    (ht : ReadsAs t argument) {s : List Char} {out : Skeleton × List Char}
    (hp : ReadsPatterns (hoist d.name k [argument]) s out) :
    ReadsPatterns k (d.opening.toList ++ (t.toList ++ (d.closing.toList ++ s))) out := by
  have hc : d.closing ∈ closings := mem_closings (List.mem_append_right _ hd)
  have hr := ht _ (ended_closing hc s)
  exact readsPatterns_cons (opening?_patterns hd hr.head.1) hr (closing?_patterns hd s) hp

theorem reads_atom {w : String} {m : ℕ} {s : List Char} {out : Skeleton × List Char}
    (hne : w ≠ "") (hw : ∀ c ∈ w.toList, isColumnChar c) (hn : w ≠ "NOT") (hs : Delimited s)
    (hp : ReadsPatterns (nots m (ofWord w.toList)) s out) : Reads m (w.toList ++ s) out := by
  have hne' : w.toList ≠ [] := fun h => hne (String.toList_inj.mp h)
  have hn' : w.toList ≠ "NOT".toList := fun h => hn (String.toList_inj.mp h)
  exact reads_word hne' hw hs.not_isColumnChar
    (readsWord_atom hn' (opening?_delimited hs w.toList) hp)

theorem IsPlainColumn.ofWord {name : String} (h : IsPlainColumn name) :
    ofWord name.toList = .column name := by
  have hn : name.toList ≠ "NULL".toList := fun he => h.ne_null (String.toList_inj.mp he)
  rw [Skeleton.ofWord, if_neg hn, String.ofList_toList]

theorem hoist_nots (name : String) (m : ℕ) (k : Skeleton) (rest : List Skeleton) :
    hoist name (nots m k) rest = nots m (hoist name k rest) := by
  induction m generalizing k with
  | zero => rfl
  | succ m ih => exact ih (.not k)

theorem forall₂_argumentTexts {R : String → Skeleton → Prop} {write : ℕ → String}
    {ks : List Skeleton} (h : ∀ k ∈ ks, ∀ n, R (k.text write n) k.normal) (fromLast : Bool)
    (n : ℕ) : List.Forall₂ R (argumentTexts write fromLast n ks) (ks.map normal) := by
  induction ks generalizing n with
  | nil => exact .nil
  | cons k ks ih =>
    exact .cons (h k (by simp) _) (ih (fun l hl => h l (by simp [hl])) _)

theorem length_argumentTexts (write : ℕ → String) (fromLast : Bool) (n : ℕ) (ks : List Skeleton) :
    (argumentTexts write fromLast n ks).length = ks.length := by
  induction ks generalizing n with
  | nil => rfl
  | cons k ks ih => simp [argumentTexts, ih]

/-- A legible skeleton is read in its normal form, below the negations in front of it and with the
predicates behind it. -/
theorem Legible.reads {k : Skeleton} (h : k.Legible) (style : PlaceholderStyle) (n m : ℕ)
    {s : List Char} {out : Skeleton × List Char} (hs : Delimited s)
    (hp : ReadsPatterns (nots m k.normal) s out) :
    Reads m ((k.text style.render n).toList ++ s) out := by
  induction h generalizing n m s out with
  | null =>
    have ht : text style.render n .null = "NULL" := by rw [text]
    rw [ht]
    exact reads_atom (by decide) (by simp [isColumnChar]) (by decide) hs hp
  | hole =>
    obtain ⟨c, cs, ht, hc, hcs⟩ := toList_render style n
    rw [text, ht, List.cons_append]
    apply reads_hole hc
    rwa [dropWhile_word hcs hs.not_isColumnChar]
  | @column name h =>
    rw [text]
    apply reads_atom h.ne_empty h.all_isColumnChar h.ne_not hs
    rwa [h.ofWord]
  | @binary word left right hw hn hl hr ihl ihr =>
    have ht : (text style.render n (.binary word left right)).toList ++ s =
        '(' :: ((left.text style.render n).toList ++ ((" " ++ word ++ " ").toList ++
          ((right.text style.render (n + left.holes)).toList ++ ')' :: s))) := by
      simp [text]
    rw [ht]
    have hw' := ended_word hw ((right.text style.render (n + left.holes)).toList ++ ')' :: s)
    have hc := ended_bracket s
    refine reads_binary (ihl n 0 hw'.delimited (readsPatterns_nil hw'.opening_eq))
      (word?_append hw ?_) (ihr _ 0 hc.delimited (readsPatterns_nil hc.opening_eq)) hp
    intro his
    rw [hn his, text]
    exact ⟨_, rfl⟩
  | @not operand h ih =>
    have ht : (text style.render n (.not operand)).toList ++ s =
        "NOT".toList ++ ' ' :: ((text style.render n operand).toList ++ s) := by
      simp [text]
    rw [ht]
    exact reads_word (by simp) (by simp [isColumnChar]) (by simp [isColumnChar])
      (readsWord_not (ih n (m + 1) hs hp))
  | @call name arguments hk ha ih =>
    have hr : ∀ a ∈ arguments, ∀ n, ReadsAs (a.text style.render n) a.normal := by
      intro a ha n s hs
      exact ih a ha n 0 hs.delimited (readsPatterns_nil hs.opening_eq)
    rw [normal_call] at hp
    by_cases hn : name ∈ Call.predicates
    · obtain ⟨hl, d, hd, rfl, ht⟩ := Call.exists_pattern hk hn
      obtain ⟨subject, argument, rfl⟩ := List.length_eq_two.mp hl
      simp only [List.map_cons, List.map_nil, normalCall, if_pos hn, ← hoist_nots] at hp
      rw [text, argumentTexts, argumentTexts, argumentTexts, ht]
      simp only [String.toList_append, List.append_assoc]
      refine ih subject (by simp) _ m ?_ (reads_pattern hd (hr argument (by simp) _) hp)
      have ho : ∀ d ∈ patterns, d.opening.toList.head? = some ' ' := by decide
      simp [Delimited, List.head?_append, ho d hd]
    · obtain ⟨d, hd, rfl⟩ := Call.mem_brackets_of_isKnown hk hn
      have hc : normalCall d.name (arguments.map normal) = .call d.name (arguments.map normal) := by
        cases arguments with
        | nil => rfl
        | cons a as => rw [List.map_cons, normalCall, if_neg hn]
      rw [hc] at hp
      rw [text]
      exact reads_call hd (by rwa [length_argumentTexts]) (forall₂_argumentTexts hr _ n) hp

/-- The reader finds the normal skeleton of a whole text. -/
theorem Legible.read_text {k : Skeleton} (h : k.Legible) (style : PlaceholderStyle) (n : ℕ) :
    Reads 0 (k.text style.render n).toList (k.normal, []) := by
  have hr := h.reads style n 0 (s := []) (by simp [Delimited]) (readsPatterns_nil rfl)
  rwa [List.append_nil] at hr

end FilterClause.Skeleton
