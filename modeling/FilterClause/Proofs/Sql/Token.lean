import FilterClause.Proofs.Skeleton.Readback

/-!
# The tokens of a clause

A text is cut into tokens as SQL cuts it: brackets and commas stand by themselves, a quoted text
goes on to its closing quote, and words and operators are as long as possible. The words that stand
between or before operands are told apart from names, in upper or lower case.
-/

namespace FilterClause.Sql

inductive Token where
  | name (text : String)
  | keyword (text : String)
  | operator (text : String)
  | quoted (text : String)
  | opening
  | closing
  | comma
  deriving DecidableEq

def keywords : List String := ["AS", "OR", "AND", "NOT", "IS", "LIKE"]

def upper (w : List Char) : String := String.ofList (w.map Char.toUpper)

def Token.ofWord (w : List Char) : Token :=
  if upper w ∈ keywords then keyword (upper w) else name (String.ofList w)

def operatorChars : List Char := ['=', '<', '>', '+', '-', '*', '/', '%']

def isWordChar (c : Char) : Bool := c ∉ [' ', '(', ')', ',', '\''] ++ operatorChars

/-- The characters of a token that has begun. -/
inductive Pending where
  | nothing
  | word (w : List Char)
  | operator (w : List Char)
  | quoted (w : List Char)

namespace Pending

def finish : Pending → List Token
  | nothing => []
  | word w => [.ofWord w]
  | operator w => [.operator (String.ofList w)]
  | quoted w => [.quoted (String.ofList w)]

/-- What a character outside of any token is, and what it begins. -/
def start (c : Char) : List Token × Pending :=
  if c = ' ' then ([], nothing)
  else if c = '(' then ([.opening], nothing)
  else if c = ')' then ([.closing], nothing)
  else if c = ',' then ([.comma], nothing)
  else if c = '\'' then ([], quoted [])
  else if c ∈ operatorChars then ([], operator [c])
  else ([], word [c])

def step : Pending → Char → List Token × Pending
  | nothing, c => start c
  | word w, c =>
    if isWordChar c then ([], word (w ++ [c]))
    else ((word w).finish ++ (start c).1, (start c).2)
  | operator w, c =>
    if c ∈ operatorChars then ([], operator (w ++ [c]))
    else ((operator w).finish ++ (start c).1, (start c).2)
  | quoted w, c => if c = '\'' then ((quoted w).finish, nothing) else ([], quoted (w ++ [c]))

/-- The tokens of characters that follow those of a token that has begun. -/
def tokens : Pending → List Char → List Token
  | p, [] => p.finish
  | p, c :: s => (p.step c).1 ++ (p.step c).2.tokens s

end Pending

def tokens (s : List Char) : List Token := Pending.nothing.tokens s

/-- The text has these tokens, whatever follows. -/
def Closes (t : String) (ts : List Token) : Prop := ∀ s, tokens (t.toList ++ s) = ts ++ tokens s

/-- The text has these tokens wherever an expression may end. -/
def Lexes (t : String) (ts : List Token) : Prop :=
  ∀ s, Skeleton.Delimited s → tokens (t.toList ++ s) = ts ++ tokens s

theorem Lexes.tokens_toList {t : String} {ts : List Token} (h : Lexes t ts) :
    tokens t.toList = ts := by
  have hn := h [] (by simp [Skeleton.Delimited])
  simpa [tokens, Pending.tokens, Pending.finish] using hn

theorem Closes.lexes {t : String} {ts : List Token} (h : Closes t ts) : Lexes t ts := fun s _ => h s

theorem Closes.append_lexes {t u : String} {ts us : List Token} (ht : Closes t ts)
    (hu : Lexes u us) : Lexes (t ++ u) (ts ++ us) := by
  intro s hs
  rw [String.toList_append, List.append_assoc, List.append_assoc, ht, hu s hs]

theorem Lexes.append_closes {t u : String} {ts us : List Token} (ht : Lexes t ts)
    (hu : Closes u us) (hd : ∀ s, Skeleton.Delimited (u.toList ++ s)) :
    Closes (t ++ u) (ts ++ us) := by
  intro s
  rw [String.toList_append, List.append_assoc, List.append_assoc, ht _ (hd s), hu]

/-- Arguments have their tokens between commas. -/
theorem lexes_intercalate {texts : List String} {tss : List (List Token)}
    (h : List.Forall₂ Lexes texts tss) :
    Lexes (", ".intercalate texts) ([Token.comma].intercalate tss) := by
  induction h with
  | nil => exact fun s _ => by simp
  | @cons t ts texts tss ht hts ih =>
    cases hts with
    | nil => simpa using ht
    | cons hu hus =>
      rw [String.intercalate_cons_cons, List.intercalate_cons_cons]
      refine (ht.append_closes (fun _ => rfl) fun s => ?_).append_lexes ih
      exact (Skeleton.ended_comma s).delimited

theorem not_isWordChar_of_delimited {s : List Char} (h : Skeleton.Delimited s) :
    ∀ c ∈ s.head?, ¬isWordChar c := by
  have hd : ∀ d ∈ [' ', ')', ','], ¬isWordChar d := by simp [isWordChar]
  exact fun c hc => hd c (h c hc)

theorem start_of_isWordChar {c : Char} (h : isWordChar c) : Pending.start c = ([], .word [c]) := by
  simp only [isWordChar, List.cons_append, List.nil_append, List.mem_cons, not_or,
    decide_eq_true_eq] at h
  obtain ⟨h1, h2, h3, h4, h5, ho⟩ := h
  have ho : c ∉ operatorChars := by simpa using ho
  rw [Pending.start, if_neg h1, if_neg h2, if_neg h3, if_neg h4, if_neg h5, if_neg ho]

theorem tokens_word (u w : List Char) (hw : ∀ c ∈ w, isWordChar c) {s : List Char}
    (hs : ∀ c ∈ s.head?, ¬isWordChar c) :
    (Pending.word u).tokens (w ++ s) = .ofWord (u ++ w) :: tokens s := by
  induction w generalizing u with
  | nil =>
    rw [List.append_nil, List.nil_append]
    cases s with
    | nil => rfl
    | cons c s => rw [Pending.tokens, Pending.step, if_neg (hs c rfl)]; rfl
  | cons c w ih =>
    have hc : isWordChar c := hw c (by simp)
    rw [List.cons_append, Pending.tokens, Pending.step, if_pos hc, List.nil_append,
      ih _ fun d hd => hw d (by simp [hd]), List.append_assoc]
    rfl

/-- A word other than a keyword. -/
structure IsName (text : String) : Prop where
  ne_empty : text ≠ ""
  all_isWordChar : ∀ c ∈ text.toList, isWordChar c
  not_keyword : upper text.toList ∉ keywords

theorem IsName.lexes {t : String} (h : IsName t) : Lexes t [.name t] := by
  intro s hs
  obtain ⟨c, w, hw⟩ := List.exists_cons_of_ne_nil fun hn => h.ne_empty (String.toList_inj.mp hn)
  have hword : Token.ofWord (c :: w) = .name t := by
    rw [← hw, Token.ofWord, if_neg h.not_keyword, String.ofList_toList]
  have ht := h.all_isWordChar
  rw [hw] at ht ⊢
  rw [tokens, List.cons_append, Pending.tokens, Pending.step, start_of_isWordChar (ht c (by simp)),
    List.nil_append, tokens_word [c] w (fun d hd => ht d (by simp [hd]))
      (not_isWordChar_of_delimited hs), List.singleton_append, hword]
  rfl

theorem isWordChar_of_isColumnChar {c : Char} (h : Skeleton.isColumnChar c) : isWordChar c := by
  have hd : ∀ d ∈ [' ', '(', ')', ',', '\''] ++ operatorChars, ¬Skeleton.isColumnChar d := by
    simp [operatorChars, Skeleton.isColumnChar]
  exact decide_eq_true fun hm => hd c hm h

theorem isName_render (style : PlaceholderStyle) (n : ℕ) : IsName (style.render n) := by
  obtain ⟨c, cs, ht, hc, hcs⟩ := Skeleton.toList_render style n
  have hk : ∀ d ∈ ['?', '@', '$'], isWordChar d ∧
      ∀ word ∈ keywords, word.toList.head? ≠ some d.toUpper := by
    simp only [List.forall_mem_cons, List.not_mem_nil, false_implies, implies_true, and_true]
    decide
  refine ⟨?_, ?_, ?_⟩
  · intro hn
    rw [hn] at ht
    cases ht
  · rw [ht, List.forall_mem_cons]
    exact ⟨(hk c hc).1, fun d hd => isWordChar_of_isColumnChar (hcs d hd)⟩
  · intro hm
    refine (hk c hc).2 _ hm ?_
    rw [upper, ht, String.toList_ofList]
    rfl

end FilterClause.Sql
