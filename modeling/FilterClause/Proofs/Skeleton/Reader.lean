import FilterClause.Proofs.Skeleton.Normal

/-!
# Reading skeletons

The text of a legible skeleton is read back character by character. An expression is read together
with all predicates that it is the first argument of: the negations in front of it are counted, then
follows an atom, and each predicate behind the atom takes up what has been read so far, below the
negations. The result is the normal skeleton.
-/

namespace FilterClause.Skeleton

open Call (Delimiters brackets patterns)

/-- What follows a fixed text. -/
def skip? : List Char → List Char → Option (List Char)
  | [], s => some s
  | _ :: _, [] => none
  | c :: cs, d :: s => if c = d then skip? cs s else none

/-- The first opening text that the characters begin with. -/
def opening? (ds : List Delimiters) (s : List Char) : Option (String × List Char) :=
  ds.findSome? fun d => (skip? d.opening.toList s).map (d.opening, ·)

/-- The first function with the given opening text whose closing text the characters begin with. -/
def closing? (ds : List Delimiters) (opening : String) (s : List Char) :
    Option (String × List Char) :=
  (ds.filter (·.opening = opening)).findSome? fun d =>
    (skip? d.closing.toList s).map (d.name, ·)

def word? (s : List Char) : Option (String × List Char) :=
  words.findSome? fun word => (skip? (" " ++ word ++ " ").toList s).map (word, ·)

def nots : ℕ → Skeleton → Skeleton
  | 0, k => k
  | m + 1, k => nots m (.not k)

def ofWord (w : List Char) : Skeleton :=
  if w = "NULL".toList then null else column (String.ofList w)

mutual

/-- Read an expression behind `m` negations. -/
def read : ℕ → ℕ → List Char → Option (Skeleton × List Char)
  | 0, _, _ => none
  | _ + 1, _, [] => none
  | fuel + 1, m, c :: s =>
    if c = '(' then do
      let (left, s) ← read fuel 0 s
      let (word, s) ← word? s
      let (right, s) ← read fuel 0 s
      let s ← skip? [')'] s
      readPatterns fuel (nots m (.binary word left right)) s
    else if c ∈ ['?', '@', '$'] then readPatterns fuel (nots m .hole) (s.dropWhile isColumnChar)
    else if isColumnChar c then
      readWord fuel m ((c :: s).takeWhile isColumnChar) ((c :: s).dropWhile isColumnChar)
    else none

/-- Read on behind a word: the word may be a negation, the one of a function or the whole atom. -/
def readWord : ℕ → ℕ → List Char → List Char → Option (Skeleton × List Char)
  | 0, _, _, _ => none
  | fuel + 1, m, w, s =>
    if w = "NOT".toList then read fuel (m + 1) (s.drop 1)
    else
      match opening? (brackets.filter (·.word.toList = w)) s with
      | none => readPatterns fuel (nots m (ofWord w)) s
      | some (opening, s) => do
        let (arguments, s) ← readArguments fuel s
        let (name, s) ← closing? (brackets.filter (·.word.toList = w)) opening s
        readPatterns fuel (nots m (.call name (Call.inEmissionOrder name arguments))) s

/-- Read the predicates whose first argument has been read. -/
def readPatterns : ℕ → Skeleton → List Char → Option (Skeleton × List Char)
  | 0, _, _ => none
  | fuel + 1, k, s =>
    match opening? patterns s with
    | none => some (k, s)
    | some (opening, s) => do
      let (argument, s) ← read fuel 0 s
      let (name, s) ← closing? patterns opening s
      readPatterns fuel (hoist name k [argument]) s

def readArguments : ℕ → List Char → Option (List Skeleton × List Char)
  | 0, _ => none
  | fuel + 1, s =>
    if s.head? = some ')' then some ([], s)
    else do
      let (k, s) ← read fuel 0 s
      let (ks, s) ← readMore fuel s
      return (k :: ks, s)

/-- Read the arguments behind the first one. -/
def readMore : ℕ → List Char → Option (List Skeleton × List Char)
  | 0, _ => none
  | fuel + 1, s =>
    match skip? ", ".toList s with
    | none => some ([], s)
    | some s => do
      let (k, s) ← read fuel 0 s
      let (ks, s) ← readMore fuel s
      return (k :: ks, s)

end

/-- Reading succeeds with any fuel from some amount on. -/
def Reads (m : ℕ) (s : List Char) (out : Skeleton × List Char) : Prop :=
  ∃ n, ∀ fuel ≥ n, read fuel m s = some out

def ReadsWord (m : ℕ) (w s : List Char) (out : Skeleton × List Char) : Prop :=
  ∃ n, ∀ fuel ≥ n, readWord fuel m w s = some out

def ReadsPatterns (k : Skeleton) (s : List Char) (out : Skeleton × List Char) : Prop :=
  ∃ n, ∀ fuel ≥ n, readPatterns fuel k s = some out

def ReadsArguments (s : List Char) (out : List Skeleton × List Char) : Prop :=
  ∃ n, ∀ fuel ≥ n, readArguments fuel s = some out

def ReadsMore (s : List Char) (out : List Skeleton × List Char) : Prop :=
  ∃ n, ∀ fuel ≥ n, readMore fuel s = some out

section Steps

private theorem exists_fuel {P : ℕ → Prop} (n : ℕ) (h : ∀ fuel ≥ n, P (fuel + 1)) :
    ∃ n, ∀ fuel ≥ n, P fuel := by
  refine ⟨n + 1, fun fuel hf => ?_⟩
  cases fuel with
  | zero => omega
  | succ fuel => exact h fuel (by omega)

variable {m : ℕ} {k : Skeleton} {ks : List Skeleton} {s s' : List Char}
  {out : Skeleton × List Char}

theorem readsPatterns_nil (h : opening? patterns s = none) : ReadsPatterns k s (k, s) := by
  refine exists_fuel 0 fun fuel _ => ?_
  simp only [readPatterns, h]

theorem readsPatterns_cons {opening name : String} {argument : Skeleton} {s₁ s₂ s₃ : List Char}
    (ho : opening? patterns s = some (opening, s₁)) (ha : Reads 0 s₁ (argument, s₂))
    (hc : closing? patterns opening s₂ = some (name, s₃))
    (hp : ReadsPatterns (hoist name k [argument]) s₃ out) : ReadsPatterns k s out := by
  obtain ⟨a, ha⟩ := ha
  obtain ⟨p, hp⟩ := hp
  refine exists_fuel (a + p) fun fuel hf => ?_
  have ha := ha fuel (by omega)
  have hp := hp fuel (by omega)
  simp only [readPatterns, ho, ha, hc, hp, Option.bind_eq_bind, Option.bind_some]

theorem readsMore_nil (h : skip? ", ".toList s = none) : ReadsMore s ([], s) := by
  refine exists_fuel 0 fun fuel _ => ?_
  simp only [readMore, h]

theorem readsMore_cons {s₁ s₂ : List Char} (h : skip? ", ".toList s = some s₁)
    (hk : Reads 0 s₁ (k, s₂)) (hks : ReadsMore s₂ (ks, s')) : ReadsMore s (k :: ks, s') := by
  obtain ⟨a, hk⟩ := hk
  obtain ⟨b, hks⟩ := hks
  refine exists_fuel (a + b) fun fuel hf => ?_
  have hk := hk fuel (by omega)
  have hks := hks fuel (by omega)
  simp only [readMore, h, hk, hks, Option.bind_eq_bind, Option.bind_some, Option.pure_def]

theorem readsArguments_nil (h : s.head? = some ')') : ReadsArguments s ([], s) := by
  refine exists_fuel 0 fun fuel _ => ?_
  rw [readArguments, if_pos h]

theorem readsArguments_cons {s₁ : List Char} (h : s.head? ≠ some ')') (hk : Reads 0 s (k, s₁))
    (hks : ReadsMore s₁ (ks, s')) : ReadsArguments s (k :: ks, s') := by
  obtain ⟨a, hk⟩ := hk
  obtain ⟨b, hks⟩ := hks
  refine exists_fuel (a + b) fun fuel hf => ?_
  have hk := hk fuel (by omega)
  have hks := hks fuel (by omega)
  rw [readArguments, if_neg h]
  simp only [hk, hks, Option.bind_eq_bind, Option.bind_some, Option.pure_def]

theorem reads_binary {word : String} {left right : Skeleton} {s₁ s₂ s₃ : List Char}
    (hl : Reads 0 s (left, s₁)) (hw : word? s₁ = some (word, s₂))
    (hr : Reads 0 s₂ (right, ')' :: s₃))
    (hp : ReadsPatterns (nots m (.binary word left right)) s₃ out) : Reads m ('(' :: s) out := by
  obtain ⟨a, hl⟩ := hl
  obtain ⟨b, hr⟩ := hr
  obtain ⟨p, hp⟩ := hp
  refine exists_fuel (a + b + p) fun fuel hf => ?_
  have hl := hl fuel (by omega)
  have hr := hr fuel (by omega)
  have hp := hp fuel (by omega)
  rw [read, if_pos rfl]
  simp only [hl, hw, hr, hp, skip?, if_true, Option.bind_eq_bind, Option.bind_some]

theorem reads_hole {c : Char} (hc : c ∈ ['?', '@', '$'])
    (hp : ReadsPatterns (nots m .hole) (s.dropWhile isColumnChar) out) : Reads m (c :: s) out := by
  obtain ⟨p, hp⟩ := hp
  have hb : c ≠ '(' := by
    rintro rfl
    simp at hc
  refine exists_fuel p fun fuel hf => ?_
  rw [read, if_neg hb, if_pos hc, hp fuel (by omega)]

theorem takeWhile_word {p : Char → Bool} {w : List Char} (hw : ∀ c ∈ w, p c)
    (hs : ∀ c ∈ s.head?, ¬p c) : (w ++ s).takeWhile p = w := by
  rw [List.takeWhile_append_of_pos hw]
  cases s with
  | nil => simp
  | cons c s => simp [hs c rfl]

theorem dropWhile_word {p : Char → Bool} {w : List Char} (hw : ∀ c ∈ w, p c)
    (hs : ∀ c ∈ s.head?, ¬p c) : (w ++ s).dropWhile p = s := by
  rw [List.dropWhile_append_of_pos hw]
  cases s with
  | nil => rfl
  | cons c s => simp [hs c rfl]

theorem reads_word {w : List Char} (hn : w ≠ []) (hw : ∀ c ∈ w, isColumnChar c)
    (hs : ∀ c ∈ s.head?, ¬isColumnChar c) (h : ReadsWord m w s out) : Reads m (w ++ s) out := by
  obtain ⟨c, cs, rfl⟩ := List.exists_cons_of_ne_nil hn
  have hc : ∀ d ∈ ['(', '?', '@', '$'], c ≠ d := by
    rintro d hd rfl
    have hd' : ∀ d ∈ ['(', '?', '@', '$'], ¬isColumnChar d := by simp [isColumnChar]
    exact hd' c hd (hw c (by simp))
  have hb : c ≠ '(' := hc '(' (by simp)
  have hh : c ∉ ['?', '@', '$'] := fun h => hc c (.tail _ h) rfl
  have ht := takeWhile_word hw hs
  have hd := dropWhile_word hw hs
  obtain ⟨a, h⟩ := h
  refine exists_fuel a fun fuel hf => ?_
  rw [List.cons_append] at ht hd ⊢
  rw [read, if_neg hb, if_neg hh, if_pos (hw c (by simp)), ht, hd]
  exact h fuel (by omega)

/-- What can be read as an expression begins neither with a quote nor with a closing bracket. -/
theorem Reads.head (h : Reads m s out) : s.head? ≠ some '\'' ∧ s.head? ≠ some ')' := by
  obtain ⟨n, h⟩ := h
  have h := h (n + 1) (by omega)
  cases s with
  | nil => simp
  | cons c s =>
    constructor <;>
      · intro hc
        obtain rfl := Option.some.inj hc
        simp [read, isColumnChar] at h

theorem readsWord_not (h : Reads (m + 1) s out) : ReadsWord m "NOT".toList (' ' :: s) out := by
  obtain ⟨a, h⟩ := h
  refine exists_fuel a fun fuel hf => ?_
  rw [readWord, if_pos rfl]
  exact h fuel (by omega)

theorem readsWord_atom {w : List Char} (hw : w ≠ "NOT".toList)
    (ho : opening? (brackets.filter (·.word.toList = w)) s = none)
    (hp : ReadsPatterns (nots m (ofWord w)) s out) : ReadsWord m w s out := by
  obtain ⟨a, hp⟩ := hp
  refine exists_fuel a fun fuel hf => ?_
  rw [readWord, if_neg hw, ho]
  exact hp fuel (by omega)

theorem readsWord_call {w : List Char} {opening name : String} {s₁ s₂ s₃ : List Char}
    (hw : w ≠ "NOT".toList)
    (ho : opening? (brackets.filter (·.word.toList = w)) s = some (opening, s₁))
    (ha : ReadsArguments s₁ (ks, s₂))
    (hc : closing? (brackets.filter (·.word.toList = w)) opening s₂ = some (name, s₃))
    (hp : ReadsPatterns (nots m (.call name (Call.inEmissionOrder name ks))) s₃ out) :
    ReadsWord m w s out := by
  obtain ⟨a, ha⟩ := ha
  obtain ⟨b, hp⟩ := hp
  refine exists_fuel (a + b) fun fuel hf => ?_
  have ha := ha fuel (by omega)
  have hp := hp fuel (by omega)
  rw [readWord, if_neg hw, ho]
  simp only [ha, hc, hp, Option.bind_eq_bind, Option.bind_some]

end Steps

end FilterClause.Skeleton
