import FilterClause.Json.Scan
import FilterClause.Proofs.Json.Numeral

/-!
# Tokens of JSON texts

A JSON value is written as a sequence of tokens. Its compact text has nothing between them; a text
with blanks around and between the tokens is a `Padded` sequence of them, and so is what is left of
such a text after some of its tokens.
-/

namespace FilterClause.Json

/-- All numerals of the value are well formed. -/
inductive IsWellFormed : Json → Prop where
  | null : IsWellFormed .null
  | bool (b) : IsWellFormed (.bool b)
  | number (n) (h : n.IsWellFormed) : IsWellFormed (.number n)
  | string (s) : IsWellFormed (.string s)
  | array (items) (h : ∀ item ∈ items, IsWellFormed item) : IsWellFormed (.array items)
  | object (members) (h : ∀ member ∈ members, IsWellFormed member.2) :
    IsWellFormed (.object members)

@[elab_as_elim, induction_eliminator]
theorem induction {motive : Json → Prop} (null : motive .null) (bool : ∀ b, motive (.bool b))
    (number : ∀ n, motive (.number n)) (string : ∀ s, motive (.string s))
    (array : ∀ items, (∀ item ∈ items, motive item) → motive (.array items))
    (object : ∀ members, (∀ member ∈ members, motive member.2) → motive (.object members))
    (j : Json) : motive j := by
  refine @Json.rec motive (fun items => ∀ item ∈ items, motive item)
    (fun members => ∀ member ∈ members, motive member.2) (fun member => motive member.2)
    null bool number string array object (by simp) ?_ (by simp) ?_ (fun _ _ h => h) j
  · intro item items hitem hitems
    simpa using ⟨hitem, hitems⟩
  · intro member members hmember hmembers
    simpa using ⟨hmember, fun name value h => hmembers (name, value) h⟩

theorem itemChars_eq_map (items : List Json) : itemChars items = items.map chars := by
  induction items with
  | nil => rfl
  | cons item items ih => rw [itemChars, ih, List.map_cons]

theorem memberChars_eq_map (members : List (String × Json)) :
    memberChars members = members.map fun m => stringChars m.1 ++ ':' :: m.2.chars := by
  induction members with
  | nil => rfl
  | cons member members ih => rw [memberChars, ih, List.map_cons]

namespace Document

theorem ofItems_eq_map (items : List Json) : ofItems items = items.map ofJson := by
  induction items with
  | nil => rfl
  | cons item items ih => rw [ofItems, ih, List.map_cons]

theorem ofMembers_eq_map (members : List (String × Json)) :
    ofMembers members = members.map fun m => (.ok m.1, ofJson m.2) := by
  induction members with
  | nil => rfl
  | cons member members ih => rw [ofMembers, ih, List.map_cons]

end Document

/-- The tokens of parts with a comma between each two of them. -/
def commaTokens : List (List (List Char)) → List (List Char)
  | [] => []
  | [part] => part
  | part :: parts => part ++ [','] :: commaTokens parts

mutual

def tokens : Json → List (List Char)
  | .null => ["null".toList]
  | .bool true => ["true".toList]
  | .bool false => ["false".toList]
  | .number n => [n.chars]
  | .string s => [stringChars s]
  | .array items => ['['] :: commaTokens (itemTokens items) ++ [[']']]
  | .object members => ['{'] :: commaTokens (memberTokens members) ++ [['}']]

def itemTokens : List Json → List (List (List Char))
  | [] => []
  | item :: items => item.tokens :: itemTokens items

def memberTokens : List (String × Json) → List (List (List Char))
  | [] => []
  | (name, value) :: members => (stringChars name :: [':'] :: value.tokens) :: memberTokens members

end

theorem itemTokens_eq_map (items : List Json) : itemTokens items = items.map tokens := by
  induction items with
  | nil => rfl
  | cons item items ih => rw [itemTokens, ih, List.map_cons]

theorem memberTokens_eq_map (members : List (String × Json)) :
    memberTokens members = members.map fun m => stringChars m.1 :: [':'] :: m.2.tokens := by
  induction members with
  | nil => rfl
  | cons member members ih => rw [memberTokens, ih, List.map_cons]

theorem flatten_commaTokens (parts : List (List (List Char))) :
    (commaTokens parts).flatten = commaSeparated (parts.map List.flatten) := by
  induction parts with
  | nil => rfl
  | cons part parts ih =>
    cases parts with
    | nil => rfl
    | cons next parts => simp [commaTokens, commaSeparated, ih]

/-- The compact text has nothing between the tokens. -/
theorem flatten_tokens (j : Json) : j.tokens.flatten = j.chars := by
  induction j with
  | null | number _ | string _ => simp [tokens, chars]
  | bool b => cases b <;> simp [tokens, chars]
  | array items ih =>
    have h : items.map (List.flatten ∘ tokens) = items.map chars := List.map_congr_left ih
    simp [tokens, chars, flatten_commaTokens, itemTokens_eq_map, itemChars_eq_map, h]
  | object members ih =>
    have h : members.map (List.flatten ∘ fun m => stringChars m.1 :: [':'] :: m.2.tokens) =
        members.map fun m => stringChars m.1 ++ ':' :: m.2.chars :=
      List.map_congr_left fun m hm => by simp [ih m hm]
    simp [tokens, chars, flatten_commaTokens, memberTokens_eq_map, memberChars_eq_map, h]

/-- The number of open brackets and braces after a token. -/
def openAfter (n : ℕ) (token : List Char) : ℕ :=
  if token = ['['] ∨ token = ['{'] then n + 1
  else if token = [']'] ∨ token = ['}'] then n - 1
  else n

/-- The largest number of brackets and braces that are open at once, if `n` are open before. -/
def nesting : ℕ → List (List Char) → ℕ
  | n, [] => n
  | n, token :: tokens => max n (nesting (openAfter n token) tokens)

/-- The tokens open `d` brackets at once, and close them all. -/
def Nests (d : ℕ) (tokens : List (List Char)) : Prop :=
  ∀ n following, nesting n (tokens ++ following) = max (n + d) (nesting n following)

theorem le_nesting (n : ℕ) (tokens : List (List Char)) : n ≤ nesting n tokens := by
  cases tokens with
  | nil => exact le_rfl
  | cons token tokens => exact Nat.le_max_left _ _

theorem openAfter_of_ne {c : Char} (h : c ∉ ['[', '{', ']', '}']) (n : ℕ) (t : List Char) :
    openAfter n (c :: t) = n := by
  simp only [List.mem_cons, List.not_mem_nil, or_false, not_or] at h
  simp [openAfter, h]

theorem Nests.cons {d : ℕ} {tokens : List (List Char)} (h : Nests d tokens) {c : Char}
    (hc : c ∉ ['[', '{', ']', '}']) (t : List Char) : Nests d ((c :: t) :: tokens) := by
  intro n following
  rw [List.cons_append, nesting, openAfter_of_ne hc, h, ← Nat.max_assoc,
    Nat.max_eq_right (Nat.le_add_right n d)]

theorem nests_nil : Nests 0 [] := by
  intro n following
  rw [List.nil_append, Nat.add_zero, Nat.max_eq_right (le_nesting n following)]

theorem nests_commaTokens {α : Type} {parts : List α} {write : α → List (List Char)} {d : α → ℕ}
    (h : ∀ p ∈ parts, Nests (d p) (write p)) :
    Nests ((parts.map d).foldr max 0) (commaTokens (parts.map write)) := by
  induction parts with
  | nil => exact nests_nil
  | cons p parts ih =>
    have hp := h p List.mem_cons_self
    have hparts := ih fun q hq => h q (List.mem_cons_of_mem _ hq)
    cases parts with
    | nil => simpa [commaTokens] using hp
    | cons q parts =>
      intro n following
      have hcomma := hparts.cons (c := ',') (by decide) [] n following
      change nesting n ((write p ++ [','] :: commaTokens ((q :: parts).map write)) ++ following) = _
      rw [List.append_assoc, hp, hcomma, ← Nat.max_assoc, Nat.add_max_add_left]
      rfl

/-- Between a bracket and its counterpart one more is open. -/
theorem Nests.between {d : ℕ} {tokens : List (List Char)} (h : Nests d tokens)
    {opening closing : List Char} (ho : opening = ['['] ∨ opening = ['{'])
    (hc : closing = [']'] ∨ closing = ['}']) :
    Nests (d + 1) (opening :: tokens ++ [closing]) := by
  have hopen (n : ℕ) : openAfter n opening = n + 1 := if_pos ho
  have hclose (n : ℕ) : openAfter (n + 1) closing = n := by
    rcases hc with rfl | rfl <;> simp [openAfter]
  intro n following
  rw [List.cons_append, List.cons_append, nesting, hopen, List.append_assoc, h,
    List.singleton_append, nesting, hclose]
  omega

theorem itemDepth_le_iff {items : List Json} {n : ℕ} :
    itemDepth items ≤ n ↔ ∀ j ∈ items, j.depth ≤ n := by
  induction items with
  | nil => simp [itemDepth]
  | cons item items ih => rw [itemDepth, Nat.max_le, ih, List.forall_mem_cons]

theorem itemDepth_eq_foldr (items : List Json) :
    itemDepth items = (items.map depth).foldr max 0 := by
  induction items with
  | nil => rfl
  | cons item items ih => rw [itemDepth, ih, List.map_cons, List.foldr_cons]

theorem memberDepth_eq_foldr (members : List (String × Json)) :
    memberDepth members = (members.map fun m => m.2.depth).foldr max 0 := by
  induction members with
  | nil => rfl
  | cons member members ih => rw [memberDepth, ih, List.map_cons, List.foldr_cons]

theorem nests_tokens {j : Json} (hj : j.IsWellFormed) : Nests j.depth j.tokens := by
  induction hj with
  | null => exact nests_nil.cons (by decide) _
  | bool b => cases b <;> exact nests_nil.cons (by decide) _
  | number n hn =>
    obtain ⟨c, t, ht, hc⟩ := head_chars hn
    rw [tokens, ht]
    refine nests_nil.cons ?_ t
    intro hm
    simp only [List.mem_cons, List.not_mem_nil, or_false] at hm
    rcases hm with rfl | rfl | rfl | rfl <;> revert hc <;> decide
  | string s => exact nests_nil.cons (by decide) _
  | array items _ ih =>
    rw [tokens, depth, itemTokens_eq_map, itemDepth_eq_foldr]
    exact (nests_commaTokens ih).between (.inl rfl) (.inl rfl)
  | object members _ ih =>
    rw [tokens, depth, memberTokens_eq_map, memberDepth_eq_foldr]
    refine (nests_commaTokens fun m hm => ?_).between (.inr rfl) (.inr rfl)
    exact ((ih m hm).cons (by decide) []).cons (by decide) _

/-- The depth of a value is the largest number of brackets and braces that are open at once in its
text; those in strings do not count. -/
theorem nesting_tokens {j : Json} (hj : j.IsWellFormed) : nesting 0 j.tokens = j.depth := by
  have h := nests_tokens hj 0 []
  rw [List.append_nil, Nat.zero_add] at h
  rw [h, nesting, Nat.max_zero]

/-- The text consists of the tokens, with blanks anywhere around them. -/
inductive Padded : List (List Char) → List Char → Prop where
  | nil : Padded [] []
  | blank {tokens s} (c) (hc : isSpace c) (h : Padded tokens s) : Padded tokens (c :: s)
  | token {tokens s} (t) (h : Padded tokens s) : Padded (t :: tokens) (t ++ s)

theorem padded_flatten (tokens : List (List Char)) : Padded tokens tokens.flatten := by
  induction tokens with
  | nil => exact .nil
  | cons t tokens ih => exact ih.token t

theorem Padded.skipSpace_eq_nil {s : List Char} (h : Padded [] s) : skipSpace s = [] := by
  generalize htokens : ([] : List (List Char)) = tokens at h
  induction h with
  | nil => rfl
  | blank c hc h ih =>
    rw [skipSpace, List.dropWhile_cons_of_pos hc]
    exact ih htokens
  | token => cases htokens

/-- Blanks are skipped up to the next token. -/
theorem Padded.skipSpace {c : Char} {t : List Char} {tokens : List (List Char)} {s : List Char}
    (h : Padded ((c :: t) :: tokens) s) (hc : ¬isSpace c) :
    ∃ s', skipSpace s = c :: t ++ s' ∧ Padded tokens s' ∧ s'.length + t.length < s.length := by
  generalize htokens : (c :: t) :: tokens = all at h
  induction h with
  | nil => cases htokens
  | blank b hb h ih =>
    obtain ⟨s', hs, hp, hl⟩ := ih htokens
    refine ⟨s', ?_, hp, ?_⟩
    · rw [Json.skipSpace, List.dropWhile_cons_of_pos hb]
      exact hs
    · rw [List.length_cons]
      omega
  | token t h ih =>
    cases htokens
    refine ⟨_, ?_, h, ?_⟩
    · rw [Json.skipSpace, List.cons_append, List.dropWhile_cons_of_neg hc]
    · simp only [List.cons_append, List.length_cons, List.length_append]
      omega

/-- The characters that go between the parts of a value or close it. -/
def IsDelimiter (c : Char) : Prop := c = ',' ∨ c = ']' ∨ c = '}'

theorem IsDelimiter.not_isSpace {c : Char} (h : IsDelimiter c) : ¬isSpace c := by
  rcases h with rfl | rfl | rfl <;> decide

/-- The tokens after a value: none, or first a comma or a closing character. -/
def Follows (tokens : List (List Char)) : Prop := ∀ t ∈ tokens.head?, ∃ c, IsDelimiter c ∧ t = [c]

theorem follows_cons {c : Char} (hc : IsDelimiter c) (tokens : List (List Char)) :
    Follows ([c] :: tokens) := by
  intro t ht
  cases ht
  exact ⟨c, hc, rfl⟩

/-- No numeral goes on into the tokens after it. -/
theorem Follows.ends {tokens : List (List Char)} {s : List Char} (hf : Follows tokens)
    (h : Padded tokens s) : Numeral.Ends s := by
  intro c hc
  cases h with
  | nil => cases hc
  | blank b hb h =>
    cases hc
    simp only [isSpace, Bool.or_eq_true, decide_eq_true_eq] at hb
    rcases hb with ((rfl | rfl) | rfl) | rfl <;> decide
  | token t h =>
    obtain ⟨d, hd, rfl⟩ := hf _ rfl
    cases hc
    rcases hd with rfl | rfl | rfl <;> decide

end FilterClause.Json
