import FilterClause.Json.Reading
import FilterClause.Proofs.Json.Token
import Mathlib.Data.List.Forall2

/-!
# Scanning what was written

A text that consists of the tokens of a value, with blanks between them, is scanned to the document
that the tokens show, and what is left consists of the tokens that follow. So a reader of a whole
text sees that document, whatever the blanks. The tokens of a well-formed value show the document of
the value.
-/

namespace FilterClause.Json

theorem hexCode?_control {n : ℕ} (h : n < 0x20) :
    hexCode? '0' '0' (Digit.hexChar 'a' (n / 16)) (Digit.hexChar 'a' (n % 16)) = some n := by
  have hzero : hexValue? '0' = some 0 := by decide
  have hn : ((0 * 16 + 0) * 16 + n / 16) * 16 + n % 16 = n := by omega
  rw [hexCode?, hzero, hexValue?_hexChar (.inl rfl) (by omega),
    hexValue?_hexChar (.inl rfl) (by omega)]
  exact congrArg some hn

/-- What stands between the quotes of a string, and the units that it spells. Any character may be
given by number and some by a letter; control characters, quotes and backslashes have to be. -/
inductive Spells : List Char → List StringUnit → Prop where
  | nil : Spells [] []
  | plain {body units} (c) (hcontrol : ¬c.toNat < 0x20) (hquote : c ≠ '"') (hslash : c ≠ '\\')
    (h : Spells body units) : Spells (c :: body) (.char c :: units)
  | letter {body units} (l c) (hl : unescape? l = some c) (h : Spells body units) :
    Spells ('\\' :: l :: body) (.char c :: units)
  | code {body units} (a b c d n) (hn : hexCode? a b c d = some n) (h : Spells body units) :
    Spells ('\\' :: 'u' :: a :: b :: c :: d :: body) (.code n :: units)

/-- A string is scanned up to its closing quote. -/
theorem Spells.scanString_append {body : List Char} {units : List StringUnit}
    (h : Spells body units) (rest : List Char) :
    scanString (body ++ '"' :: rest) = ⟨units, none, rest⟩ := by
  induction h with
  | nil => simp [scanString]
  | plain c hcontrol hquote hslash h ih =>
    rw [List.cons_append, scanString, if_neg hcontrol, ih]
    · rfl
    all_goals simp_all
  | letter l c hl h ih =>
    have hu : l ≠ 'u' := by
      rintro rfl
      cases hl
    rw [List.cons_append, List.cons_append, scanString]
    · simp [hl, ih, StringScan.push]
    all_goals simp [hu]
  | code a b c d n hn h ih =>
    simp only [List.cons_append]
    rw [scanString, hn, ih]
    rfl

/-- Each character is written as one unit, which denotes it. -/
theorem exists_unit_escape (c : Char) :
    ∃ unit, (∀ body units, Spells body units → Spells (escape c ++ body) (unit :: units)) ∧
      ∀ fault units,
        decodeUnits fault (unit :: units) = (decodeUnits fault units).map (c :: ·) := by
  unfold escape
  split
  iterate 7 exact ⟨.char _, fun _ _ h => .letter _ _ rfl h, fun _ _ => rfl⟩
  · next hquote hslash _ _ _ _ _ =>
    split
    · next hc =>
      refine ⟨.code c.toNat, fun _ _ h => .code _ _ _ _ _ (hexCode?_control hc) h,
        fun fault units => ?_⟩
      have hlead : isLead c.toNat = false := decide_eq_false (by omega)
      have htrail : isTrail c.toNat = false := decide_eq_false (by omega)
      rw [decodeUnits.eq_def]
      simp [hlead, htrail]
    · next hc => exact ⟨.char c, fun _ _ h => .plain c hc hquote hslash h, fun _ _ => rfl⟩

/-- The token with this between its quotes. -/
def quoted (body : List Char) : List Char := '"' :: (body ++ ['"'])

/-- The token is a string that denotes this. -/
def Writes (token : List Char) (content : String) : Prop :=
  ∃ body units, Spells body units ∧ decodeUnits none units = .ok content.toList ∧
    token = quoted body

theorem writes_stringChars (content : String) : Writes (stringChars content) content := by
  have hspells (s : List Char) :
      ∃ units, Spells (s.flatMap escape) units ∧ decodeUnits none units = .ok s := by
    induction s with
    | nil => exact ⟨[], .nil, rfl⟩
    | cons c s ih =>
      obtain ⟨units, hunits, hdecode⟩ := ih
      obtain ⟨unit, hunit, hvalue⟩ := exists_unit_escape c
      exact ⟨unit :: units, hunit _ _ hunits, by rw [hvalue, hdecode]; rfl⟩
  obtain ⟨units, hunits, hdecode⟩ := hspells content.toList
  exact ⟨_, units, hunits, hdecode, rfl⟩

theorem expect_append (letters s : List Char) : expect letters (letters ++ s) = .ok s := by
  induction letters with
  | nil => rfl
  | cons c letters ih => rw [List.cons_append, expect, if_pos rfl, ih]

theorem scanWord_append (word : Word) (letters s : List Char) :
    scanWord word letters (letters ++ s) = ⟨.word word none, s⟩ := by
  rw [scanWord, expect_append]

/-- At the front of a padded text below the bound, `part` finds the part and leaves the tokens after
it. -/
def Finds {α : Type} (part : List Char → α × Option Fault × List Char) (bound : ℕ) (value : α)
    (tokens : List (List Char)) : Prop :=
  ∀ ⦃following s⦄, Follows following → Padded (tokens ++ following) s → s.length < bound →
    ∃ s', part s = (value, none, s') ∧ Padded following s' ∧ s'.length < s.length

section

variable {α : Type} {part : List Char → α × Option Fault × List Char} {bound : ℕ} {close : Char}
  {values : List α} {parts : List (List (List Char))}

theorem scanParts_tokens (hclose : close = ']' ∨ close = '}')
    (hparts : List.Forall₂ (Finds part bound) values parts) (hne : parts ≠ []) {count : ℕ}
    {following : List (List Char)} {s : List Char}
    (h : Padded (commaTokens parts ++ [close] :: following) s)
    (hcount : s.length < count) (hbound : s.length < bound) :
    ∃ s', scanParts close part count s = ⟨values, none, s'⟩ ∧ Padded following s' ∧
      s'.length < s.length := by
  have hdelim : IsDelimiter close := .inr hclose
  have hcomma : close ≠ ',' := by rcases hclose with rfl | rfl <;> decide
  induction hparts generalizing count s with
  | nil => exact absurd rfl hne
  | @cons value p values parts hp hparts ih =>
    obtain ⟨count, rfl⟩ : ∃ n, count = n + 1 := Nat.exists_eq_add_one.mpr (by omega)
    cases hparts with
    | nil =>
      obtain ⟨s₁, hs₁, hpad₁, hlen₁⟩ := hp (follows_cons hdelim _) h hbound
      obtain ⟨s₂, hs₂, hpad₂, hlen₂⟩ := hpad₁.skipSpace hdelim.not_isSpace
      refine ⟨s₂, ?_, hpad₂, by omega⟩
      rw [scanParts, hs₁]
      simp [hs₂, hcomma]
    | @cons _ next _ parts =>
      have h : Padded (p ++ [','] :: (commaTokens (next :: parts) ++ [close] :: following)) s := by
        simpa [commaTokens] using h
      obtain ⟨s₁, hs₁, hpad₁, hlen₁⟩ := hp (follows_cons (.inl rfl) _) h hbound
      obtain ⟨s₂, hs₂, hpad₂, hlen₂⟩ := hpad₁.skipSpace (by decide)
      obtain ⟨s₃, hs₃, hpad₃, hlen₃⟩ := ih (List.cons_ne_nil _ _) hpad₂
        (show s₂.length < count by omega) (by omega)
      refine ⟨s₃, ?_, hpad₃, by omega⟩
      rw [scanParts, hs₁]
      simp [hs₂, hs₃, PartsScan.push]

/-- The first token begins with a character that is no blank and closes nothing. -/
def Opens (close : Char) (tokens : List (List Char)) : Prop :=
  ∃ c t rest, tokens = (c :: t) :: rest ∧ ¬isSpace c ∧ c ≠ close

theorem scanContainer_tokens (hclose : close = ']' ∨ close = '}')
    (hparts : List.Forall₂ (fun value p => Opens close p ∧ Finds part bound value p) values parts)
    {following : List (List Char)} {s : List Char}
    (h : Padded (commaTokens parts ++ [close] :: following) s) (hbound : s.length < bound) :
    ∃ s', scanContainer close part (bound + 1) s = ⟨values, none, s'⟩ ∧
      Padded following s' ∧ s'.length < s.length := by
  have hdelim : IsDelimiter close := .inr hclose
  have hfinds := hparts.imp fun _ _ hp => hp.2
  cases hparts with
  | nil =>
    obtain ⟨s₁, hs₁, hpad₁, hlen₁⟩ := h.skipSpace hdelim.not_isSpace
    refine ⟨s₁, ?_, hpad₁, by omega⟩
    simp [scanContainer, hs₁]
  | @cons _ p _ parts hp _ =>
    obtain ⟨c, t, rest, htokens, hspace, hc⟩ := hp.1
    obtain ⟨rest', hrest⟩ : ∃ rest',
        commaTokens (p :: parts) ++ [close] :: following = (c :: t) :: rest' := by
      cases parts <;> simp [commaTokens, htokens]
    obtain ⟨s₁, hs₁, hpad₁, hlen₁⟩ := (hrest ▸ h).skipSpace hspace
    have hpad : Padded (commaTokens (p :: parts) ++ [close] :: following) (c :: t ++ s₁) :=
      hrest ▸ hpad₁.token (c :: t)
    have hlen : (c :: t ++ s₁).length ≤ s.length := by
      simp only [List.cons_append, List.length_cons, List.length_append]
      omega
    obtain ⟨s₂, hs₂, hpad₂, hlen₂⟩ := scanParts_tokens hclose hfinds (List.cons_ne_nil _ _) hpad
      (show (c :: t ++ s₁).length < bound + 1 by omega) (by omega)
    refine ⟨s₂, ?_, hpad₂, by omega⟩
    rw [scanContainer, hs₁]
    simp only [List.cons_append]
    rw [if_neg hc]
    exact hs₂

end

/-- At the front of a padded text that is shorter than the fuel, the document, which is whole, is
found and the tokens after it are left. -/
structure Shows (doc : Document) (tokens : List (List Char)) : Prop where
  fault_eq_none : doc.fault = none
  opens : Opens ']' tokens
  finds : ∀ fuel, Finds (scanItem (scanValue fuel)) fuel doc tokens

theorem not_isSpace_of_number {c : Char} (h : c = '-' ∨ c.isDigit) : ¬isSpace c := by
  intro hs
  simp only [isSpace, Bool.or_eq_true, decide_eq_true_eq] at hs
  rcases hs with ((rfl | rfl) | rfl) | rfl <;> revert h <;> decide

/-- A document is found, if it is scanned from its first token on. -/
theorem shows_of_first {doc : Document} {c : Char} {t : List Char} {rest : List (List Char)}
    (hfault : doc.fault = none) (hspace : ¬isSpace c) (hclose : c ≠ ']')
    (h : ∀ ⦃fuel following s s₁⦄, Follows following → Padded (rest ++ following) s₁ →
      s₁.length < fuel → skipSpace s = c :: (t ++ s₁) →
      ∃ s', scanValue (fuel + 1) s = ⟨doc, s'⟩ ∧ Padded following s' ∧ s'.length ≤ s₁.length) :
    Shows doc ((c :: t) :: rest) where
  fault_eq_none := hfault
  opens := ⟨c, t, rest, rfl, hspace, hclose⟩
  finds := by
    intro fuel following s hf hpad hlen
    obtain ⟨fuel, rfl⟩ : ∃ k, fuel = k + 1 := Nat.exists_eq_add_one.mpr (by omega)
    obtain ⟨s₁, hs₁, hpad₁, hlen₁⟩ := hpad.skipSpace hspace
    obtain ⟨s', hs', hpad', hlen'⟩ := h hf hpad₁ (show s₁.length < fuel by omega) hs₁
    refine ⟨s', ?_, hpad', by omega⟩
    rw [scanItem, hs', hfault]

theorem shows_number {n : Numeral} (hn : n.IsWellFormed) {token : List Char}
    (ht : token ∈ n.spellings) : Shows (.number (.ok n)) [token] := by
  obtain ⟨c, t, rfl, hc⟩ := head_of_mem_spellings hn ht
  refine shows_of_first rfl (not_isSpace_of_number hc) (by rintro rfl; revert hc; decide) ?_
  intro fuel following s s₁ hf hpad hlen hs
  refine ⟨s₁, ?_, hpad, le_rfl⟩
  have hscan := scanNumeral_of_mem hn ht (hf.ends hpad)
  rw [List.cons_append] at hscan
  rw [scanValue, hs]
  simp only
  split
  iterate 6 exact absurd hc (by decide)
  · rw [if_pos hc, hscan]

theorem shows_word {word : Word} {c : Char} {letters : List Char} (hspace : ¬isSpace c)
    (hclose : c ≠ ']') (h : ∀ fuel s s₁, skipSpace s = c :: (letters ++ s₁) →
      scanValue (fuel + 1) s = scanWord word letters (letters ++ s₁)) :
    Shows (.word word none) [c :: letters] := by
  refine shows_of_first rfl hspace hclose ?_
  intro fuel following s s₁ _ hpad _ hs
  exact ⟨s₁, (h fuel s s₁ hs).trans (scanWord_append word letters s₁), hpad, le_rfl⟩

theorem shows_null : Shows (.word .null none) ["null".toList] :=
  shows_word (by decide) (by decide) fun _ _ _ hs => by rw [scanValue, hs]; rfl

theorem shows_bool (b : Bool) : Shows (.ofJson (.bool b)) (tokens (.bool b)) := by
  cases b <;> exact shows_word (by decide) (by decide) fun _ _ _ hs => by rw [scanValue, hs]; rfl

theorem shows_string {body : List Char} {units : List StringUnit} (h : Spells body units) :
    Shows (.string ((decodeUnits none units).map String.ofList) none) [quoted body] := by
  refine shows_of_first rfl (by decide) (by decide) ?_
  intro fuel following s s₁ _ hpad _ hs
  refine ⟨s₁, ?_, hpad, le_rfl⟩
  rw [List.append_assoc, List.singleton_append] at hs
  rw [scanValue, hs]
  simp only [h.scanString_append]
  rfl

theorem Writes.shows {token : List Char} {content : String} (h : Writes token content) :
    Shows (.string (.ok content) none) [token] := by
  obtain ⟨body, units, hspells, hdecode, rfl⟩ := h
  have hshows := shows_string hspells
  rwa [hdecode, Except.map, String.ofList_toList] at hshows

theorem shows_array {items : List Document} {parts : List (List (List Char))}
    (h : List.Forall₂ Shows items parts) :
    Shows (.array items none) (['['] :: (commaTokens parts ++ [[']']])) := by
  refine shows_of_first rfl (by decide) (by decide) ?_
  intro fuel following s s₁ _ hpad hlen hs
  rw [List.append_assoc] at hpad
  obtain ⟨s₂, hs₂, hpad₂, hlen₂⟩ :=
    scanContainer_tokens (.inl rfl) (h.imp fun _ _ hp => ⟨hp.opens, hp.finds fuel⟩) hpad hlen
  refine ⟨s₂, ?_, hpad₂, hlen₂.le⟩
  rw [scanValue, hs]
  simp only [List.nil_append, hs₂]

/-- A member is shown by its key, a colon and its value. -/
inductive ShowsMember : Except Fault String × Document → List (List Char) → Prop where
  | intro {body units doc tokens} (hkey : Spells body units) (hvalue : Shows doc tokens) :
    ShowsMember ((decodeUnits none units).map String.ofList, doc) (quoted body :: [':'] :: tokens)

theorem ShowsMember.opens {member : Except Fault String × Document} {tokens : List (List Char)}
    (h : ShowsMember member tokens) : Opens '}' tokens := by
  cases h
  exact ⟨_, _, _, rfl, by decide, by decide⟩

theorem ShowsMember.finds {member : Except Fault String × Document} {tokens : List (List Char)}
    (h : ShowsMember member tokens) (fuel : ℕ) :
    Finds (scanMember (scanValue fuel)) fuel member tokens := by
  obtain @⟨body, units, doc, tokens, hkey, hvalue⟩ := h
  intro following s hf h hlen
  simp only [quoted, List.cons_append] at h
  obtain ⟨s₁, hs₁, hpad₁, hlen₁⟩ := h.skipSpace (by decide)
  obtain ⟨s₂, hs₂, hpad₂, hlen₂⟩ := hpad₁.skipSpace (by decide)
  obtain ⟨s₃, hs₃, hpad₃, hlen₃⟩ := hvalue.finds fuel hf hpad₂ (by omega)
  refine ⟨s₃, ?_, hpad₃, by omega⟩
  rw [List.cons_append, List.append_assoc, List.singleton_append] at hs₁
  rw [scanItem] at hs₃
  rw [scanMember, hs₁]
  simp only [hkey.scanString_append, hs₂, List.singleton_append]
  rw [if_pos trivial]
  obtain ⟨hdoc, hfault, hrest⟩ : (scanValue fuel s₂).document = doc ∧
      (scanValue fuel s₂).document.fault = none ∧ (scanValue fuel s₂).rest = s₃ := by
    simpa using hs₃
  rw [hfault, hdoc, hrest]
  rfl

theorem Writes.showsMember {token : List Char} {name : String} (h : Writes token name)
    {doc : Document} {tokens : List (List Char)} (hvalue : Shows doc tokens) :
    ShowsMember (.ok name, doc) (token :: [':'] :: tokens) := by
  obtain ⟨body, units, hspells, hdecode, rfl⟩ := h
  have hmember := ShowsMember.intro hspells hvalue
  rwa [hdecode, Except.map, String.ofList_toList] at hmember

theorem shows_object {members : List (Except Fault String × Document)}
    {parts : List (List (List Char))} (h : List.Forall₂ ShowsMember members parts) :
    Shows (.object members none) (['{'] :: (commaTokens parts ++ [['}']])) := by
  refine shows_of_first rfl (by decide) (by decide) ?_
  intro fuel following s s₁ _ hpad hlen hs
  rw [List.append_assoc] at hpad
  obtain ⟨s₂, hs₂, hpad₂, hlen₂⟩ :=
    scanContainer_tokens (.inr rfl) (h.imp fun _ _ hp => ⟨hp.opens, hp.finds fuel⟩) hpad hlen
  refine ⟨s₂, ?_, hpad₂, hlen₂.le⟩
  rw [scanValue, hs]
  simp only [List.nil_append, hs₂]

/-- The tokens of a well-formed value show its document. -/
theorem shows_ofJson {j : Json} (hj : j.IsWellFormed) : Shows (.ofJson j) j.tokens := by
  induction hj with
  | null => exact shows_null
  | bool b => exact shows_bool b
  | number n hn => exact shows_number hn n.chars_mem_spellings
  | string content => exact (writes_stringChars content).shows
  | array items _ ih =>
    rw [Document.ofJson, tokens, Document.ofItems_eq_map, itemTokens_eq_map]
    refine shows_array ?_
    simpa [List.forall₂_map_left_iff, List.forall₂_map_right_iff, List.forall₂_same] using ih
  | object members _ ih =>
    rw [Document.ofJson, tokens, Document.ofMembers_eq_map, memberTokens_eq_map]
    refine shows_object ?_
    rw [List.forall₂_map_left_iff, List.forall₂_map_right_iff, List.forall₂_same]
    exact fun m hm => (writes_stringChars m.1).showsMember (ih m hm)

/-- A text of the tokens that show a document is read as that document. -/
theorem readText_of_shows {α : Type} (read : Reader α) {doc : Document}
    {tokens : List (List Char)} (h : Shows doc tokens) {text : String}
    (hpad : Padded tokens text.toList) : readText read text = read nestingLimit doc := by
  obtain ⟨s, hs, hrest, -⟩ := h.finds (text.toList.length + 1)
    (show Follows [] by simp [Follows]) (by rwa [List.append_nil]) (Nat.lt_succ_self _)
  obtain ⟨hdoc, -, hs⟩ : (scanText text.toList).document = doc ∧
      (scanText text.toList).document.fault = none ∧ (scanText text.toList).rest = s := by
    simpa [scanItem, scanText] using hs
  rw [readText, hdoc, hs, hrest.skipSpace_eq_nil]
  cases read nestingLimit doc <;> rfl

theorem readText_compact {α : Type} (read : Reader α) {j : Json} (hj : j.IsWellFormed) :
    readText read j.compact = read nestingLimit (.ofJson j) := by
  refine readText_of_shows read (shows_ofJson hj) ?_
  rw [compact, String.toList_ofList, ← flatten_tokens]
  exact padded_flatten _

end FilterClause.Json
