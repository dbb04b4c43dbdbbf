import FilterClause.Json.Scan
import FilterClause.Proofs.Calendar.Date
import FilterClause.Value
import Mathlib.Data.List.TakeWhile
import Mathlib.Tactic.SplitIfs
import Mathlib.Logic.Function.Basic

/-!
# Inline literals read back

The reader of a literal looks at its text alone. The literal of a text ends at the first quote that
is not one of two in a row, that of bytes after the last hexadecimal digit. Both readers stop right
after what was written, whatever the text or the bytes, so nothing in a text ends its literal early
and different texts, and different bytes, have different literals. Quotes are all that is escaped in
a text: its line breaks stay in the literal, and no literal has others.
-/

namespace FilterClause

theorem Digit.newline_notMem_map_char (digits : List Digit) : '\n' ∉ digits.map Digit.char := by
  have h : ∀ d : Digit, d.char ≠ '\n' := by decide
  intro hm
  obtain ⟨d, -, hd⟩ := List.mem_map.mp hm
  exact h d hd

theorem Calendar.newline_notMem_padded (width n : ℕ) : '\n' ∉ padded width n := by
  obtain ⟨digits, h, -⟩ := padded_eq width n
  rw [h]
  exact Digit.newline_notMem_map_char digits

theorem Date.newline_notMem_chars (d : Date) : '\n' ∉ d.chars := by
  have hyear : '\n' ∉ yearText d.year := by
    unfold yearText
    split_ifs <;> simp [Calendar.newline_notMem_padded]
  simp [chars, hyear, Calendar.newline_notMem_padded]

theorem Timestamp.newline_notMem_chars (zero : ZeroOffset) (t : Timestamp) :
    '\n' ∉ t.chars zero := by
  have hpadded := Calendar.newline_notMem_padded
  have hfraction (n : ℕ) : '\n' ∉ fractionChars n := by
    unfold fractionChars
    split_ifs <;> simp [hpadded]
  have hoffset : '\n' ∉ offsetChars zero t.offset := by
    unfold offsetChars
    split_ifs <;> simp [hpadded]
  simp [chars, timeChars, t.date.newline_notMem_chars, hpadded, hfraction, hoffset]

namespace Value

/-- The line breaks in what a value holds. Only texts hold any. -/
def lineBreaks : Value → ℕ
  | text s => s.toList.count '\n'
  | _ => 0

theorem count_newline_doubleQuotes (s : List Char) :
    (doubleQuotes s).count '\n' = s.count '\n' := by
  induction s with
  | nil => rfl
  | cons c s ih =>
    rw [doubleQuotes, List.flatMap_cons, ← doubleQuotes, List.count_append, ih]
    split
    · next hc => simp [hc]
    · rw [List.count_singleton, List.count_cons, Nat.add_comm]

theorem newline_notMem_floatChars (x : Binary64) : '\n' ∉ floatChars x := by
  have hdecimal (d : Decimal) : '\n' ∉ decimalChars d := by
    unfold decimalChars
    rw [List.mem_append, not_or]
    refine ⟨Digit.newline_notMem_map_char _, ?_⟩
    split
    · exact List.not_mem_nil
    · exact List.not_mem_cons_of_ne_of_not_mem (by decide) (Digit.newline_notMem_map_char _)
  unfold floatChars
  split_ifs <;> simp [hdecimal]

/-- The line breaks of a literal are those of the value. -/
theorem count_newline_inline (v : Value) : v.inline.toList.count '\n' = v.lineBreaks := by
  have hnone {s : List Char} (h : '\n' ∉ s) : s.count '\n' = 0 := List.count_eq_zero_of_not_mem h
  rw [inline, String.toList_ofList]
  cases v with
  | null => rfl
  | bool b => cases b <;> rfl
  | int n =>
    refine hnone ?_
    rw [inlineChars, intChars, List.mem_append, not_or]
    exact ⟨by split <;> simp, Digit.newline_notMem_map_char _⟩
  | float x => exact hnone (newline_notMem_floatChars x)
  | text s => simp [inlineChars, lineBreaks, count_newline_doubleQuotes]
  | blob bytes =>
    refine hnone ?_
    have hbyte (b : UInt8) : '\n' ∉ byteChars b := by
      have hall : ∀ high low : Fin 16,
          '\n' ∉ [Digit.hexChar 'A' high.val, Digit.hexChar 'A' low.val] := by decide
      have hb := b.toNat_lt
      exact hall ⟨b.toNat / 16, by omega⟩ ⟨b.toNat % 16, by omega⟩
    simp [inlineChars, hbyte]
  | date d => exact hnone (by simp [inlineChars, d.newline_notMem_chars])
  | timestamp t => exact hnone (by simp [inlineChars, t.newline_notMem_chars])

/-- What stands before the quote that ends the text, and what follows that quote. Two quotes stand
for one. -/
def readQuoted : List Char → Option (List Char × List Char)
  | [] => none
  | '\'' :: '\'' :: s => (readQuoted s).map fun r => ('\'' :: r.1, r.2)
  | c :: s => if c = '\'' then some ([], s) else (readQuoted s).map fun r => (c :: r.1, r.2)

/-- The text that a literal begins with, and what follows the literal. -/
def readTextLiteral : List Char → Option (String × List Char)
  | 'N' :: '\'' :: s => (readQuoted s).map fun r => (String.ofList r.1, r.2)
  | _ => none

theorem readQuoted_cons_of_ne {c : Char} (hc : c ≠ '\'') (s : List Char) :
    readQuoted (c :: s) = (readQuoted s).map fun r => (c :: r.1, r.2) := by
  rw [readQuoted, if_neg hc]
  rintro t rfl
  exact absurd rfl hc

/-- Behind the quotes of a text reading goes on as if it began there. -/
theorem readQuoted_doubleQuotes_append (s t : List Char) :
    readQuoted (doubleQuotes s ++ t) = (readQuoted t).map fun r => (s ++ r.1, r.2) := by
  induction s with
  | nil => exact Option.map_id'.symm
  | cons c s ih =>
    rw [doubleQuotes, List.flatMap_cons, ← doubleQuotes]
    by_cases hc : c = '\''
    · subst hc
      rw [if_pos rfl, List.append_assoc, List.cons_append, List.singleton_append, readQuoted, ih,
        Option.map_map]
      rfl
    · rw [if_neg hc, List.append_assoc, List.singleton_append, readQuoted_cons_of_ne hc, ih,
        Option.map_map]
      rfl

theorem readQuoted_quote {r : List Char} (h : r.head? ≠ some '\'') :
    readQuoted ('\'' :: r) = some ([], r) := by
  rw [readQuoted, if_pos rfl]
  rintro t - rfl
  exact h rfl

theorem suffix_of_readQuoted {s t rest : List Char} (h : readQuoted s = some (t, rest)) :
    rest <:+ s := by
  induction s using readQuoted.induct generalizing t with
  | case1 => cases h
  | case2 s ih =>
    obtain ⟨r, hr, he⟩ := Option.map_eq_some_iff.mp h
    cases he
    exact (ih hr).trans (List.suffix_append ['\'', '\''] s)
  | case3 s _ =>
    rw [readQuoted, if_pos rfl] at h
    · cases h
      exact List.suffix_cons _ _
    · assumption
  | case4 c s _ hc ih =>
    rw [readQuoted_cons_of_ne hc] at h
    obtain ⟨r, hr, he⟩ := Option.map_eq_some_iff.mp h
    cases he
    exact (ih hr).trans (List.suffix_cons c s)

theorem readTextLiteral_inline_append (s : String) (r : List Char) :
    readTextLiteral ((text s).inline.toList ++ r) =
      (readQuoted ('\'' :: r)).map fun q => (s ++ String.ofList q.1, q.2) := by
  rw [inline, String.toList_ofList, inlineChars, List.append_assoc, List.singleton_append]
  simp only [List.cons_append, readTextLiteral, readQuoted_doubleQuotes_append, Option.map_map,
    Function.comp_def, String.ofList_append, String.ofList_toList]

/-- Whatever follows the literal, reading does not stop within it. -/
theorem suffix_of_readTextLiteral {s t : String} {r rest : List Char}
    (h : readTextLiteral ((text s).inline.toList ++ r) = some (t, rest)) : rest <:+ r := by
  rw [readTextLiteral_inline_append] at h
  obtain ⟨q, hq, he⟩ := Option.map_eq_some_iff.mp h
  cases he
  cases r with
  | nil =>
    cases hq
    exact List.suffix_rfl
  | cons c r =>
    by_cases hc : c = '\''
    · subst hc
      rw [readQuoted] at hq
      obtain ⟨q', hq', he⟩ := Option.map_eq_some_iff.mp hq
      cases he
      exact (suffix_of_readQuoted hq').trans (List.suffix_cons _ r)
    · rw [readQuoted_quote (by simpa using hc)] at hq
      cases hq
      exact List.suffix_rfl

/-- A decimal digit or one of the letters from A to F, in either case. -/
def isHexDigit (c : Char) : Bool := (Json.hexValue? c).isSome

/-- The digits that a literal of bytes begins with, as many as there are, and what follows. -/
def readHexLiteral : List Char → Option (List Char × List Char)
  | '0' :: 'x' :: s => some (s.takeWhile isHexDigit, s.dropWhile isHexDigit)
  | _ => none

/-- The bytes of pairs of digits. -/
def bytesOfPairs? : List Char → Option (List UInt8)
  | [] => some []
  | [_] => none
  | a :: b :: s => do
    let high ← Json.hexValue? a
    let low ← Json.hexValue? b
    let bytes ← bytesOfPairs? s
    return UInt8.ofNat (16 * high + low) :: bytes

theorem isHexDigit_of_mem_byteChars {b : UInt8} {c : Char} (h : c ∈ byteChars b) :
    isHexDigit c := by
  have hb := b.toNat_lt
  have hdigit {n : ℕ} (hn : n < 16) : isHexDigit (Digit.hexChar 'A' n) := by
    rw [isHexDigit, Json.hexValue?_hexChar (.inr rfl) hn, Option.isSome_some]
  simp only [byteChars, List.mem_cons, List.not_mem_nil, or_false] at h
  rcases h with rfl | rfl
  · exact hdigit (by omega)
  · exact hdigit (by omega)

theorem length_flatMap_byteChars (bytes : List UInt8) :
    (bytes.flatMap byteChars).length = 2 * bytes.length := by
  induction bytes with
  | nil => rfl
  | cons b bytes ih =>
    rw [List.flatMap_cons, List.length_append, ih, List.length_cons, byteChars, List.length_cons,
      List.length_singleton]
    omega

/-- The digits of bytes, two for each, denote them. -/
theorem bytesOfPairs?_flatMap_byteChars (bytes : List UInt8) :
    bytesOfPairs? (bytes.flatMap byteChars) = some bytes := by
  induction bytes with
  | nil => rfl
  | cons b bytes ih =>
    have hb := b.toNat_lt
    have hvalue : 16 * (b.toNat / 16) + b.toNat % 16 = b.toNat := Nat.div_add_mod _ _
    rw [List.flatMap_cons, byteChars, List.cons_append, List.singleton_append, bytesOfPairs?,
      Json.hexValue?_hexChar (.inr rfl) (by omega),
      Json.hexValue?_hexChar (.inr rfl) (by omega), ih]
    simp only [Option.bind_eq_bind, Option.bind_some, Option.pure_def, hvalue, UInt8.ofNat_toNat]

/-- All digits of the bytes are taken, and no more. -/
theorem readHexLiteral_inline_append (bytes : List UInt8) {r : List Char}
    (h : ∀ c ∈ r.head?, ¬isHexDigit c) :
    readHexLiteral ((blob bytes).inline.toList ++ r) = some (bytes.flatMap byteChars, r) := by
  have hdigits : ∀ c ∈ bytes.flatMap byteChars, isHexDigit c := by
    intro c hc
    obtain ⟨b, -, hc⟩ := List.mem_flatMap.mp hc
    exact isHexDigit_of_mem_byteChars hc
  have htake : r.takeWhile isHexDigit = [] := by
    cases r with
    | nil => rfl
    | cons c r => exact List.takeWhile_cons_of_neg (h c rfl)
  have hdrop : r.dropWhile isHexDigit = r := by
    cases r with
    | nil => rfl
    | cons c r => exact List.dropWhile_cons_of_neg (h c rfl)
  rw [inline, String.toList_ofList, inlineChars, List.cons_append, List.cons_append,
    readHexLiteral, List.takeWhile_append_of_pos hdigits, List.dropWhile_append_of_pos hdigits,
    htake, hdrop, List.append_nil]

/-- The literals of texts and of bytes end where they end, whatever they hold, and denote what they
were written for. -/
theorem inline_delimits :
    (∀ (s : String) (r : List Char), r.head? ≠ some '\'' →
      readTextLiteral ((text s).inline.toList ++ r) = some (s, r)) ∧
    (∀ (s t : String) (r rest : List Char),
      readTextLiteral ((text s).inline.toList ++ r) = some (t, rest) → rest <:+ r) ∧
    (∀ (bytes : List UInt8) (r : List Char), (∀ c ∈ r.head?, ¬isHexDigit c) →
      ∃ digits, readHexLiteral ((blob bytes).inline.toList ++ r) = some (digits, r) ∧
        digits.length = 2 * bytes.length ∧ bytesOfPairs? digits = some bytes) ∧
    (Function.Injective fun s => (text s).inline) ∧
      Function.Injective fun bytes => (blob bytes).inline := by
  have htext (s : String) (r : List Char) (h : r.head? ≠ some '\'') :
      readTextLiteral ((text s).inline.toList ++ r) = some (s, r) := by
    rw [readTextLiteral_inline_append, readQuoted_quote h, Option.map_some, String.ofList_nil,
      String.append_empty]
  have hblob (bytes : List UInt8) (r : List Char) (h : ∀ c ∈ r.head?, ¬isHexDigit c) :
      ∃ digits, readHexLiteral ((blob bytes).inline.toList ++ r) = some (digits, r) ∧
        digits.length = 2 * bytes.length ∧ bytesOfPairs? digits = some bytes :=
    ⟨_, readHexLiteral_inline_append bytes h, length_flatMap_byteChars bytes,
      bytesOfPairs?_flatMap_byteChars bytes⟩
  refine ⟨htext, fun s t r rest => suffix_of_readTextLiteral, hblob, ?_, ?_⟩
  · intro s t hst
    have hs := htext s [] nofun
    rw [show (text s).inline = (text t).inline from hst, htext t [] nofun] at hs
    cases hs
    rfl
  · intro bytes bytes' hb
    obtain ⟨digits, hd, -, hvalue⟩ := hblob bytes [] nofun
    obtain ⟨digits', hd', -, hvalue'⟩ := hblob bytes' [] nofun
    rw [show (blob bytes).inline = (blob bytes').inline from hb, hd'] at hd
    cases hd
    rw [hvalue] at hvalue'
    exact Option.some.inj hvalue'

theorem inline_delimits_quotes :
    (" = 1".toList.head? ≠ some '\'' ∧
      readTextLiteral ((text "''O'Brien'").inline.toList ++ " = 1".toList) =
        some ("''O'Brien'", " = 1".toList)) ∧
    (∀ c ∈ ", 5".toList.head?, ¬isHexDigit c) ∧
      ∃ digits, readHexLiteral ((blob [0x0F, 0xCA]).inline.toList ++ ", 5".toList) =
        some (digits, ", 5".toList) ∧ digits.length = 4 ∧
          bytesOfPairs? digits = some [0x0F, 0xCA] := by
  obtain ⟨htext, -, hblob, -, -⟩ := inline_delimits
  have hblank : ∀ c ∈ ", 5".toList.head?, ¬isHexDigit c := by
    rintro _ ⟨⟩
    decide
  exact ⟨⟨by decide, htext _ _ (by decide)⟩, hblank, hblob [0x0F, 0xCA] _ hblank⟩

end Value

end FilterClause
