import FilterClause.Json.Number
import FilterClause.Json.Scan
import FilterClause.Proofs.Numeric.Decimal
import Mathlib.Data.List.Basic

/-!
# Numerals in texts

A well-formed numeral is scanned back from its characters, up to what follows it, with either letter
and with or without the sign plus in its exponent. The numerals of integers and of doubles are well
formed; those of 64-bit integers have these as values, and those of doubles, with a point or an
exponent, are never taken for integers.
-/

namespace FilterClause

namespace Numeral

/-- There are digits where digits must stand, and a leading zero stands alone. -/
structure IsWellFormed (n : Numeral) : Prop where
  whole_ne_nil : n.whole ≠ []
  leading : ∀ d e ds, n.whole = d :: e :: ds → d ≠ Digit.zero
  exponent_ne_nil : ∀ negative ds, n.exponent = some (negative, ds) → ds ≠ []

/-- The ways to write the sign of an exponent: plus may be left out. -/
def exponentSigns (negative : Bool) : List (List Char) :=
  if negative then [['-']] else [['+'], []]

/-- The ways to write an exponent, with either letter. -/
def exponentSpellings : Option (Bool × List Digit) → List (List Char)
  | none => [[]]
  | some (negative, digits) =>
    ['e', 'E'].flatMap fun letter =>
      (exponentSigns negative).map fun sign => letter :: sign ++ digits.map Digit.char

/-- The ways to write a numeral, which differ in its exponent only. -/
def spellings (n : Numeral) : List (List Char) :=
  (exponentSpellings n.exponent).map fun exponent =>
    (if n.negative then ['-'] else []) ++ n.whole.map Digit.char ++
      (if n.fraction.isEmpty then [] else '.' :: n.fraction.map Digit.char) ++ exponent

theorem chars_mem_spellings (n : Numeral) : n.chars ∈ n.spellings := by
  refine List.mem_map.mpr ⟨exponentChars n.exponent, ?_, rfl⟩
  rcases n.exponent with _ | ⟨negative, digits⟩
  · exact List.mem_singleton_self _
  · cases negative <;> simp [exponentSpellings, exponentSigns, exponentChars]

/-- What follows is not taken for a part of the numeral. -/
def Ends (s : List Char) : Prop := ∀ c ∈ s.head?, ¬c.isDigit ∧ c ≠ '.' ∧ c ≠ 'e' ∧ c ≠ 'E'

theorem Ends.digit {s : List Char} (h : Ends s) : Digit.Ends s := fun c hc => (h c hc).1

end Numeral

namespace Json

open Numeral (exponentSigns exponentSpellings)

theorem scanDigits_map_char {digits : List Digit} {s : List Char} (hd : digits ≠ [])
    (hs : Digit.Ends s) : scanDigits (digits.map Digit.char ++ s) = .ok (digits, s) := by
  obtain ⟨d, ds, rfl⟩ := List.exists_cons_of_ne_nil hd
  rw [scanDigits, Digit.span_map_char _ hs]

theorem scanWhole_map_char {n : Numeral} {s : List Char} (hn : n.IsWellFormed)
    (hs : Digit.Ends s) : scanWhole (n.whole.map Digit.char ++ s) = .ok (n.whole, s) := by
  rw [scanWhole, scanDigits_map_char hn.whole_ne_nil hs]
  split
  · next d e ds t h =>
    obtain ⟨hw, rfl⟩ := Prod.mk.inj (Except.ok.inj h)
    rw [if_neg (hn.leading d e ds hw), hw]
  · rfl

theorem scanExponentSign_of_mem {negative : Bool} {sign : List Char}
    (hsign : sign ∈ exponentSigns negative) {digits : List Digit} (hd : digits ≠ [])
    (s : List Char) :
    scanExponentSign (sign ++ (digits.map Digit.char ++ s)) =
      (negative, digits.map Digit.char ++ s) := by
  cases negative with
  | true =>
    cases List.mem_singleton.mp hsign
    rfl
  | false =>
    rcases List.mem_pair.mp hsign with rfl | rfl
    · rfl
    · obtain ⟨d, ds, rfl⟩ := List.exists_cons_of_ne_nil hd
      have hdigit : ∀ d : Digit, d.char ≠ '-' ∧ d.char ≠ '+' := by decide
      rw [List.nil_append, List.map_cons, List.cons_append, scanExponentSign]
      · exact fun t ht => (hdigit d).1 (List.cons.inj ht).1
      · exact fun t ht => (hdigit d).2 (List.cons.inj ht).1

theorem scanExponent_of_mem {n : Numeral} {exponent s : List Char} (hn : n.IsWellFormed)
    (he : exponent ∈ exponentSpellings n.exponent) (hs : Numeral.Ends s) :
    scanExponent (exponent ++ s) = .ok (n.exponent, s) := by
  rcases h : n.exponent with _ | ⟨negative, digits⟩
  · rw [h] at he
    cases List.mem_singleton.mp he
    rw [List.nil_append, scanExponent]
    · exact fun t ht => (hs 'e' (by rw [ht]; rfl)).2.2.1 rfl
    · exact fun t ht => (hs 'E' (by rw [ht]; rfl)).2.2.2 rfl
  · have hne := hn.exponent_ne_nil negative digits h
    have hd := scanDigits_map_char hne hs.digit
    rw [h] at he
    simp only [exponentSpellings, List.mem_flatMap, List.mem_map] at he
    obtain ⟨letter, hletter, sign, hsign, rfl⟩ := he
    have hsigned := scanExponentSign_of_mem hsign hne s
    rcases List.mem_pair.mp hletter with rfl | rfl <;>
      simp [scanExponent, hsigned, hd, Except.map]

/-- The fraction is followed by the letter of an exponent, or by what follows the numeral. -/
theorem head?_of_mem_exponentSpellings {e : Option (Bool × List Digit)} {exponent s : List Char}
    (he : exponent ∈ exponentSpellings e) (hs : Numeral.Ends s) :
    ∀ c ∈ (exponent ++ s).head?, ¬c.isDigit ∧ c ≠ '.' := by
  rcases e with _ | ⟨negative, digits⟩
  · cases List.mem_singleton.mp he
    exact fun c hc => ⟨(hs c hc).1, (hs c hc).2.1⟩
  · simp only [exponentSpellings, List.mem_flatMap, List.mem_map] at he
    obtain ⟨letter, hletter, sign, -, rfl⟩ := he
    rintro _ ⟨⟩
    rcases List.mem_pair.mp hletter with rfl | rfl <;> decide

theorem scanFraction_map_char (digits : List Digit) {s : List Char}
    (hs : ∀ c ∈ s.head?, ¬c.isDigit ∧ c ≠ '.') :
    scanFraction ((if digits.isEmpty then [] else '.' :: digits.map Digit.char) ++ s) =
      .ok (digits, s) := by
  cases digits with
  | nil =>
    rw [List.isEmpty_nil, if_pos rfl, List.nil_append, scanFraction]
    exact fun t ht => (hs '.' (by rw [ht]; rfl)).2 rfl
  | cons d ds => exact scanDigits_map_char (List.cons_ne_nil d ds) fun c hc => (hs c hc).1

theorem scanMagnitude_of_mem {n : Numeral} {exponent s : List Char} (hn : n.IsWellFormed)
    (he : exponent ∈ exponentSpellings n.exponent) (hs : Numeral.Ends s) :
    scanMagnitude n.negative (n.whole.map Digit.char ++
      ((if n.fraction.isEmpty then [] else '.' :: n.fraction.map Digit.char) ++
        (exponent ++ s))) = .ok (n, s) := by
  have hexponent := head?_of_mem_exponentSpellings he hs
  have hends : Digit.Ends ((if n.fraction.isEmpty then [] else '.' :: n.fraction.map Digit.char) ++
      (exponent ++ s)) := by
    split
    · exact fun c hc => (hexponent c hc).1
    · rintro _ ⟨⟩
      decide
  rw [scanMagnitude, scanWhole_map_char hn hends]
  simp only [bind, Except.bind, scanFraction_map_char _ hexponent, scanExponent_of_mem hn he hs]
  rfl

/-- A well-formed numeral is scanned back, however it is written. -/
theorem scanNumeral_of_mem {n : Numeral} {token s : List Char} (hn : n.IsWellFormed)
    (ht : token ∈ n.spellings) (hs : Numeral.Ends s) :
    scanNumeral (token ++ s) = .ok (n, s) := by
  obtain ⟨exponent, he, rfl⟩ := List.mem_map.mp ht
  have h := scanMagnitude_of_mem hn he hs
  cases hneg : n.negative with
  | true =>
    simp only [hneg] at h
    simpa [scanNumeral] using h
  | false =>
    simp only [hneg] at h
    obtain ⟨d, ds, hd⟩ := List.exists_cons_of_ne_nil hn.whole_ne_nil
    have hminus : d.char ≠ '-' := fun he => absurd (Digit.isDigit_char d) (by rw [he]; decide)
    rw [hd] at h
    simp only [hd, List.map_cons, List.cons_append, List.append_assoc] at h ⊢
    rw [if_neg Bool.false_ne_true, List.nil_append, scanNumeral]
    · exact h
    · intro t ht
      exact hminus (List.cons.inj ht).1

theorem head_of_mem_spellings {n : Numeral} {token : List Char} (hn : n.IsWellFormed)
    (ht : token ∈ n.spellings) : ∃ c s, token = c :: s ∧ (c = '-' ∨ c.isDigit) := by
  obtain ⟨exponent, -, rfl⟩ := List.mem_map.mp ht
  obtain ⟨d, ds, hd⟩ := List.exists_cons_of_ne_nil hn.whole_ne_nil
  cases n.negative with
  | true => exact ⟨'-', _, rfl, .inl rfl⟩
  | false => exact ⟨d.char, _, by rw [hd]; rfl, .inr d.isDigit_char⟩

theorem head_chars {n : Numeral} (hn : n.IsWellFormed) :
    ∃ c s, n.chars = c :: s ∧ (c = '-' ∨ c.isDigit) :=
  head_of_mem_spellings hn n.chars_mem_spellings

end Json

namespace Numeral

open Json

theorem ofInt_isWellFormed (n : ℤ) : (ofInt n).IsWellFormed where
  whole_ne_nil := Digit.ofNat_ne_nil _
  leading := by
    rintro d e ds hd rfl
    have hn : n.natAbs ≠ 0 := by
      intro hz
      have hd : Digit.ofNat n.natAbs = Digit.zero :: e :: ds := hd
      rw [hz, Digit.ofNat_of_lt (by decide)] at hd
      cases hd
    exact Digit.head?_ofNat hn (by rw [show Digit.ofNat n.natAbs = _ from hd, List.head?_cons])
  exponent_ne_nil := by
    intro _ _ h
    cases h

theorem value?_ofInt {n : ℤ} (h : -9223372036854775808 ≤ n ∧ n < wordCount) :
    (ofInt n).value? = some (.integer n) := by
  have hw : wordCount = 18446744073709551616 := rfl
  have hi : (ofInt n).toInteger? = some n := by
    by_cases hn : n < 0
    · have hm : 0 < n.natAbs ∧ n.natAbs ≤ wordCount / 2 := by omega
      simp only [toInteger?, ofInt, List.isEmpty_nil, Option.isSome_none, hn, decide_true,
        Digit.toNat_ofNat, if_pos hm]
      simp only [Bool.not_true, Bool.or_self, if_true, Bool.false_eq_true, if_false]
      congr 1
      omega
    · have hm : n.natAbs < wordCount := by omega
      simp only [toInteger?, ofInt, List.isEmpty_nil, Option.isSome_none, hn, decide_false,
        Digit.toNat_ofNat, if_pos hm]
      simp only [Bool.not_true, Bool.or_self, Bool.false_eq_true, if_false]
      congr 1
      omega
  rw [value?, hi]

theorem ofBinary64_isWellFormed (x : Binary64) : (ofBinary64 x).IsWellFormed := by
  unfold ofBinary64
  rcases Decimal.digits_shortest .toEven x with h | ⟨d, ds, h, hd⟩
  · rw [h]
    exact ⟨List.cons_ne_nil _ _, by rintro d e ds ⟨⟩, by rintro _ _ ⟨⟩⟩
  · simp only [h, List.isEmpty_cons, Bool.false_or, decide_eq_true_eq]
    split
    · by_cases hp : (Decimal.shortest .toEven x).point ≤ 0
      · simp only [Decimal.whole, if_pos hp]
        exact ⟨List.cons_ne_nil _ _, by rintro d e ds ⟨⟩, by rintro _ _ ⟨⟩⟩
      · obtain ⟨k, hk⟩ : ∃ k, (Decimal.shortest .toEven x).point.toNat = k + 1 :=
          Nat.exists_eq_add_one.mpr (by omega)
        simp only [Decimal.whole, if_neg hp, h, hk, List.take_succ_cons, List.cons_append]
        refine ⟨List.cons_ne_nil _ _, ?_, by rintro _ _ ⟨⟩⟩
        intro d' e es he
        rw [← (List.cons.inj he).1]
        exact hd
    · refine ⟨List.cons_ne_nil _ _, by rintro d' e es ⟨⟩, ?_⟩
      intro negative es he
      cases he
      exact Digit.ofNat_ne_nil _

theorem value?_ofBinary64 (x : Binary64) :
    (ofBinary64 x).value? = (ofBinary64 x).toBinary64.map .float := by
  have h : (ofBinary64 x).toInteger? = none := by
    unfold toInteger?
    refine if_pos ?_
    unfold ofBinary64
    simp only
    split
    · split <;> simp_all
    · simp
  rw [value?, h]

end Numeral

end FilterClause
