import FilterClause.Numeric.Decimal
import Mathlib.Data.List.Induction
import Mathlib.Tactic.Ring

/-!
# Decimal digits

Digits of natural numbers denote these numbers, begin with a zero only for zero itself, and are read
back from their characters up to the first character that is no digit.
-/

namespace FilterClause.Digit

theorem ofNat_of_lt {n : ℕ} (h : n < 10) : ofNat n = [⟨n, h⟩] := by
  have hd : ∀ d : Fin 10, Fin.ofNat 10 ((Nat.digitChar d.val).toNat - '0'.toNat) = d := by decide
  rw [ofNat, Nat.toDigits_of_lt_base h, List.map_singleton, hd ⟨n, h⟩]

theorem ofNat_of_le {n : ℕ} (h : 10 ≤ n) :
    ofNat n = ofNat (n / 10) ++ [⟨n % 10, Nat.mod_lt n (by decide)⟩] := by
  have hlast := ofNat_of_lt (Nat.mod_lt n (by decide : 10 > 0))
  rw [ofNat, Nat.toDigits_of_lt_base (Nat.mod_lt n (by decide))] at hlast
  rw [ofNat, Nat.toDigits_of_base_le (by decide) h, List.map_append, hlast, ofNat]

theorem ofNat_ne_nil (n : ℕ) : ofNat n ≠ [] := by simp [ofNat]

theorem length_ofNat_le_iff {n k : ℕ} (hk : 0 < k) : (ofNat n).length ≤ k ↔ n < 10 ^ k := by
  rw [ofNat, List.length_map, Nat.length_toDigits_le_iff (by decide) hk]

@[simp] theorem toNat_nil : toNat [] = 0 := rfl

theorem toNat_append_singleton (digits : List Digit) (d : Digit) :
    toNat (digits ++ [d]) = 10 * toNat digits + d.val := by
  rw [toNat, List.foldl_append]
  rfl

theorem toNat_append (ds es : List Digit) :
    toNat (ds ++ es) = toNat ds * 10 ^ es.length + toNat es := by
  induction es using List.reverseRecOn with
  | nil => simp
  | append_singleton es e ih =>
    rw [← List.append_assoc, toNat_append_singleton, ih, toNat_append_singleton,
      List.length_append, List.length_singleton, Nat.pow_succ]
    ring

@[simp] theorem toNat_replicate_zero (k : ℕ) : toNat (List.replicate k zero) = 0 := by
  induction k with
  | zero => rfl
  | succ k ih =>
    rw [List.replicate_succ', toNat_append_singleton, ih]
    rfl

/-- The digits of a number denote it. -/
@[simp] theorem toNat_ofNat (n : ℕ) : toNat (ofNat n) = n := by
  induction n using Nat.strong_induction_on with
  | _ n ih =>
    by_cases h : n < 10
    · rw [ofNat_of_lt h]
      exact Nat.zero_add n
    · have h : 10 ≤ n := by omega
      have hdiv : n / 10 < n := by omega
      rw [ofNat_of_le h, toNat_append_singleton, ih _ hdiv]
      exact Nat.div_add_mod n 10

/-- Only zero has a leading zero. -/
theorem head?_ofNat {n : ℕ} (h : n ≠ 0) : (ofNat n).head? ≠ some zero := by
  induction n using Nat.strong_induction_on with
  | _ n ih =>
    by_cases hn : n < 10
    · rw [ofNat_of_lt hn, List.head?_cons]
      intro hz
      exact h (congrArg Fin.val (Option.some.inj hz))
    · have hn : 10 ≤ n := by omega
      have hdiv : n / 10 < n := by omega
      obtain ⟨d, ds, hds⟩ := List.exists_cons_of_ne_nil (ofNat_ne_nil (n / 10))
      have hhead := ih _ hdiv (by omega)
      rw [hds] at hhead
      rw [ofNat_of_le hn, hds]
      exact hhead

/-- A number is at least as large as the power of ten with one digit less. -/
theorem pow_le_of_length {n k : ℕ} (h : (ofNat n).length = k + 1) (hn : n ≠ 0) : 10 ^ k ≤ n := by
  by_contra hlt
  have hlt : n < 10 ^ k := by omega
  cases k with
  | zero =>
    rw [Nat.pow_zero] at hlt
    omega
  | succ k =>
    have hl := (length_ofNat_le_iff (Nat.succ_pos k)).mpr hlt
    omega

@[simp] theorem ofChar?_char (d : Digit) : ofChar? d.char = some d := by
  have h : ∀ d : Digit, ofChar? d.char = some d := by decide
  exact h d

theorem isDigit_char (d : Digit) : d.char.isDigit := by
  have h : ∀ d : Digit, d.char.isDigit := by decide
  exact h d

/-- No digit follows. -/
def Ends (s : List Char) : Prop := ∀ c ∈ s.head?, ¬c.isDigit

theorem span_of_ends {s : List Char} (h : Ends s) : span s = ([], s) := by
  cases s with
  | nil => rfl
  | cons c s =>
    have hc : ¬c.isDigit := h c rfl
    rw [span, ofChar?, if_neg hc]

theorem span_map_char (digits : List Digit) {s : List Char} (h : Ends s) :
    span (digits.map char ++ s) = (digits, s) := by
  induction digits with
  | nil => exact span_of_ends h
  | cons d digits ih => rw [List.map_cons, List.cons_append, span, ofChar?_char, ih]

end FilterClause.Digit
