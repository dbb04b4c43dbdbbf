import FilterClause.Proofs.Numeric.Digit

/-!
# Leading digits of shortest decimals

The shortest decimal of a double other than zero begins with a digit other than zero: whichever grid
the search stops at, the multiple that it finds there is positive.
-/

namespace FilterClause

theorem powTwo_pos (n : ℕ) : 0 < powTwo n := Nat.pow_pos (by decide)

theorem powTen_pos (n : ℕ) : 0 < powTen n := Nat.pow_pos (by decide)

theorem powTen_le_powTen {m n : ℕ} (h : m ≤ n) : powTen m ≤ powTen n :=
  Nat.pow_le_pow_right (by decide) h

namespace Decimal

/-- The power of ten is at most the quotient. -/
def IsBelow (e : ℤ) (num den : ℕ) : Prop := den * powTen e.toNat ≤ num * powTen (-e).toNat

theorem IsBelow.pred {e : ℤ} {num den : ℕ} (h : IsBelow e num den) : IsBelow (e - 1) num den := by
  have hpos : powTen (e - 1).toNat ≤ powTen e.toNat := powTen_le_powTen (by omega)
  have hneg : powTen (-e).toNat ≤ powTen (-(e - 1)).toNat := powTen_le_powTen (by omega)
  calc den * powTen (e - 1).toNat ≤ den * powTen e.toNat := Nat.mul_le_mul_left den hpos
    _ ≤ num * powTen (-e).toNat := h
    _ ≤ num * powTen (-(e - 1)).toNat := Nat.mul_le_mul_left num hneg

theorem isBelow_leadingExponent {num den : ℕ} (hn : 0 < num) (hd : 0 < den) :
    IsBelow (leadingExponent num den) num den := by
  unfold leadingExponent
  split
  · next h =>
    have hq : num / den ≠ 0 := (Nat.div_pos h hd).ne'
    obtain ⟨k, hk⟩ : ∃ k, (Nat.toDigits 10 (num / den)).length = k + 1 :=
      Nat.exists_eq_add_one.mpr Nat.length_toDigits_pos
    have hpow : 10 ^ k ≤ num / den :=
      Digit.pow_le_of_length (by rw [Digit.ofNat, List.length_map, hk]) hq
    have he : ((k + 1 : ℕ) : ℤ) - 1 = k := by omega
    have hmul := (Nat.le_div_iff_mul_le hd).mp hpow
    rw [hk, he, IsBelow]
    simpa [powTen, Nat.mul_comm] using hmul
  · next h =>
    have hc : den ≤ num * ((den + num - 1) / num) := by
      have hm := Nat.div_add_mod (den + num - 1) num
      have hl := Nat.mod_lt (den + num - 1) hn
      omega
    have hlt : (den + num - 1) / num - 1 <
        10 ^ (Nat.toDigits 10 ((den + num - 1) / num - 1)).length :=
      (Nat.length_toDigits_le_iff (by decide) Nat.length_toDigits_pos).mp le_rfl
    have hle : num * ((den + num - 1) / num) ≤
        num * 10 ^ (Nat.toDigits 10 ((den + num - 1) / num - 1)).length :=
      Nat.mul_le_mul_left num (by omega)
    simpa [IsBelow, powTen] using hc.trans hle

namespace Interval

theorem ne_zero_of_holds {i : Interval} {n : ℕ} {e : ℤ} (hlow : 0 < i.low)
    (h : i.holds n e) : n ≠ 0 := by
  rintro rfl
  have hu := Nat.mul_pos hlow (powTen_pos (-e).toNat)
  simp only [holds, Nat.zero_mul] at h
  split at h <;> simp only [decide_eq_true_eq] at h <;> omega

theorem ne_zero_of_nearest? {i : Interval} {tie : Tie} {n : ℕ} {e : ℤ} (hlow : 0 < i.low)
    (h : i.nearest? tie e = some n) : n ≠ 0 := by
  unfold nearest? at h
  simp only at h
  split at h
  · cases h
  · next hb _ =>
    cases h
    exact ne_zero_of_holds hlow hb
  · cases h
    exact Nat.succ_ne_zero _
  · next hb _ =>
    have hne := ne_zero_of_holds hlow hb
    split at h
    · cases h
      exact hne
    · split at h
      · cases h
        exact Nat.succ_ne_zero _
      · split at h
        · cases h
          exact Nat.succ_ne_zero _
        · cases h
          exact (Nat.add_pos_left (Nat.pos_of_ne_zero hne) _).ne'

/-- A search that begins below the value finds a positive multiple. -/
theorem search_ne_zero {i : Interval} (hlow : 0 < i.low) (hden : 0 < i.den) (tie : Tie)
    (count : ℕ) {e : ℤ} (h : IsBelow e i.value i.den) : (i.search tie count e).1 ≠ 0 := by
  induction count generalizing e with
  | zero =>
    rw [search]
    exact (Nat.div_pos h (Nat.mul_pos hden (powTen_pos _))).ne'
  | succ count ih =>
    rw [search]
    split
    · next n hn => exact ne_zero_of_nearest? hlow hn
    · exact ih h.pred

end Interval

/-- Without the zeros at its end, a positive number still begins with the same digit. -/
theorem digits_ofScaled {n : ℕ} (h : n ≠ 0) (e : ℤ) :
    ∃ d ds, (ofScaled n e).digits = d :: ds ∧ d ≠ Digit.zero := by
  obtain ⟨d, ds, hn⟩ := List.exists_cons_of_ne_nil (Digit.ofNat_ne_nil n)
  have hd : d ≠ Digit.zero := by
    rintro rfl
    exact Digit.head?_ofNat h (by rw [hn, List.head?_cons])
  simp only [ofScaled, hn, List.reverse_cons, List.dropWhile_append]
  split
  · exact ⟨d, [], by simp [hd], hd⟩
  · exact ⟨d, _, by rw [List.reverse_append]; rfl, hd⟩

/-- Zero has no digits, and the digits of any other double do not begin with a zero. -/
theorem digits_shortest (tie : Tie) (x : Binary64) :
    shortest tie x = ⟨[], 0⟩ ∨ ∃ d ds, (shortest tie x).digits = d :: ds ∧ d ≠ Digit.zero := by
  unfold shortest
  split
  · exact .inl rfl
  · next h =>
    have hunit := powTwo_pos x.scale.toNat
    have hlow : 0 < (Interval.of x).low := by
      refine Nat.mul_pos ?_ hunit
      split <;> omega
    have hden : 0 < (Interval.of x).den := Nat.mul_pos (by decide) (powTwo_pos _)
    have hvalue : 0 < (Interval.of x).value := Nat.mul_pos (by omega) hunit
    exact .inr (digits_ofScaled
      (Interval.search_ne_zero hlow hden tie 17 (isBelow_leadingExponent hvalue hden)) _)

end Decimal

end FilterClause
