import FilterClause.Json.Reading
import FilterClause.Proofs.Numeric.Decimal

/-!
# Doubles that are read are finite

The bits of a double bound its magnitude, and those of a rounded quotient follow the quotient up to
a few powers of two. So a number of 64 bits is far below the largest double, dividing it by powers
of ten leaves it there, and a product past the largest double is refused: no numeral is read as an
infinity or a NaN.
-/

namespace FilterClause.Binary64

theorem toNat_bits_ofBits {n : ℕ} (h : n < 2 * signBit) : (ofBits n).bits.toNat = n := by
  exact UInt64.toNat_ofNat_of_lt' (Nat.lt_of_lt_of_le h (by decide))

/-- The sign bit is clear and the magnitude is less than `2 ^ k`, as the bits show. -/
def Below (k : ℕ) (x : Binary64) : Prop := x.bits.toNat < (k + 1023) * fractionCount

theorem Below.mono {j k : ℕ} {x : Binary64} (h : Below j x) (hjk : j ≤ k) : Below k x :=
  Nat.lt_of_lt_of_le h (Nat.mul_le_mul_right _ (by omega))

theorem Below.exponentField_lt {k : ℕ} {x : Binary64} (h : Below k x) :
    x.exponentField < k + 1023 :=
  Nat.lt_of_le_of_lt (Nat.mod_le _ _) (Nat.div_lt_of_lt_mul (by rwa [Nat.mul_comm]))

theorem Below.isFinite {k : ℕ} {x : Binary64} (h : Below k x) (hk : k ≤ 1024) : x.isFinite := by
  have hf := h.exponentField_lt
  exact decide_eq_true (by omega)

theorem ratio_pos (x : Binary64) : 0 < x.ratio.2 := powTwo_pos _

theorem significand_lt (x : Binary64) : x.significand < powTwo 53 := by
  have hf : x.fractionField < fractionCount := Nat.mod_lt _ (by decide)
  have hp : powTwo 53 = 2 * fractionCount := by decide
  unfold significand
  split <;> omega

theorem Below.ratio_lt {k : ℕ} {x : Binary64} (h : Below k x) :
    x.ratio.1 < 2 ^ k * x.ratio.2 := by
  have hf := h.exponentField_lt
  have hs : x.scale.toNat + 53 ≤ k + (-x.scale).toNat := by
    unfold scale
    omega
  calc x.significand * powTwo x.scale.toNat
      < powTwo 53 * powTwo x.scale.toNat :=
        Nat.mul_lt_mul_of_pos_right x.significand_lt (powTwo_pos _)
    _ = 2 ^ (x.scale.toNat + 53) := by rw [Nat.add_comm, Nat.pow_add]; rfl
    _ ≤ 2 ^ (k + (-x.scale).toNat) := Nat.pow_le_pow_right (by decide) hs
    _ = 2 ^ k * x.ratio.2 := Nat.pow_add 2 _ _

/-- A magnitude of at least `2 ^ k`, as the exponent shows. -/
theorem le_ratio {k : ℕ} {x : Binary64} (h : k + 1023 ≤ x.exponentField) :
    2 ^ k * x.ratio.2 ≤ x.ratio.1 := by
  have hs : k + (-x.scale).toNat ≤ 52 + x.scale.toNat := by
    unfold scale
    omega
  have hc : powTwo 52 ≤ x.significand := by
    have hp : powTwo 52 = fractionCount := by decide
    rw [significand, if_neg (by omega), hp]
    exact Nat.le_add_right _ _
  calc 2 ^ k * x.ratio.2 = 2 ^ (k + (-x.scale).toNat) := (Nat.pow_add 2 _ _).symm
    _ ≤ 2 ^ (52 + x.scale.toNat) := Nat.pow_le_pow_right (by decide) hs
    _ = powTwo 52 * powTwo x.scale.toNat := Nat.pow_add 2 _ _
    _ ≤ x.significand * powTwo x.scale.toNat := Nat.mul_le_mul_right _ hc

theorem roundQuotient_le {num den m : ℕ} (h : num < m * den) : roundQuotient num den ≤ m := by
  have hw : num / den < m := Nat.div_lt_of_lt_mul (by rwa [Nat.mul_comm])
  have hm := Nat.mod_lt (num / den) (by decide : 2 > 0)
  simp only [roundQuotient]
  split
  · omega
  · split <;> omega

theorem le_scaleOf (num den : ℕ) : (num.log2 : ℤ) - den.log2 - 53 ≤ scaleOf num den := by
  simp only [scaleOf]
  split <;> omega

theorem scaleOf_le (num den : ℕ) :
    scaleOf num den ≤ max ((num.log2 : ℤ) - den.log2 - 52) (-1074) := by
  simp only [scaleOf]
  split <;> omega

theorem roundScaled_le (num : ℕ) {den : ℕ} (hd : den ≠ 0) :
    roundScaled num den (scaleOf num den) ≤ 2 ^ 54 := by
  refine roundQuotient_le ?_
  have hs := le_scaleOf num den
  have hle : num.log2 + 1 + (-scaleOf num den).toNat ≤
      54 + (den.log2 + (scaleOf num den).toNat) := by omega
  calc num * powTwo (-scaleOf num den).toNat
      < 2 ^ (num.log2 + 1) * powTwo (-scaleOf num den).toNat :=
        Nat.mul_lt_mul_of_pos_right Nat.lt_log2_self (powTwo_pos _)
    _ = 2 ^ (num.log2 + 1 + (-scaleOf num den).toNat) := (Nat.pow_add 2 _ _).symm
    _ ≤ 2 ^ (54 + (den.log2 + (scaleOf num den).toNat)) := Nat.pow_le_pow_right (by decide) hle
    _ = 2 ^ 54 * (2 ^ den.log2 * powTwo (scaleOf num den).toNat) := by
      rw [Nat.pow_add, Nat.pow_add]
      rfl
    _ ≤ 2 ^ 54 * (den * powTwo (scaleOf num den).toNat) :=
      Nat.mul_le_mul_left _ (Nat.mul_le_mul_right _ (Nat.log2_self_le hd))

theorem toNat_bits_ofRatio {num : ℕ} (hn : num ≠ 0) (den : ℕ) :
    (ofRatio num den).bits.toNat =
      min ((scaleOf num den + 1074).toNat * fractionCount +
        roundScaled num den (scaleOf num den)) infinityBits := by
  rw [ofRatio, if_neg hn]
  refine toNat_bits_ofBits (Nat.lt_of_le_of_lt (Nat.min_le_right _ _) (by decide))

theorem bits_ofRatio_le (num den : ℕ) : (ofRatio num den).bits.toNat ≤ infinityBits := by
  by_cases hn : num = 0
  · subst hn
    rw [ofRatio, if_pos rfl]
    decide
  · rw [toNat_bits_ofRatio hn]
    exact Nat.min_le_right _ _

/-- Rounding stays within three powers of two of the quotient. -/
theorem below_ofRatio {num den k : ℕ} (h : num < 2 ^ k * den) :
    Below (k + 4) (ofRatio num den) := by
  by_cases hn : num = 0
  · subst hn
    rw [ofRatio, if_pos rfl]
    exact Nat.mul_pos (by omega) (by decide)
  · have hd : den ≠ 0 := by
      rintro rfl
      omega
    have hlog : num.log2 ≤ k + den.log2 := by
      refine Nat.lt_succ_iff.mp ((Nat.log2_lt hn).mpr (h.trans_le ?_))
      calc 2 ^ k * den ≤ 2 ^ k * 2 ^ (den.log2 + 1) :=
            Nat.mul_le_mul_left _ Nat.lt_log2_self.le
        _ = 2 ^ (k + den.log2).succ := (Nat.pow_add 2 _ _).symm
    have hs := scaleOf_le num den
    have hscale : (scaleOf num den + 1074).toNat ≤ k + 1022 := by omega
    have hround := roundScaled_le num hd
    have hfour : 2 ^ 54 = 4 * fractionCount := by decide
    have hmul := Nat.mul_le_mul_right fractionCount hscale
    have hc : 0 < fractionCount := by decide
    rw [Below, toNat_bits_ofRatio hn]
    refine Nat.lt_of_le_of_lt (Nat.min_le_left _ _) ?_
    calc (scaleOf num den + 1074).toNat * fractionCount + roundScaled num den (scaleOf num den)
        ≤ (k + 1022) * fractionCount + 4 * fractionCount := by omega
      _ = (k + 1026) * fractionCount := (Nat.add_mul _ _ _).symm
      _ < (k + 4 + 1023) * fractionCount := Nat.mul_lt_mul_of_pos_right (by omega) hc

theorem below_ofNat {n k : ℕ} (h : n < 2 ^ k) : Below (k + 4) (ofNat n) :=
  below_ofRatio (by rwa [Nat.mul_one])

theorem le_ratio_ofNat {n k : ℕ} (h : 2 ^ (k + 2) ≤ n) (hk : k ≤ 1024) :
    2 ^ k * (ofNat n).ratio.2 ≤ (ofNat n).ratio.1 := by
  refine le_ratio ?_
  have hn : n ≠ 0 := by
    have hp := Nat.two_pow_pos (k + 2)
    omega
  have hlog : k + 2 ≤ n.log2 := (Nat.le_log2 hn).mpr h
  have hs := le_scaleOf n 1
  have hone : Nat.log2 1 = 0 := by decide
  have hscale : k + 1023 ≤ (scaleOf n 1 + 1074).toNat := by omega
  have hmul := Nat.mul_le_mul_right fractionCount hscale
  have hinf : (k + 1023) * fractionCount ≤ infinityBits :=
    Nat.mul_le_mul_right fractionCount (by omega)
  have hbits : (k + 1023) * fractionCount ≤ (ofNat n).bits.toNat := by
    rw [ofNat, toNat_bits_ofRatio hn]
    exact le_min (hmul.trans (Nat.le_add_right _ _)) hinf
  have hc : 0 < fractionCount := by decide
  have hle : (ofNat n).bits.toNat / fractionCount ≤ 2047 :=
    Nat.div_le_of_le_mul (by rw [Nat.mul_comm]; exact bits_ofRatio_le n 1)
  rw [exponentField, Nat.mod_eq_of_lt (by omega)]
  exact (Nat.le_div_iff_mul_le hc).mpr hbits

theorem below_divMagnitude {x y : Binary64} {j k : ℕ} (hx : Below (k + j) x)
    (hy : 2 ^ j * y.ratio.2 ≤ y.ratio.1) : Below (k + 4) (x.divMagnitude y) := by
  refine below_ofRatio ?_
  calc x.ratio.1 * y.ratio.2 < 2 ^ (k + j) * x.ratio.2 * y.ratio.2 :=
        Nat.mul_lt_mul_of_pos_right hx.ratio_lt y.ratio_pos
    _ = 2 ^ k * (x.ratio.2 * (2 ^ j * y.ratio.2)) := by ring
    _ ≤ 2 ^ k * (x.ratio.2 * y.ratio.1) :=
      Nat.mul_le_mul_left _ (Nat.mul_le_mul_left _ hy)

theorem isFinite_withSign (negative : Bool) {x : Binary64} (h : x.bits.toNat < signBit) :
    (withSign negative x).isFinite = x.isFinite := by
  cases negative with
  | false => rfl
  | true =>
    have hb : (withSign true x).bits.toNat = x.bits.toNat + signBit :=
      toNat_bits_ofBits (by omega)
    have hs : signBit = 2048 * fractionCount := by decide
    have hf : (withSign true x).exponentField = x.exponentField := by
      rw [exponentField, hb, hs, Nat.add_mul_div_right _ _ (by decide), Nat.add_mod_right]
      rfl
    rw [isFinite, hf, isFinite]

end FilterClause.Binary64

namespace FilterClause.Json

open Binary64

theorem one_le_powerOfTen (exponent : ℕ) :
    (powerOfTen exponent).ratio.2 ≤ (powerOfTen exponent).ratio.1 := by
  cases exponent with
  | zero => decide
  | succ e =>
    have hten : 2 ^ (0 + 2) ≤ powTen (e + 1) :=
      Nat.le_trans (by decide) (powTen_le_powTen (Nat.succ_le_succ (Nat.zero_le e)))
    rw [powerOfTen]
    simpa using le_ratio_ofNat hten (by decide)

theorem sixteen_le_powerOfTen {exponent : ℕ} (h : 2 ≤ exponent) :
    2 ^ 4 * (powerOfTen exponent).ratio.2 ≤ (powerOfTen exponent).ratio.1 := by
  have hten : 2 ^ (4 + 2) ≤ powTen exponent :=
    Nat.le_trans (by decide) (powTen_le_powTen h)
  rw [powerOfTen]
  exact le_ratio_ofNat hten (by decide)

/-- A step that is not the last makes up for its rounding. -/
theorem below_divideByPower {x : Binary64} (exponent : ℕ) (h : Below 68 x) :
    Below 72 (divideByPower x exponent) := by
  induction exponent using Nat.strong_induction_on generalizing x with
  | _ exponent ih =>
    rw [divideByPower]
    split
    · have hone := one_le_powerOfTen exponent
      exact below_divMagnitude (k := 68) (j := 0) h (by simpa using hone)
    · split
      · exact h.mono (by decide)
      · have hstep := sixteen_le_powerOfTen (show 2 ≤ 308 by decide)
        exact ih _ (by omega) (below_divMagnitude (k := 64) (j := 4) h hstep)

theorem scaleByPower_isFinite {significand : ℕ} {exponent : ℤ} {x : Binary64}
    (hs : significand < wordCount) (h : scaleByPower significand exponent = some x) :
    x.isFinite ∧ x.bits.toNat < signBit := by
  have hbelow : Below 68 (Binary64.ofNat significand) := below_ofNat (k := 64) hs
  have hclear {y : Binary64} (hy : Below 72 y) : y.bits.toNat < signBit :=
    Nat.lt_of_lt_of_le hy (by decide)
  simp only [scaleByPower] at h
  split at h
  · cases h
    have hdiv := below_divideByPower exponent.natAbs hbelow
    exact ⟨hdiv.isFinite (by decide), hclear hdiv⟩
  · split at h
    · split at h
      · next hfin =>
        cases h
        exact ⟨hfin, Nat.lt_of_le_of_lt (bits_ofRatio_le _ _) (by decide)⟩
      · cases h
    · split at h
      · cases h
        exact ⟨hbelow.isFinite (by decide), hclear (hbelow.mono (by decide))⟩
      · cases h

theorem accumulate_lt (digits : List Digit) {n : ℕ} (h : n < wordCount) :
    (accumulate n digits).1 < wordCount := by
  induction digits generalizing n with
  | nil => exact h
  | cons d ds ih =>
    rw [accumulate]
    split
    · next hd => exact ih hd
    · exact h

theorem toBinary64_isFinite {n : Numeral} {x : Binary64} (h : n.toBinary64 = some x) :
    x.isFinite := by
  simp only [Numeral.toBinary64, Option.map_eq_some_iff] at h
  obtain ⟨y, hy, rfl⟩ := h
  have hs := accumulate_lt n.fraction (accumulate_lt n.whole (by decide : 0 < wordCount))
  obtain ⟨hfin, hclear⟩ := scaleByPower_isFinite hs hy
  rwa [isFinite_withSign _ hclear]

theorem toInteger?_natAbs_lt {n : Numeral} {i : ℤ} (h : n.toInteger? = some i) :
    i.natAbs < wordCount := by
  simp only [Numeral.toInteger?] at h
  split at h
  · cases h
  · split at h
    · split at h
      · next hm =>
        cases h
        rw [Int.natAbs_neg, Int.natAbs_natCast]
        exact Nat.lt_of_le_of_lt hm.2 (by decide)
      · cases h
    · split at h
      · next hm =>
        cases h
        exact hm
      · cases h

/-- No document is read as an infinity or a NaN. -/
theorem readFloat_isFinite {level : ℕ} {doc : Document} {x : Binary64}
    (h : readFloat level doc = .ok x) : x.isFinite := by
  cases doc with
  | number numeral =>
    cases numeral with
    | error fault => cases h
    | ok n =>
      simp only [readFloat, readNumber, Numeral.value?] at h
      cases hi : n.toInteger? with
      | some i =>
        rw [hi] at h
        cases h
        have hb : Below 68 (Binary64.ofNat i.natAbs) :=
          below_ofNat (k := 64) (toInteger?_natAbs_lt hi)
        rw [isFinite_withSign _ (Nat.lt_trans hb (by decide))]
        exact hb.isFinite (by decide)
      | none =>
        rw [hi] at h
        cases hx : n.toBinary64 with
        | none =>
          rw [hx] at h
          cases h
        | some y =>
          rw [hx] at h
          cases h
          exact toBinary64_isFinite hx
  | missing | stray | word _ _ | string _ _ | array _ _ | object _ _ => cases h

end FilterClause.Json
