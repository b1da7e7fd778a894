import Mathlib
import MachineNumbers.BinaryFloat.Neighbour
import MachineNumbers.Proofs.Kinds

/-!
# A float is its significand at its exponent

The significand of a number, with its leading bit moved to the place of the hidden one, is a fraction beside
the hidden bit of one (`magnitude_significand`), whether the number had a hidden bit or not.  The exponent is
that of the leading bit, so the two make up the magnitude exactly, and the exponent is its binary logarithm
without the fraction (`significand_scales`).
-/

namespace MachineNumbers

/-- A number between a power of two and the next has that exponent. -/
theorem floor_logb_mul_zpow {m : ℝ} (hlow : 1 ≤ m) (hhigh : m < 2) (e : ℤ) :
    ⌊Real.logb 2 (m * 2 ^ e)⌋ = e := by
  have hm : ⌊Real.logb 2 m⌋ = 0 := by
    rw [Int.floor_eq_zero_iff]
    refine ⟨Real.logb_nonneg (by norm_num) hlow, ?_⟩
    rw [Real.logb_lt_iff_lt_rpow (by norm_num) (by linarith), Real.rpow_one]
    exact hhigh
  rw [Real.logb_mul (by linarith) (by positivity), ← Real.rpow_intCast,
    Real.logb_rpow (by norm_num) (by norm_num), Int.floor_add_intCast, hm, zero_add]

namespace BinaryFloat

variable {fmt : FloatFormat} {x : BinaryFloat fmt}

/-- The significand of `x` with its leading bit at the place of the hidden bit. -/
def scaledSig (x : BinaryFloat fmt) : ℕ :=
  (x.unpack .gradual).sig <<< (fmt.fractionBits - (x.unpack .gradual).sig.log2)

theorem scaledSig_bounds (h0 : x.isZero = false) :
    fmt.hiddenBit ≤ x.scaledSig ∧ x.scaledSig < 2 * fmt.hiddenBit := by
  rw [fmt.hiddenBit_eq, ← pow_succ']
  exact shiftLeft_sub_bounds (unpack_sig_ne_zero h0) (Nat.le_of_lt_succ (log2_unpack_sig_lt h0))

/-! ## Parts -/

theorem exponent_eq (hx : x.isFinite = true) (h0 : x.isZero = false) :
    x.exponent = (x.unpack .gradual).leadExp := by
  have hsig := unpack_sig_ne_zero h0
  unfold exponent
  simp only [hx, hsig, Bool.not_true, Bool.false_eq_true, if_false]

/-- Without its hidden bit the scaled significand is the fraction beside one. -/
theorem significand_eq (hx : x.isFinite = true) (h0 : x.isZero = false) :
    x.significand = ofWord false (fmt.powerOfTwoWord 0 + (x.scaledSig - fmt.hiddenBit)) := by
  have hsig := unpack_sig_ne_zero h0
  obtain ⟨hlow, hhigh⟩ := scaledSig_bounds h0
  have hfraction : x.scaledSig % fmt.hiddenBit = x.scaledSig - fmt.hiddenBit := by
    rw [Nat.mod_eq_sub_mod hlow, Nat.mod_eq_of_lt (by omega)]
  unfold significand
  simp only [isNaN_of_isFinite hx, isInfinite_of_isFinite hx, hsig, Bool.false_eq_true, if_false]
  rw [← hfraction]
  rfl

/-- The word of a significand is in the binade of one. -/
theorem magnitude_significand (h0 : x.isZero = false) :
    fmt.magnitude (fmt.powerOfTwoWord 0 + (x.scaledSig - fmt.hiddenBit)) =
      x.scaledSig * 2 ^ (-fmt.fractionBits : ℤ) := by
  obtain ⟨hlow, hhigh⟩ := scaledSig_bounds h0
  have hbias := fmt.one_le_bias
  rw [fmt.magnitude_powerOfTwoWord_add (by unfold FloatFormat.minLead; omega) (by omega),
    Nat.add_sub_of_le hlow, zero_sub]

theorem scaledSig_div_bounds (h0 : x.isZero = false) :
    1 ≤ (x.scaledSig : ℚ) * 2 ^ (-fmt.fractionBits : ℤ) ∧
      (x.scaledSig : ℚ) * 2 ^ (-fmt.fractionBits : ℤ) < 2 := by
  obtain ⟨hlow, hhigh⟩ := scaledSig_bounds h0
  have hpos : (0 : ℚ) < fmt.hiddenBit := by exact_mod_cast fmt.hiddenBit_pos
  have hunit : (2 : ℚ) ^ (-fmt.fractionBits : ℤ) = (fmt.hiddenBit : ℚ)⁻¹ := by
    rw [zpow_neg, zpow_natCast, fmt.hiddenBit_eq, Nat.cast_pow, Nat.cast_ofNat]
  rw [hunit, ← div_eq_mul_inv, one_le_div hpos, div_lt_iff₀ hpos]
  exact ⟨by exact_mod_cast hlow, by exact_mod_cast hhigh⟩

theorem value_significand (hx : x.isFinite = true) (h0 : x.isZero = false) :
    x.significand.isFinite = true ∧
      x.significand.value = x.scaledSig * 2 ^ (-fmt.fractionBits : ℤ) := by
  have hword : fmt.powerOfTwoWord 0 + (x.scaledSig - fmt.hiddenBit) < fmt.infinityWord := by
    rw [← fmt.magnitude_lt_iff, magnitude_significand h0, fmt.magnitude_infinityWord]
    have hmax : 0 ≤ fmt.maxLead := Int.natCast_nonneg _
    calc (x.scaledSig : ℚ) * 2 ^ (-fmt.fractionBits : ℤ) < 2 := (scaledSig_div_bounds h0).2
      _ = 2 ^ (1 : ℤ) := (zpow_one 2).symm
      _ ≤ 2 ^ (fmt.maxLead + 1) := zpow_le_zpow_right₀ (by norm_num) (by omega)
  rw [significand_eq hx h0, value_ofWord_false hword, magnitude_significand h0]
  exact ⟨isFinite_ofWord hword, rfl⟩

/-- No bit is lost by moving the leading one. -/
theorem abs_value_eq_scaledSig (h0 : x.isZero = false) :
    |x.value| = x.scaledSig * 2 ^ (-fmt.fractionBits : ℤ) * 2 ^ (x.unpack .gradual).leadExp := by
  have hlog := Nat.le_of_lt_succ (log2_unpack_sig_lt h0)
  have hexp : (x.unpack .gradual).exp - ((fmt.fractionBits - (x.unpack .gradual).sig.log2 : ℕ) : ℤ) =
      -fmt.fractionBits + (x.unpack .gradual).leadExp := by
    unfold Unpacked.leadExp
    omega
  rw [abs_value, magnitude_unpack, ← shiftLeft_mul_zpow, hexp, zpow_add₀ (by norm_num), ← mul_assoc]
  rfl

/-- A float is its significand at its exponent: of a number that is not zero, subnormal ones included, the
significand is a number from one up to two, scaled by the exponent it is the magnitude exactly, and the
exponent is the binary logarithm of the magnitude without its fraction. -/
theorem significand_scales (x : BinaryFloat fmt) (hx : x.isFinite = true) (h0 : x.isZero = false) :
    x.significand.isFinite = true ∧ 1 ≤ x.significand.value ∧ x.significand.value < 2 ∧
      |x.value| = x.significand.value * 2 ^ x.exponent ∧
      x.exponent = ⌊Real.logb 2 |(x.value : ℝ)|⌋ := by
  obtain ⟨hfinite, hvalue⟩ := value_significand hx h0
  obtain ⟨hlow, hhigh⟩ := scaledSig_div_bounds h0
  rw [← hvalue] at hlow hhigh
  have habs : |x.value| = x.significand.value * 2 ^ x.exponent := by
    rw [hvalue, exponent_eq hx h0]
    exact abs_value_eq_scaledSig h0
  refine ⟨hfinite, hlow, hhigh, habs, ?_⟩
  have hreal : |(x.value : ℝ)| = (x.significand.value : ℝ) * 2 ^ x.exponent := by
    rw [← Rat.cast_abs, habs]
    push_cast
    rfl
  rw [hreal, floor_logb_mul_zpow (by exact_mod_cast hlow) (by exact_mod_cast hhigh)]

/-- Three times the least number is one and a half at the next exponent. -/
theorem significand_scales_subnormal :
    let x : BinaryFloat .binary64 := -ofBits 3
    x.isFinite = true ∧ x.isZero = false ∧ x.significand = ofBits 0x3ff8000000000000 ∧
      |x.value| = x.significand.value * 2 ^ (-1073 : ℤ) ∧
      -1073 = ⌊Real.logb 2 |(x.value : ℝ)|⌋ := by
  intro x
  have hx : x.isFinite = true := by decide +kernel
  have h0 : x.isZero = false := by decide +kernel
  have hexponent : x.exponent = -1073 := by decide +kernel
  obtain ⟨-, -, -, hscaled, hfloor⟩ := significand_scales x hx h0
  rw [hexponent] at hscaled hfloor
  exact ⟨hx, h0, by decide +kernel, hscaled, hfloor⟩

end BinaryFloat

end MachineNumbers
