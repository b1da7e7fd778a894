import Mathlib
import MachineNumbers.Proofs.Flushing
import MachineNumbers.Proofs.Neighbour

/-!
# The unit of a float is the spacing of its numbers

Words that follow one another are one unit of the last place apart, in the binade of the lower one
(`magnitude_succ_sub`), and the next word is the next number up (`nextUp_abs`).  The unit is built from the
exponent of the last place (`ulp_eq_powerOfTwo`), so it is the distance to that number, and past the greatest
finite number to where infinity stands (`ulp_isSpacing`).
-/

namespace MachineNumbers

namespace BinaryFloat

variable {fmt : FloatFormat} {x : BinaryFloat fmt}

/-! ## Steps between words -/

/-- A word and the next are one unit of the last place apart. -/
theorem magnitude_succ_sub (x : BinaryFloat fmt) :
    fmt.magnitude (x.word + 1) - fmt.magnitude x.word = 2 ^ (x.unpack .gradual).exp := by
  rw [magnitude_succ_word, magnitude_unpack]
  ring

/-- Above a magnitude lies that of the next word, also above zero. -/
theorem nextUp_abs (hx : x.isFinite = true) : x.abs.nextUp .gradual = ofWord false (x.word + 1) := by
  cases hzero : x.isZero with
  | false => exact nextUp_eq rfl hzero hx
  | true =>
    have hword : x.word = 0 := by simpa [isZero] using hzero
    have hread : x.abs.readsAsZero .gradual = true := (readsAsZero_gradual x.abs).trans hzero
    have hnan : x.abs.isNaN = false := isNaN_of_isFinite hx
    rw [nextUp_of_readsAsZero hnan hread, hword]
    rfl

/-! ## Units -/

/-- The unit is the power of two of the last place, also for a zero. -/
theorem ulp_eq_powerOfTwo (hx : x.isFinite = true) :
    x.ulp .gradual = powerOfTwo (x.unpack .gradual).exp := by
  unfold ulp
  simp only [hx, Bool.not_true, Bool.false_eq_true, reduceCtorEq, false_and, if_false]
  split
  · next h0 =>
    have hword : x.word = 0 := (unpack_sig_eq_zero_iff x).1 h0
    have hexp : (x.unpack .gradual).exp = fmt.minExp := by
      rw [unpack_eq, hword, Nat.zero_div]
      rfl
    rw [hexp, powerOfTwo_minExp]
  · rfl

theorem isFinite_ulp (hx : x.isFinite = true) : (x.ulp .gradual).isFinite = true := by
  rw [ulp_eq_powerOfTwo hx]
  exact isFinite_powerOfTwo (minExp_le_unpack x) (unpack_exp_le_maxLead hx)

theorem value_ulp (hx : x.isFinite = true) :
    (x.ulp .gradual).value = 2 ^ (x.unpack .gradual).exp := by
  rw [ulp_eq_powerOfTwo hx]
  exact value_powerOfTwo (minExp_le_unpack x) (unpack_exp_le_maxLead hx)

/-- The unit of the greatest numbers. -/
theorem value_ulp_of_greatest (hx : x.isFinite = true)
    (hlast : |x.value| = (greatestFinite : BinaryFloat fmt).value) :
    (x.ulp .gradual).value = 2 ^ (fmt.maxLead - fmt.fractionBits) := by
  have hword : x.word + 1 = fmt.infinityWord := by
    rw [abs_value, value_greatestFinite, fmt.magnitude_injective.eq_iff] at hlast
    have := fmt.infinityWord_pos
    omega
  have hbit := fmt.two_le_hiddenBit
  -- infinity stands for the next power of two, one unit above the significand of all ones
  have htop : (2 : ℚ) ^ (fmt.maxLead + 1) =
      2 * fmt.hiddenBit * 2 ^ (fmt.maxLead - fmt.fractionBits) := by
    rw [fmt.hiddenBit_eq, Nat.cast_pow, Nat.cast_ofNat, ← zpow_natCast, mul_assoc,
      ← zpow_add₀ (by norm_num), add_sub_cancel, zpow_add_one₀ (by norm_num), mul_comm]
  rw [value_ulp hx, ← magnitude_succ_sub, hword, fmt.magnitude_infinityWord, ← abs_value, hlast,
    value_greatestFinite_eq, htop, Nat.cast_sub (by omega)]
  push_cast
  unfold FloatFormat.maxLead
  ring

/-- `u` is the distance from the magnitude of `x` to the next one, or for the greatest to where it would be. -/
structure IsSpacing (x u : BinaryFloat fmt) : Prop where
  finite : u.isFinite = true
  pos : 0 < u.value
  next : |x.value| < (greatestFinite : BinaryFloat fmt).value →
    (x.abs.nextUp .gradual).isFinite = true ∧ u.value = (x.abs.nextUp .gradual).value - |x.value|
  last : |x.value| = (greatestFinite : BinaryFloat fmt).value →
    u.value = 2 ^ (fmt.maxLead - fmt.fractionBits)

theorem isSpacing_ulp (hx : x.isFinite = true) : IsSpacing x (x.ulp .gradual) where
  finite := isFinite_ulp hx
  pos := by
    rw [value_ulp hx]
    positivity
  next hlt := by
    have hword : x.word + 1 < fmt.infinityWord := by
      rw [abs_value, value_greatestFinite, fmt.magnitude_lt_iff] at hlt
      omega
    rw [nextUp_abs hx, value_ofWord_false hword, abs_value, magnitude_succ_sub]
    exact ⟨isFinite_ofWord hword, value_ulp hx⟩
  last := value_ulp_of_greatest hx

/-! ## Flushed units -/

theorem ulp_of_readsAsZero (hx : x.isFinite = true) (hread : x.readsAsZero .flushToZero = true) :
    x.ulp .flushToZero = zero false := by
  have h0 := (unpack_sig_eq_zero_iff_readsAsZero .flushToZero x).2 hread
  simp [ulp, hx, h0]

/-- Of what is not read as a zero the unit is the same, unless it lies below the least normal number. -/
theorem ulp_of_not_readsAsZero (hx : x.isFinite = true) (hread : x.readsAsZero .flushToZero = false) :
    x.ulp .flushToZero = if (x.ulp .gradual).value < (leastNormal : BinaryFloat fmt).value
      then zero false else x.ulp .gradual := by
  have hunpack := unpack_of_not_readsAsZero hread
  have h0 : ¬(x.unpack .gradual).sig = 0 := by
    rw [← hunpack, unpack_sig_eq_zero_iff_readsAsZero, hread]
    exact Bool.false_ne_true
  have hbelow : (x.ulp .gradual).value < (leastNormal : BinaryFloat fmt).value ↔
      (x.unpack .gradual).exp < fmt.minLead := by
    rw [value_ulp hx, value_leastNormal]
    exact zpow_lt_zpow_iff_right₀ (by norm_num)
  rw [ulp_eq_powerOfTwo hx] at hbelow ⊢
  unfold ulp
  simp only [hx, h0, hbelow, hunpack, Bool.not_true, Bool.false_eq_true,
    true_and, if_false]

/-- The unit of a finite number is the spacing there, and a mode that flushes has the same unit where that is
no less than the least normal number and the number is not read as a zero, and zero elsewhere. -/
theorem ulp_isSpacing (x : BinaryFloat fmt) (hx : x.isFinite = true) :
    IsSpacing x (x.ulp .gradual) ∧
      x.ulp .flushToZero =
        if (leastNormal : BinaryFloat fmt).value ≤ (x.ulp .gradual).value ∧
            x.readsAsZero .flushToZero = false
        then x.ulp .gradual else zero false := by
  refine ⟨isSpacing_ulp hx, ?_⟩
  cases hread : x.readsAsZero .flushToZero with
  | true => rw [ulp_of_readsAsZero hx hread, if_neg (by simp)]
  | false =>
    rw [ulp_of_not_readsAsZero hx hread]
    simp only [and_true, ← not_lt, ite_not]

/-- The unit of the greatest number is a number that flushing keeps, that of the least normal one is not. -/
theorem ulp_isSpacing_ends :
    let x : BinaryFloat .binary16 := greatestFinite
    let y : BinaryFloat .binary16 := leastNormal
    (x.isFinite = true ∧ (x.ulp .gradual).value = 32 ∧ x.ulp .flushToZero = x.ulp .gradual) ∧
    y.isFinite = true ∧ IsSpacing y (y.ulp .gradual) ∧ y.ulp .gradual = leastNonzero ∧
      y.ulp .flushToZero = zero false := by
  intro x y
  have hx : x.isFinite = true := by decide +kernel
  have hy : y.isFinite = true := by decide +kernel
  have hlast : |x.value| = (greatestFinite : BinaryFloat .binary16).value :=
    abs_of_nonneg (value_greatestFinite ▸ FloatFormat.magnitude_nonneg _ _)
  refine ⟨⟨hx, ?_, by decide +kernel⟩, hy, (ulp_isSpacing y hy).1, by decide +kernel, by decide +kernel⟩
  rw [(ulp_isSpacing x hx).1.last hlast, show FloatFormat.binary16.maxLead -
    FloatFormat.binary16.fractionBits = 5 by decide]
  norm_num

end BinaryFloat

end MachineNumbers
