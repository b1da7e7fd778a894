import Mathlib
import MachineNumbers.BinaryFloat.Arithmetic.Product
import MachineNumbers.BinaryFloat.Arithmetic.Quotient
import MachineNumbers.Proofs.Rounding

/-!
# Products and quotients are rounded once

Gradual products and quotients of finite floats are the exact ones, rounded (`mul_roundsTo`,
`div_roundsTo`), with the sign that the signs of the operands make.
-/

namespace MachineNumbers.BinaryFloat

variable {fmt : FloatFormat} {x y : BinaryFloat fmt}

/-! ## Finite operands -/

theorem isNaN_of_isFinite (h : x.isFinite = true) : x.isNaN = false := by
  rw [isFinite_iff] at h
  rw [isNaN_eq_false_iff]
  exact h.le

theorem isInfinite_of_isFinite (h : x.isFinite = true) : x.isInfinite = false := by
  rw [isFinite_iff] at h
  rw [Bool.eq_false_iff, ne_eq, isInfinite_iff_word]
  exact h.ne

theorem propagatedNaN?_eq_none (hx : x.isFinite = true) (hy : y.isFinite = true) :
    propagatedNaN? [x, y] = none := by
  simp [propagatedNaN?, isNaN_of_isFinite hx, isNaN_of_isFinite hy]

/-- The significand of any format fits the widest precision. -/
theorem unpack_sig_lt_two_pow (x : BinaryFloat fmt) : (x.unpack .gradual).sig < 2 ^ 53 := by
  have h1 := unpack_sig_lt x
  have h2 := hiddenBit_le fmt
  omega

/-! ## Products -/

theorem mul_eq (hx : x.isFinite = true) (hy : y.isFinite = true) :
    mul .gradual x y =
      if (x.unpack .gradual).sig = 0 ∨ (y.unpack .gradual).sig = 0 then zero (x.sign != y.sign)
      else roundPack .gradual ((x.unpack .gradual).mul (y.unpack .gradual)) false := by
  unfold mul
  rw [propagatedNaN?_eq_none hx hy]
  simp only [isInfinite_of_isFinite hx, isInfinite_of_isFinite hy, Bool.or_self,
    Bool.false_eq_true, if_false]

/-- The magnitude of a product is rounded once. -/
theorem mul_roundsTo (hx : x.isFinite = true) (hy : y.isFinite = true) :
    fmt.RoundsTo (fmt.magnitude x.word * fmt.magnitude y.word) (mul .gradual x y).word := by
  rw [mul_eq hx hy, magnitude_unpack x, magnitude_unpack y]
  split
  · next h0 =>
    rcases h0 with h0 | h0
    · rw [h0, Nat.cast_zero, zero_mul, zero_mul]
      exact roundsTo_zero _
    · rw [h0, Nat.cast_zero, zero_mul, mul_zero]
      exact roundsTo_zero _
  · next h0 =>
    push Not at h0
    have hlt : (x.unpack .gradual).sig * (y.unpack .gradual).sig < 2 ^ 53 * 2 ^ 53 :=
      Nat.mul_lt_mul'' (unpack_sig_lt_two_pow x) (unpack_sig_lt_two_pow y)
    refine roundPack_roundsTo (Nat.mul_ne_zero h0.1 h0.2)
      (hlt.trans (by decide)) (Unpacked.holds_false.2 ?_) (by simp)
    simp only [Unpacked.mul]
    rw [zpow_add₀ (by norm_num)]
    push_cast
    ring

theorem mul_sign (hx : x.isFinite = true) (hy : y.isFinite = true) :
    (mul .gradual x y).sign = (x.sign != y.sign) := by
  rw [mul_eq hx hy]
  split
  · rfl
  · rw [roundPack_sign, Unpacked.mul, unpack_sign, unpack_sign]

/-! ## Quotients -/

theorem div_eq (hx : x.isFinite = true) (hy : y.isFinite = true) (hy0 : y.word ≠ 0) :
    div .gradual x y =
      if (x.unpack .gradual).sig = 0 then zero (x.sign != y.sign)
      else roundPack .gradual ((x.unpack .gradual).div (y.unpack .gradual)).1
        ((x.unpack .gradual).div (y.unpack .gradual)).2 := by
  have hsig : (y.unpack .gradual).sig ≠ 0 := fun h => hy0 ((unpack_sig_eq_zero_iff y).1 h)
  unfold div
  rw [propagatedNaN?_eq_none hx hy]
  simp only [isInfinite_of_isFinite hx, isInfinite_of_isFinite hy, Bool.false_eq_true, if_false,
    hsig]

/-- A normalised significand has its leading bit at `leadPlace` and the same number. -/
theorem normalised_spec {a : Unpacked} (h0 : a.sig ≠ 0) (hlt : a.sig < 2 ^ 126) :
    2 ^ 125 ≤ a.normalised.sig ∧ a.normalised.sig < 2 ^ 126 ∧
      (a.normalised.sig : ℚ) * 2 ^ a.normalised.exp = a.sig * 2 ^ a.exp := by
  have hlog : a.sig.log2 < 126 := (Nat.log2_lt h0).2 hlt
  obtain ⟨hlow, hhigh⟩ := shiftLeft_sub_bounds h0 (Nat.le_of_lt_succ hlog)
  exact ⟨hlow, hhigh, shiftLeft_mul_zpow _ _ _⟩

/-- The quotient kernel keeps 72 bits at least, and what it loses is less than one unit. -/
theorem div_holds {a b : Unpacked} (ha0 : a.sig ≠ 0) (hb0 : b.sig ≠ 0) (ha : a.sig < 2 ^ 126)
    (hb : b.sig < 2 ^ 53) :
    2 ^ 72 ≤ (a.div b).1.sig ∧ (a.div b).1.sig < 2 ^ 128 ∧
      (a.div b).1.Holds (a.div b).2 (a.sig * 2 ^ a.exp / (b.sig * 2 ^ b.exp)) := by
  obtain ⟨hlow, hhigh, hval⟩ := normalised_spec ha0 ha
  have hpos : 0 < b.sig := Nat.pos_of_ne_zero hb0
  refine ⟨?_, (Nat.div_le_self _ _).trans_lt (hhigh.trans (by decide)), ?_⟩
  · refine (Nat.le_div_iff_mul_le hpos).2 ?_
    calc 2 ^ 72 * b.sig ≤ 2 ^ 72 * 2 ^ 53 := Nat.mul_le_mul_left _ hb.le
      _ = 2 ^ 125 := by rw [← pow_add]
      _ ≤ a.normalised.sig := hlow
  · have hholds := Unpacked.holds_div (a.sign != b.sign) (a.normalised.exp - b.exp)
      a.normalised.sig hpos
    rwa [zpow_sub₀ (by norm_num), div_mul_div_comm, hval] at hholds

/-- The magnitude of a quotient is rounded once, its rest being in the sticky bit. -/
theorem div_roundsTo (hx : x.isFinite = true) (hy : y.isFinite = true) (hy0 : y.word ≠ 0) :
    fmt.RoundsTo (fmt.magnitude x.word / fmt.magnitude y.word) (div .gradual x y).word := by
  have hb0 : (y.unpack .gradual).sig ≠ 0 := fun h => hy0 ((unpack_sig_eq_zero_iff y).1 h)
  rw [div_eq hx hy hy0, magnitude_unpack x, magnitude_unpack y]
  split
  · next h0 =>
    rw [h0, Nat.cast_zero, zero_mul, zero_div]
    exact roundsTo_zero _
  · next h0 =>
    obtain ⟨hlow, hhigh, hholds⟩ := div_holds h0 hb0
      ((unpack_sig_lt_two_pow x).trans (by decide)) (unpack_sig_lt_two_pow y)
    refine roundPack_roundsTo_of_bits (le_trans ?_ hlow) hhigh hholds
    have := fmt.fractionBits_le
    exact Nat.pow_le_pow_right (by decide) (by omega)

theorem div_sign (hx : x.isFinite = true) (hy : y.isFinite = true) (hy0 : y.word ≠ 0) :
    (div .gradual x y).sign = (x.sign != y.sign) := by
  rw [div_eq hx hy hy0]
  split
  · rfl
  · rw [roundPack_sign, Unpacked.div, unpack_sign]
    simp only [Unpacked.normalised, unpack_sign]

end MachineNumbers.BinaryFloat
