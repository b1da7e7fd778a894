import Mathlib
import MachineNumbers.Proofs.CorrectRounding

/-!
# Numbers that need no rounding

`FloatFormat.Represents fmt q` says that some finite float is the number `q`.  A significand of the precision
at an exponent of the format makes such a number, below overflow (`represents_of_sig`).  So does a multiple of
the last place of a float that is no greater than the float (`represents_multiple`), and a combination of two
floats that is no greater than either (`represents_sub_mul`).  What is represented is rounded to itself, so an
operation whose exact result is represented gives exactly that (`Operation.eval_of_represents`).
-/

namespace MachineNumbers

open BinaryFloat

/-- Some finite float of the format is the number `q`. -/
def FloatFormat.Represents (fmt : FloatFormat) (q : ℚ) : Prop :=
  ∃ x : BinaryFloat fmt, x.isFinite = true ∧ x.value = q

variable {fmt : FloatFormat} {x y : BinaryFloat fmt} {q : ℚ}

namespace FloatFormat

/-- The magnitude of a word below infinity is represented under either sign. -/
theorem represents_of_abs {w : ℕ} (hw : w < fmt.infinityWord) (h : |q| = fmt.magnitude w) :
    fmt.Represents q := by
  refine ⟨ofWord (decide (q < 0)) w, isFinite_ofWord hw, ?_⟩
  rw [value, word_ofWord hw.le, ← h]
  by_cases hq : q < 0
  · simp [ofWord, hq, abs_of_neg hq]
  · simp [ofWord, hq, abs_of_nonneg (not_lt.1 hq)]

theorem represents_zero (fmt : FloatFormat) : fmt.Represents 0 :=
  ⟨zero false, isFinite_of_isZero rfl, value_of_isZero rfl⟩

/-- A significand of the precision, at an exponent in the range and below overflow. -/
theorem represents_of_sig {n : ℕ} {k : ℤ} (hn : n < 2 * fmt.hiddenBit) (hk : fmt.minExp ≤ k)
    (h : |q| = n * 2 ^ k) (hlt : |q| < 2 ^ (fmt.maxLead + 1)) : fmt.Represents q := by
  rcases Nat.eq_zero_or_pos n with rfl | hpos
  · rw [Nat.cast_zero, zero_mul, abs_eq_zero] at h
    exact h ▸ represents_zero fmt
  · obtain ⟨w, hw⟩ := exists_magnitude_eq fmt hpos.ne' hn hk
    rw [← h] at hw
    refine represents_of_abs ?_ hw.symm
    rwa [← fmt.magnitude_lt_iff, hw, fmt.magnitude_infinityWord]

/-- A multiple of the last place of a float, no greater than the float. -/
theorem represents_multiple (hx : x.isFinite = true) {k : ℤ}
    (hle : |(k : ℚ) * 2 ^ (x.unpack .gradual).exp| ≤ |x.value|) :
    fmt.Represents ((k : ℚ) * 2 ^ (x.unpack .gradual).exp) := by
  have hunit : (0 : ℚ) < 2 ^ (x.unpack .gradual).exp := by positivity
  have habs : |(k : ℚ) * 2 ^ (x.unpack .gradual).exp| = (k.natAbs : ℚ) * 2 ^ (x.unpack .gradual).exp := by
    rw [abs_mul, abs_of_pos hunit, ← Int.cast_abs, Int.abs_eq_natAbs, Int.cast_natCast]
  refine represents_of_sig ?_ (minExp_le_unpack x) habs (hle.trans_lt (abs_value_lt hx))
  rw [habs, abs_value, magnitude_unpack] at hle
  have hbits : k.natAbs ≤ (x.unpack .gradual).sig := by
    exact_mod_cast le_of_mul_le_mul_right hle hunit
  exact hbits.trans_lt (unpack_sig_lt x)

/-- A float is a whole number of units of any place below its last one. -/
theorem exists_multiple {e : ℤ} (he : e ≤ (x.unpack .gradual).exp) : ∃ k : ℤ, x.value = k * 2 ^ e := by
  obtain ⟨d, hd⟩ := Int.eq_ofNat_of_zero_le (Int.sub_nonneg.2 he)
  refine ⟨(if x.sign then -1 else 1) * (x.unpack .gradual).sig * 2 ^ d, ?_⟩
  rw [value, magnitude_unpack, show (x.unpack .gradual).exp = d + e by omega, zpow_add₀ (by norm_num),
    zpow_natCast]
  push_cast
  ring

/-- One float less a multiple of another, if that is no greater than either. -/
theorem represents_sub_mul (hx : x.isFinite = true) (hy : y.isFinite = true) (n : ℤ)
    (hlex : |x.value - n * y.value| ≤ |x.value|) (hley : |x.value - n * y.value| ≤ |y.value|) :
    fmt.Represents (x.value - n * y.value) := by
  -- both are whole at the lesser of their last places
  have hwhole : ∀ e : ℤ, e ≤ (x.unpack .gradual).exp → e ≤ (y.unpack .gradual).exp →
      ∃ k : ℤ, x.value - n * y.value = k * 2 ^ e := by
    intro e hex hey
    obtain ⟨kx, hkx⟩ := exists_multiple hex
    obtain ⟨ky, hky⟩ := exists_multiple hey
    refine ⟨kx - n * ky, ?_⟩
    rw [hkx, hky]
    push_cast
    ring
  rcases le_total (x.unpack .gradual).exp (y.unpack .gradual).exp with hle | hle
  · obtain ⟨k, hk⟩ := hwhole _ le_rfl hle
    rw [hk] at hlex ⊢
    exact represents_multiple hx hlex
  · obtain ⟨k, hk⟩ := hwhole _ hle le_rfl
    rw [hk] at hley ⊢
    exact represents_multiple hy hley

/-- Numbers of the format do not overflow. -/
theorem Represents.abs_lt (h : fmt.Represents q) : |q| < fmt.overflowBound := by
  obtain ⟨x, hx, rfl⟩ := h
  rw [abs_value]
  exact magnitude_lt_overflowBound ((isFinite_iff x).1 hx)

end FloatFormat

/-- What is represented is rounded to itself. -/
theorem BinaryFloat.IsNearestReal.value_eq (h : IsNearestReal (q : ℝ) x) (hq : fmt.Represents q) :
    x.isFinite = true ∧ x.value = q := by
  have hlt : ((|q| : ℚ) : ℝ) < fmt.overflowBound := by exact_mod_cast hq.abs_lt
  rw [Rat.cast_abs] at hlt
  have hfinite := h.isFinite_of_lt hlt
  obtain ⟨z, hz, rfl⟩ := hq
  have hnear := h.nearest z hfinite hz
  rw [sub_self, abs_zero] at hnear
  refine ⟨hfinite, ?_⟩
  exact_mod_cast sub_eq_zero.1 (abs_nonpos_iff.1 hnear)

/-- An operation whose exact result is represented gives it exactly. -/
theorem Operation.eval_of_represents (op : Operation fmt) (hr : op.exactResult? = some (q : ℝ))
    (hq : fmt.Represents q) : (op.eval .gradual).isFinite = true ∧ (op.eval .gradual).value = q :=
  (op.eval_isRounding hr).toIsNearestReal.value_eq hq

end MachineNumbers
