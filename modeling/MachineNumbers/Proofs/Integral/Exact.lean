import Mathlib
import MachineNumbers.Proofs.Integral

/-!
# Where rounding to an integral value is exact

`BinaryFloat.IsIntegralOf rule x y` says that `y` is a finite integral number less than one away from `x`, and
no more than one half if the rule takes a nearest integer.  The integer that a rule takes is always that near
(`Selects.dist_lt_one`, `Selects.dist_le_half`), so all depends on whether it is a number of the format: it is
not if it lies past the greatest one (`isIntegralOf_rounded_iff`).  A format without such integers is one whose
greatest number is integral itself (`greatestFinite_integral_iff`), and only there is every number rounded
exactly (`rounded_isIntegralOf_iff`).
-/

namespace MachineNumbers

/-! ## How far away the integer of a rule is -/

/-- The rules that take an integer as near as any. -/
def RoundingRule.IsToNearest (rule : RoundingRule) : Prop :=
  rule = .toNearestOrAwayFromZero ∨ rule = .toNearestOrEven

namespace RoundingRule

variable {rule : RoundingRule} {q : ℚ} {n : ℤ}

theorem dist_le_half_of_nearest (h : ∀ m : ℤ, |q - n| ≤ |q - m|) : |q - n| ≤ 1 / 2 :=
  (h (round q)).trans (abs_sub_round q)

theorem Selects.dist_le_half (h : rule.Selects q n) (hrule : rule.IsToNearest) : |q - n| ≤ 1 / 2 := by
  rcases hrule with rfl | rfl
  · exact dist_le_half_of_nearest (IsNearestAway.nearest h)
  · exact dist_le_half_of_nearest (IsNearestEven.nearest h)

theorem dist_floor_lt_one (q : ℚ) : |q - ⌊q⌋| < 1 := by
  rw [abs_lt]
  exact ⟨by linarith [Int.floor_le q], by linarith [Int.lt_floor_add_one q]⟩

theorem dist_ceil_lt_one (q : ℚ) : |q - ⌈q⌉| < 1 := by
  rw [abs_lt]
  exact ⟨by linarith [Int.ceil_lt_add_one q], by linarith [Int.le_ceil q]⟩

theorem Selects.dist_lt_one (h : rule.Selects q n) : |q - n| < 1 := by
  cases rule with
  | toNearestOrAwayFromZero => exact (h.dist_le_half (.inl rfl)).trans_lt (by norm_num)
  | toNearestOrEven => exact (h.dist_le_half (.inr rfl)).trans_lt (by norm_num)
  | up => exact h ▸ dist_ceil_lt_one q
  | down => exact h ▸ dist_floor_lt_one q
  | towardZero =>
    rw [show n = if q < 0 then ⌈q⌉ else ⌊q⌋ from h]
    split
    · exact dist_ceil_lt_one q
    · exact dist_floor_lt_one q
  | awayFromZero =>
    rw [show n = if q < 0 then ⌊q⌋ else ⌈q⌉ from h]
    split
    · exact dist_floor_lt_one q
    · exact dist_ceil_lt_one q

/-- Every rule leaves an integer as it is. -/
theorem selects_intCast (rule : RoundingRule) (k : ℤ) : rule.Selects k k := by
  have hdist : |(k : ℚ) - k| = 0 := by rw [sub_self, abs_zero]
  cases rule with
  | toNearestOrAwayFromZero =>
    exact isNearestAway_of_dist_le (by rw [hdist]; norm_num) (by rw [hdist]; norm_num)
  | toNearestOrEven =>
    exact isNearestEven_of_dist_le (by rw [hdist]; norm_num) (by rw [hdist]; norm_num)
  | up | down | towardZero | awayFromZero => simp [Selects]

end RoundingRule

namespace BinaryFloat

variable {fmt : FloatFormat} {rule : RoundingRule} {x : BinaryFloat fmt} {n : ℤ}

/-! ## Exact results -/

/-- `y` is a finite integral number less than one away from `x`, and no more than one half if the rule takes
a nearest integer. -/
structure IsIntegralOf (rule : RoundingRule) (x y : BinaryFloat fmt) : Prop where
  isFinite : y.isFinite = true
  isInteger : ∃ k : ℤ, y.value = k
  dist_lt_one : |y.value - x.value| < 1
  dist_le_half : rule.IsToNearest → |y.value - x.value| ≤ 1 / 2

/-- In the gradual mode a zero is the float of the integer that it is. -/
theorem exists_selects_rounded_gradual (rule : RoundingRule) (hx : x.isFinite = true) :
    ∃ n, rule.Selects x.value n ∧ IsFloatOfInt n x.sign (x.rounded .gradual rule) := by
  have hread := readsAsZero_gradual x
  cases hzero : x.isZero with
  | true =>
    have hvalue : x.value = (0 : ℤ) := by rw [value_of_isZero hzero, Int.cast_zero]
    rw [rounded_of_readsAsZero rule hx (hread.trans hzero)]
    exact ⟨0, hvalue ▸ RoundingRule.selects_intCast rule 0, isFloatOfInt_zero x.sign⟩
  | false => exact exists_selects_rounded rule hx (hread.trans hzero)

/-- The result is exact if and only if the integer that the rule takes is no greater than all numbers. -/
theorem isIntegralOf_rounded_iff (hn : rule.Selects x.value n)
    (hfloat : IsFloatOfInt n x.sign (x.rounded .gradual rule)) :
    IsIntegralOf rule x (x.rounded .gradual rule) ↔
      |(n : ℚ)| ≤ (greatestFinite : BinaryFloat fmt).value := by
  constructor
  · intro h
    by_contra hlt
    have hfinite := h.isFinite
    rw [hfloat.overflow (not_le.1 hlt), isFinite_of_isInfinite (isInfinite_infinity x.sign)] at hfinite
    cases hfinite
  · intro hle
    obtain ⟨hfinite, hvalue⟩ := hfloat.exact hle
    refine ⟨hfinite, ⟨n, hvalue⟩, ?_, fun hrule => ?_⟩
    · rw [hvalue, abs_sub_comm]
      exact hn.dist_lt_one
    · rw [hvalue, abs_sub_comm]
      exact hn.dist_le_half hrule

/-! ## The greatest number -/

/-- The greatest number is integral if the precision leaves no bits below its point. -/
theorem greatestFinite_integral_iff (fmt : FloatFormat) :
    (∃ k : ℤ, (greatestFinite : BinaryFloat fmt).value = k) ↔ fmt.fractionBits ≤ fmt.bias := by
  rw [value_greatestFinite_eq]
  constructor
  · rintro ⟨k, hk⟩
    by_contra hlt
    -- an odd number would be a multiple of two
    obtain ⟨d, hd⟩ := Nat.exists_eq_add_of_lt (not_le.1 hlt)
    have hbit := fmt.two_le_hiddenBit
    rw [show (fmt.bias : ℤ) - fmt.fractionBits = -((d + 1 : ℕ) : ℤ) by omega, zpow_neg, zpow_natCast,
      ← div_eq_mul_inv, div_eq_iff (by positivity), pow_succ] at hk
    have hint : ((2 * fmt.hiddenBit - 1 : ℕ) : ℤ) = k * (2 ^ d * 2) := by exact_mod_cast hk
    rw [← mul_assoc] at hint
    omega
  · intro hle
    obtain ⟨d, hd⟩ := Nat.exists_eq_add_of_le hle
    refine ⟨(2 * fmt.hiddenBit - 1 : ℕ) * 2 ^ d, ?_⟩
    rw [show (fmt.bias : ℤ) - fmt.fractionBits = d by omega, zpow_natCast]
    push_cast
    rfl

/-- An integer less than one past a number of the format is no greater than its greatest number, if that
is integral. -/
theorem abs_le_greatestFinite_of_dist_lt_one (hx : x.isFinite = true) (hn : |x.value - n| < 1)
    (hle : fmt.fractionBits ≤ fmt.bias) : |(n : ℚ)| ≤ (greatestFinite : BinaryFloat fmt).value := by
  obtain ⟨g, hg⟩ := (greatestFinite_integral_iff fmt).2 hle
  have hgreatest := abs_value_le_greatestFinite hx
  rw [hg] at hgreatest ⊢
  have hlt : |(n : ℚ)| < g + 1 := by
    calc |(n : ℚ)| = |x.value - (x.value - n)| := by rw [sub_sub_cancel]
      _ ≤ |x.value| + |x.value - n| := abs_sub _ _
      _ < g + 1 := by linarith
  have hint : |n| < g + 1 := by exact_mod_cast hlt
  exact_mod_cast Int.lt_add_one_iff.1 hint

/-- Rounding to an integral value is exact where the integer that the rule takes is no greater than all numbers
of the format, and overflows to the infinity of the sign everywhere else.  Every number of a format is rounded
exactly under every rule if and only if its greatest number is integral. -/
theorem rounded_isIntegralOf_iff (fmt : FloatFormat) :
    (∀ (rule : RoundingRule) (x : BinaryFloat fmt), x.isFinite = true → ∃ n, rule.Selects x.value n ∧
      (IsIntegralOf rule x (x.rounded .gradual rule) ↔
        |(n : ℚ)| ≤ (greatestFinite : BinaryFloat fmt).value) ∧
      (¬IsIntegralOf rule x (x.rounded .gradual rule) → x.rounded .gradual rule = infinity x.sign)) ∧
    ((∀ (rule : RoundingRule) (x : BinaryFloat fmt), x.isFinite = true →
      IsIntegralOf rule x (x.rounded .gradual rule)) ↔ fmt.fractionBits ≤ fmt.bias) := by
  refine ⟨fun rule x hx => ?_, fun hall => ?_, fun hle rule x hx => ?_⟩
  · obtain ⟨n, hn, hfloat⟩ := exists_selects_rounded_gradual rule hx
    have hiff := isIntegralOf_rounded_iff hn hfloat
    exact ⟨n, hn, hiff, fun hnot => hfloat.overflow (not_le.1 (mt hiff.2 hnot))⟩
  · -- rounded up, the greatest number stays where it is
    have hx : (greatestFinite : BinaryFloat fmt).isFinite = true := isFinite_greatestFinite
    obtain ⟨n, hn, hfloat⟩ := exists_selects_rounded_gradual .up hx
    have hle := (isIntegralOf_rounded_iff hn hfloat).1 (hall .up _ hx)
    have hceil : n = ⌈(greatestFinite : BinaryFloat fmt).value⌉ := hn
    refine (greatestFinite_integral_iff fmt).1 ⟨n, le_antisymm ?_ ((le_abs_self _).trans hle)⟩
    rw [hceil]
    exact Int.le_ceil _
  · obtain ⟨n, hn, hfloat⟩ := exists_selects_rounded_gradual rule hx
    exact (isIntegralOf_rounded_iff hn hfloat).2
      (abs_le_greatestFinite_of_dist_lt_one hx hn.dist_lt_one hle)

/-- With two exponent bits three and a half is rounded to infinity, although three is as near to it as four. -/
theorem rounded_not_isIntegralOf_overflow :
    let fmt : FloatFormat := { exponentBits := 2, fractionBits := 5 }
    let x : BinaryFloat fmt := ofBits 0x58
    x.isFinite = true ∧ x.value = 7 / 2 ∧ x.rounded .gradual .toNearestOrEven = infinity false ∧
      ¬IsIntegralOf .toNearestOrEven x (x.rounded .gradual .toNearestOrEven) ∧
      IsIntegralOf .toNearestOrEven x (ofBits 0x50) := by
  intro fmt x
  have hvalue : x.value = 7 / 2 := by decide +kernel
  have hthree : (ofBits 0x50 : BinaryFloat fmt).value = (3 : ℤ) := by decide +kernel
  have hround : x.rounded .gradual .toNearestOrEven = infinity false := by decide +kernel
  refine ⟨by decide, hvalue, hround, fun h => ?_, by decide, ⟨3, hthree⟩, ?_, fun _ => ?_⟩
  · exact absurd (hround ▸ h.isFinite) (by decide)
  · rw [hvalue, hthree]
    norm_num [abs_lt]
  · rw [hvalue, hthree]
    norm_num [abs_le]

end BinaryFloat

end MachineNumbers
