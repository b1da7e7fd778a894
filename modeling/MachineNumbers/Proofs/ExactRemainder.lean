import Mathlib
import MachineNumbers.Proofs.Arithmetic.Reduction
import MachineNumbers.Proofs.Representable

/-!
# Remainders are exact

A remainder `x - n × y` is no greater than `y`, because `n` is the quotient `x / y` rounded to an integer,
and no greater than `x`, because zero would be such an integer too.  So it is a number of the format, and
both remainders give it without rounding: `remainder_exact` for the integer nearest to the quotient, ties
to even, and `truncatingRemainder_exact` for the quotient without its fraction, together with the loop
that reduces the dividend.
-/

namespace MachineNumbers

/-- The format with the widest range of exponents. -/
def FloatFormat.widest : FloatFormat := { exponentBits := 15, fractionBits := 48 }

/-! ## Rounded quotients -/

/-- `n` is the integer nearest to `q`, and the even one if another is as near. -/
structure IsNearestEven (q : ℚ) (n : ℤ) : Prop where
  nearest : ∀ m : ℤ, |q - n| ≤ |q - m|
  even_of_tie : ∀ m : ℤ, m ≠ n → |q - m| = |q - n| → Even n

/-- No number is less than one half away from two integers. -/
theorem one_le_dist_add_dist (q : ℚ) {m n : ℤ} (hne : m ≠ n) : 1 ≤ |q - m| + |q - n| := by
  have hint : (1 : ℤ) ≤ |m - n| := Int.one_le_abs (sub_ne_zero.2 hne)
  calc (1 : ℚ) ≤ |(m : ℚ) - n| := by exact_mod_cast hint
    _ ≤ |(m : ℚ) - q| + |q - n| := abs_sub_le _ _ _
    _ = |q - m| + |q - n| := by rw [abs_sub_comm (m : ℚ)]

theorem isNearestEven_nearestEven (q : ℚ) : IsNearestEven q (nearestEven q) := by
  obtain ⟨hle, heven⟩ := nearestEven_spec q
  refine ⟨fun m => ?_, fun m hne htie => ?_⟩
  · rcases eq_or_ne m (nearestEven q) with rfl | hne
    · exact le_rfl
    · linarith [one_le_dist_add_dist q hne]
  · have hhalf := one_le_dist_add_dist q hne
    exact Int.even_iff.2 (heven (le_antisymm hle (by linarith)))

theorem dist_nearestEven_le (q : ℚ) : |q - nearestEven q| ≤ |q| := by
  simpa using (isNearestEven_nearestEven q).nearest 0

/-- What a number loses with its fraction. -/
theorem dist_truncated (q : ℚ) : |q - truncated q| < 1 ∧ |q - truncated q| ≤ |q| := by
  rcases lt_or_ge q 0 with hq | hq
  · have hceil : (⌈q⌉ : ℚ) ≤ 0 := by exact_mod_cast Int.ceil_le.2 (by simpa using hq.le)
    rw [truncated, if_pos hq, abs_of_neg hq, abs_of_nonpos (by linarith [Int.le_ceil q])]
    constructor
    · linarith [Int.ceil_lt_add_one q]
    · linarith
  · have hfloor : (0 : ℚ) ≤ ⌊q⌋ := by exact_mod_cast Int.floor_nonneg.2 hq
    rw [truncated_of_nonneg hq, abs_of_nonneg hq, abs_of_nonneg (by linarith [Int.floor_le q])]
    constructor
    · linarith [Int.lt_floor_add_one q]
    · linarith

/-- A remainder over the divisor is what the quotient loses. -/
theorem abs_sub_mul_eq {x y : ℚ} (hy : y ≠ 0) (n : ℤ) : |x - n * y| = |x / y - n| * |y| := by
  rw [← abs_mul, sub_mul, div_mul_cancel₀ x hy]

namespace BinaryFloat

variable {fmt : FloatFormat} {x y : BinaryFloat fmt}

theorem represents_remainder (hx : x.isFinite = true) (hy : y.isFinite = true)
    (hy0 : y.isZero = false) {n : ℤ} (hone : |x.value / y.value - n| ≤ 1)
    (hle : |x.value / y.value - n| ≤ |x.value / y.value|) :
    fmt.Represents (x.value - n * y.value) := by
  have habs := abs_sub_mul_eq (x := x.value) (value_ne_zero hy0)
  refine FloatFormat.represents_sub_mul hx hy n ?_ ?_
  · have hzero := habs 0
    rw [Int.cast_zero, zero_mul, sub_zero, sub_zero] at hzero
    rw [habs, hzero]
    exact mul_le_mul_of_nonneg_right hle (abs_nonneg _)
  · rw [habs]
    exact mul_le_of_le_one_left (abs_nonneg _) hone

/-- `r` is exactly what is left of `x` after `n` times `y`, with the sign of `x` if that is nothing. -/
structure IsRemainder (x y : BinaryFloat fmt) (n : ℤ) (r : BinaryFloat fmt) : Prop where
  isFinite : r.isFinite = true
  value : r.value = x.value - n * y.value
  sign_of_isZero : r.isZero = true → r.sign = x.sign

/-! ## The nearest remainder -/

theorem remainder_value (hx : x.isFinite = true) (hy : y.isFinite = true) (hy0 : y.isZero = false) :
    (x.remainder .gradual y).isFinite = true ∧ (x.remainder .gradual y).value =
      x.value - nearestEven (x.value / y.value) * y.value :=
  (Operation.remainder x y).eval_of_represents (Operation.exactResult?_remainder hx hy hy0)
    (represents_remainder hx hy hy0 (by linarith [(nearestEven_spec (x.value / y.value)).1])
      (dist_nearestEven_le _))

end BinaryFloat

theorem Unpacked.value_eq_zero_iff {a : Unpacked} : a.value = 0 ↔ a.sig = 0 := by
  have hunit : (2 : ℚ) ^ a.exp ≠ 0 := by positivity
  rw [← abs_eq_zero, Unpacked.abs_value, mul_eq_zero, or_iff_left hunit, Nat.cast_eq_zero]

/-- The kernel gives no zero the sign that is opposite to the dividend's. -/
theorem Unpacked.nearestRemainder_sign {a b : Unpacked} (h : (a.nearestRemainder b).sig = 0) :
    (a.nearestRemainder b).sign = a.sign := by
  unfold nearestRemainder at h ⊢
  exact if_pos h

namespace BinaryFloat

variable {fmt : FloatFormat} {x y : BinaryFloat fmt}

/-- Both remainders of a zero are that zero again. -/
theorem remainderSpecial?_of_isZero (hx : x.isZero = true) (hy : y.isFinite = true)
    (hy0 : y.isZero = false) : x.remainderSpecial? .gradual y = some x := by
  have hxf := isFinite_of_isZero hx
  have hpacked : roundPack .gradual (x.unpack .gradual) false = x := by
    rw [roundPack_of_sig_eq_zero _ ((unpack_sig_eq_zero x).2 hx), unpack_sign]
    exact ((eq_zero_iff _).2 ⟨hx, rfl⟩).symm
  simp [remainderSpecial?, propagatedNaN?_eq_none hxf hy, isInfinite_of_isFinite hxf,
    readsAsZero_gradual, hx, hy0, hpacked]

theorem remainder_sign_of_isZero (hx : x.isFinite = true) (hy : y.isFinite = true)
    (hy0 : y.isZero = false) (h : (x.remainder .gradual y).isZero = true) :
    (x.remainder .gradual y).sign = x.sign := by
  cases hx0 : x.isZero with
  | true => simp [remainder, remainderSpecial?_of_isZero hx0 hy hy0]
  | false =>
  have heval : x.remainder .gradual y = _ :=
    Operation.remainder_eval hx hy hx0 hy0 .gradual (Operation.plain_gradual _)
  have hvalue := (remainder_value hx hy hy0).2
  rw [value_of_isZero h] at hvalue
  rw [heval]
  split
  · rw [roundPack_sign, unpack_sign]
  · -- the result is zero because the exact remainder is, and then so is the significand
    have hkernel := Unpacked.value_nearestRemainder (unpack_sig_lt_two_pow_64 x)
      (unpack_sig_ne_zero hy0)
    rw [value_unpack, value_unpack, ← hvalue] at hkernel
    rw [roundPack_sign, Unpacked.nearestRemainder_sign (Unpacked.value_eq_zero_iff.1 hkernel), unpack_sign]

/-- The nearest remainder is exact: of two numbers it is `x - n × y` for the integer `n` nearest to `x / y`,
and the even one of two.  So it is at most half of `y`, and a zero has the sign of `x`. -/
theorem remainder_exact (hx : x.isFinite = true) (hy : y.isFinite = true) (hy0 : y.isZero = false) :
    (∃ n : ℤ, IsNearestEven (x.value / y.value) n ∧ IsRemainder x y n (x.remainder .gradual y)) ∧
    |(x.remainder .gradual y).value| ≤ |y.value| / 2 := by
  obtain ⟨hfinite, hvalue⟩ := remainder_value hx hy hy0
  refine ⟨⟨_, isNearestEven_nearestEven _, hfinite, hvalue, remainder_sign_of_isZero hx hy hy0⟩, ?_⟩
  rw [hvalue, abs_sub_mul_eq (value_ne_zero hy0)]
  have := mul_le_mul_of_nonneg_right (nearestEven_spec (x.value / y.value)).1 (abs_nonneg y.value)
  linarith

/-- In the format with the widest exponents, the greatest number lies 32765 places above three times the least
one.  It is one step less than a multiple of that. -/
theorem remainder_exact_widest :
    (greatestFinite : BinaryFloat .widest).isFinite = true ∧
    (ofBits 3 : BinaryFloat .widest).isFinite = true ∧
    (ofBits 3 : BinaryFloat .widest).isZero = false ∧
    (∃ n : ℤ, IsNearestEven ((greatestFinite : BinaryFloat .widest).value /
        (ofBits 3 : BinaryFloat .widest).value) n ∧
      IsRemainder greatestFinite (ofBits 3 : BinaryFloat .widest) n (-leastNonzero)) ∧
    |(-leastNonzero : BinaryFloat .widest).value| ≤ |(ofBits 3 : BinaryFloat .widest).value| / 2 := by
  have hx : (greatestFinite : BinaryFloat .widest).isFinite = true := by decide +kernel
  have hy : (ofBits 3 : BinaryFloat .widest).isFinite = true := by decide +kernel
  have hy0 : (ofBits 3 : BinaryFloat .widest).isZero = false := by decide +kernel
  have hresult : (greatestFinite : BinaryFloat .widest).remainder .gradual (ofBits 3) =
      -leastNonzero := by decide +kernel
  have h := remainder_exact hx hy hy0
  rw [hresult] at h
  exact ⟨hx, hy, hy0, h⟩

/-! ## The truncating remainder -/

theorem truncatingRemainder_value (hx : x.isFinite = true) (hy : y.isFinite = true)
    (hy0 : y.isZero = false) :
    (x.truncatingRemainder .gradual y).isFinite = true ∧ (x.truncatingRemainder .gradual y).value =
      x.value - truncated (x.value / y.value) * y.value :=
  (Operation.truncatingRemainder x y).eval_of_represents
    (Operation.exactResult?_truncatingRemainder hx hy hy0)
    (represents_remainder hx hy hy0 (dist_truncated _).1.le (dist_truncated _).2)

theorem truncatingRemainder_sign (hx : x.isFinite = true) (hy : y.isFinite = true)
    (hy0 : y.isZero = false) : (x.truncatingRemainder .gradual y).sign = x.sign := by
  cases hx0 : x.isZero with
  | true => simp [truncatingRemainder, remainderSpecial?_of_isZero hx0 hy hy0]
  | false =>
  have heval : x.truncatingRemainder .gradual y = _ :=
    Operation.truncatingRemainder_eval hx hy hx0 hy0 .gradual (Operation.plain_gradual _)
  rw [heval, roundPack_sign, unpack_sign]

/-- The truncating remainder is exact: of two numbers it is `x` less `y` times their quotient without its
fraction, less than `y` and with the sign of `x` in any case.  The loop that reduces a dividend ends
from every gap of exponents with the residue that is the remainder; all the residues that it computes until
then are less than the divisor, and none outgrows 128 bits when it is shifted. -/
theorem truncatingRemainder_exact (hx : x.isFinite = true) (hy : y.isFinite = true)
    (hy0 : y.isZero = false) :
    IsRemainder x y (truncated (x.value / y.value)) (x.truncatingRemainder .gradual y) ∧
    |(x.truncatingRemainder .gradual y).value| < |y.value| ∧
    (x.truncatingRemainder .gradual y).sign = x.sign ∧
    ∀ (mx : ℕ) (ex ey : ℤ), ey ≤ ex →
      Reduction.EndsWith (y.unpack .gradual).sig ⟨mx % (y.unpack .gradual).sig, (ex - ey).toNat⟩
        (remainderAt mx ex (y.unpack .gradual).sig ey).1 := by
  obtain ⟨hfinite, hvalue⟩ := truncatingRemainder_value hx hy hy0
  have hsign := truncatingRemainder_sign hx hy hy0
  refine ⟨⟨hfinite, hvalue, fun _ => hsign⟩, ?_, hsign, fun mx ex ey hle => ?_⟩
  · rw [hvalue, abs_sub_mul_eq (value_ne_zero hy0)]
    exact mul_lt_of_lt_one_left (abs_pos.2 (value_ne_zero hy0)) (dist_truncated _).1
  · refine Reduction.endsWith_remainderAt ?_ (unpack_sig_lt_two_pow_64 y).le hle
    exact Nat.pos_of_ne_zero (unpack_sig_ne_zero hy0)

/-- The same two numbers, whose quotient without its fraction leaves twice the least number. -/
theorem truncatingRemainder_exact_widest :
    ((greatestFinite : BinaryFloat .widest).isFinite = true ∧
      (ofBits 3 : BinaryFloat .widest).isFinite = true ∧
      (ofBits 3 : BinaryFloat .widest).isZero = false ∧ (0 : ℤ) ≤ 32765) ∧
    IsRemainder greatestFinite (ofBits 3 : BinaryFloat .widest)
      (truncated ((greatestFinite : BinaryFloat .widest).value /
        (ofBits 3 : BinaryFloat .widest).value)) (ofBits 2) ∧
    Reduction.EndsWith 3 ⟨1, 32765⟩ 2 := by
  have hx : (greatestFinite : BinaryFloat .widest).isFinite = true := by decide +kernel
  have hy : (ofBits 3 : BinaryFloat .widest).isFinite = true := by decide +kernel
  have hy0 : (ofBits 3 : BinaryFloat .widest).isZero = false := by decide +kernel
  have hle : (0 : ℤ) ≤ 32765 := by decide
  have hresult : (greatestFinite : BinaryFloat .widest).truncatingRemainder .gradual (ofBits 3) =
      ofBits 2 := by decide +kernel
  have hsig : ((ofBits 3 : BinaryFloat .widest).unpack .gradual).sig = 3 := by decide +kernel
  have hlast : (remainderAt (2 ^ 49 - 1) 32765 3 0).1 = 2 := by decide +kernel
  obtain ⟨hexact, -, -, hloop⟩ := truncatingRemainder_exact hx hy hy0
  have hends := hloop (2 ^ 49 - 1) 32765 0 hle
  rw [hresult] at hexact
  rw [hsig, hlast] at hends
  exact ⟨⟨hx, hy, hy0, hle⟩, hexact, hends⟩

end BinaryFloat

end MachineNumbers
