import Mathlib

/-!
# Leading and trailing bits

A shift moves the leading bit by as many places (`shiftLeft_bounds`), so the shift that is missing up to a
place puts it there (`shiftLeft_sub_bounds`), and an exponent that is less by the shift keeps the number
(`shiftLeft_mul_zpow`).  A power of two divides the numbers without bits below its own (`two_pow_dvd_iff`).
-/

namespace MachineNumbers

variable {n k d : ℕ}

/-- A word cut at a place is what stands above it, moved back, and the rest. -/
theorem shiftRight_mul_add_mod (n k : ℕ) : n >>> k * 2 ^ k + n % 2 ^ k = n := by
  rw [Nat.shiftRight_eq_div_pow, Nat.div_add_mod']

/-! ## The leading bit -/

theorem shiftLeft_bounds (h0 : n ≠ 0) (k : ℕ) :
    2 ^ (n.log2 + k) ≤ n <<< k ∧ n <<< k < 2 ^ (n.log2 + k + 1) := by
  rw [Nat.shiftLeft_eq, Nat.add_right_comm, pow_add, pow_add]
  exact ⟨Nat.mul_le_mul_right _ (Nat.log2_self_le h0),
    Nat.mul_lt_mul_of_pos_right Nat.lt_log2_self (Nat.two_pow_pos k)⟩

/-- The leading bit is moved to a place above it. -/
theorem shiftLeft_sub_bounds (h0 : n ≠ 0) (hk : n.log2 ≤ k) :
    2 ^ k ≤ n <<< (k - n.log2) ∧ n <<< (k - n.log2) < 2 ^ (k + 1) := by
  have h := shiftLeft_bounds h0 (k - n.log2)
  rwa [Nat.add_sub_of_le hk] at h

/-- An exponent that is less by the shift makes up for it. -/
theorem shiftLeft_mul_zpow (n k : ℕ) (e : ℤ) : ((n <<< k : ℕ) : ℚ) * 2 ^ (e - k) = n * 2 ^ e := by
  rw [Nat.shiftLeft_eq, Nat.cast_mul, Nat.cast_pow, Nat.cast_ofNat, mul_assoc, ← zpow_natCast,
    ← zpow_add₀ (by norm_num), add_sub_cancel]

theorem log2_two_mul_add_one (h : 0 < n) : (2 * n + 1).log2 = n.log2 + 1 := by
  rw [Nat.log2_eq_iff (by omega)]
  have h1 := Nat.log2_self_le h.ne'
  have h2 := @Nat.lt_log2_self n
  rw [pow_succ, pow_succ _ (n.log2 + 1)]
  omega

/-! ## Trailing bits -/

theorem two_pow_dvd_iff : 2 ^ d ∣ n ↔ ∀ i < d, n.testBit i = false := by
  rw [Nat.dvd_iff_mod_eq_zero]
  constructor
  · intro h i hi
    have hbit := Nat.testBit_mod_two_pow n d i
    rw [h, Nat.zero_testBit, decide_eq_true hi, Bool.true_and] at hbit
    exact hbit.symm
  · intro h
    refine Nat.zero_of_testBit_eq_false fun i => ?_
    rw [Nat.testBit_mod_two_pow]
    by_cases hi : i < d
    · rw [h i hi, Bool.and_false]
    · rw [decide_eq_false hi, Bool.false_and]

end MachineNumbers
