import Mathlib
import MachineNumbers.Proofs.Decimal.Digits.Shortest

/-!
# The width of the interval and the size of the shortest decimal

No multiple of the place above the last digit is covered, so that place is at least as wide as the interval
(`IsShortest.width_le`).  A float is less than `2^precision` widths of its interval, also at a power of two,
where the interval is narrower below, so it has one digit more than the digits of `2^precision` at most
(`length_shortest_lt`).  The exponent of the last digit is near the binary one (`IsShortest.exp_bounds`).
-/

namespace MachineNumbers

namespace DigitTarget

variable {t : DigitTarget} {n len : ℕ} {p : ℤ}

/-! ## The width of the interval -/

theorem high_eq_quarter (t : DigitTarget) : t.high = (4 * t.sig + 2) * 2 ^ (t.exp - 2) := by
  unfold high
  rw [show t.exp - 1 = t.exp - 2 + 1 by ring, zpow_add_one₀ (by norm_num)]
  ring

/-- Half a unit on either side, but a quarter below a power of two. -/
theorem width_eq (t : DigitTarget) :
    t.high - t.low = if t.lowerCloser then 3 * 2 ^ (t.exp - 2) else 2 * 2 ^ (t.exp - 1) := by
  unfold low
  split
  · rw [high_eq_quarter]
    ring
  · unfold high
    ring

/-- Of an interval wider than the place above the last digit, the greatest multiple below the upper bound
would be covered. -/
theorem IsShortest.width_le (h : t.IsShortest n p) : t.high - t.low ≤ 10 ^ (p + 1) := by
  have hplace : (0 : ℚ) < 10 ^ (p + 1) := by positivity
  obtain ⟨m, hm⟩ : ∃ m, ⌈t.high / 10 ^ (p + 1)⌉₊ = m + 1 :=
    Nat.exists_eq_succ_of_ne_zero (Nat.ceil_pos.2 (div_pos t.high_pos hplace)).ne'
  have hbelow : (m : ℚ) * 10 ^ (p + 1) < t.high := by
    rw [← lt_div_iff₀ hplace, ← Nat.lt_ceil, hm]
    exact Nat.lt_succ_self m
  have hreach : t.high ≤ (m + 1 : ℚ) * 10 ^ (p + 1) := by
    rw [← div_le_iff₀ hplace]
    have hceil := Nat.le_ceil (t.high / 10 ^ (p + 1))
    rw [hm] at hceil
    exact_mod_cast hceil
  have hlow : (m : ℚ) * 10 ^ (p + 1) ≤ t.low := by
    by_contra hlt
    exact h.coarser m ⟨above_of_lt (not_le.1 hlt), below_of_lt hbelow⟩
  linarith

theorem IsShortest.two_zpow_lt (h : t.IsShortest n p) : (2 : ℚ) ^ (t.exp - 2) < 10 ^ (p + 1) := by
  have hunit : (0 : ℚ) < 2 ^ (t.exp - 2) := by positivity
  refine lt_of_lt_of_le ?_ h.width_le
  rw [width_eq]
  split
  · linarith
  · rw [show t.exp - 1 = t.exp - 2 + 1 by ring, zpow_add_one₀ (by norm_num)]
    linarith

/-! ## The exponent of the last digit -/

theorem two_zpow_le_ten_zpow {k : ℤ} (hk : 0 ≤ k) : (2 : ℚ) ^ k ≤ 10 ^ k := by
  obtain ⟨m, rfl⟩ := Int.eq_ofNat_of_zero_le hk
  rw [zpow_natCast, zpow_natCast]
  exact pow_le_pow_left₀ (by norm_num) (by norm_num) m

theorem ten_zpow_le_two_zpow {k : ℤ} (hk : k ≤ 0) : (10 : ℚ) ^ k ≤ 2 ^ k := by
  obtain ⟨m, hm⟩ := Int.eq_ofNat_of_zero_le (Int.neg_nonneg.2 hk)
  rw [show k = -(m : ℤ) by omega, zpow_neg, zpow_neg]
  apply inv_anti₀ (by positivity)
  rw [zpow_natCast, zpow_natCast]
  exact pow_le_pow_left₀ (by norm_num) (by norm_num) m

theorem IsShortest.exp_bounds (h0 : 0 < t.sig) (hlt : t.sig < 2 ^ 53) (h : t.IsShortest n p) :
    min 0 (t.exp - 2) ≤ p + 1 ∧ p ≤ max 0 (t.exp + 54) := by
  constructor
  · rcases Int.lt_or_le 0 (p + 1) with hp | hp
    · omega
    · have := h.two_zpow_lt.trans_le (ten_zpow_le_two_zpow hp)
      have := (zpow_lt_zpow_iff_right₀ (by norm_num : (1 : ℚ) < 2)).1 this
      omega
  · rcases Int.lt_or_le p 0 with hp | hp
    · omega
    · have hn : (1 : ℚ) ≤ n := by exact_mod_cast h.pos h0
      have hsig : (4 * t.sig + 2 : ℚ) ≤ 2 ^ (56 : ℤ) := by
        have h1 : 4 * t.sig + 2 ≤ 2 ^ 56 := by omega
        exact_mod_cast h1
      have hle : (2 : ℚ) ^ p ≤ 2 ^ (56 + (t.exp - 2)) := by
        calc (2 : ℚ) ^ p ≤ 10 ^ p := two_zpow_le_ten_zpow hp
          _ ≤ n * 10 ^ p := le_mul_of_one_le_left (by positivity) hn
          _ ≤ t.high := h.covers.2.le_high
          _ = (4 * t.sig + 2) * 2 ^ (t.exp - 2) := t.high_eq_quarter
          _ ≤ 2 ^ (56 : ℤ) * 2 ^ (t.exp - 2) := mul_le_mul_of_nonneg_right hsig (by positivity)
          _ = 2 ^ (56 + (t.exp - 2)) := (zpow_add₀ (by norm_num) _ _).symm
      have := (zpow_le_zpow_iff_right₀ (by norm_num : (1 : ℚ) < 2)).1 hle
      omega

/-! ## The number of digits -/

/-- The digits above the last two count widths of the interval. -/
theorem IsShortest.ten_pow_mul_width_le (h : t.IsShortest n p) (hlen : 10 ^ (len + 1) ≤ n) :
    10 ^ len * (t.high - t.low) ≤ t.high := by
  have hle : (10 : ℚ) ^ (len + 1) ≤ n := by exact_mod_cast hlen
  calc (10 : ℚ) ^ len * (t.high - t.low) ≤ 10 ^ len * 10 ^ (p + 1) :=
        mul_le_mul_of_nonneg_left h.width_le (by positivity)
    _ = 10 ^ (len + 1) * 10 ^ p := by
        rw [zpow_add_one₀ (by norm_num), pow_succ]
        ring
    _ ≤ n * 10 ^ p := mul_le_mul_of_nonneg_right hle (by positivity)
    _ ≤ t.high := h.covers.2.le_high

variable {fmt : FloatFormat} {x : BinaryFloat fmt}

theorem IsShortest.ten_pow_lt (h : (ofFloat x).IsShortest n p) (hlen : 10 ^ (len + 1) ≤ n) :
    10 ^ len < 2 ^ fmt.precision := by
  obtain ⟨e, -, -, -, hlt, hcloser⟩ := ofFloat_binade x
  have hbit := fmt.two_le_hiddenBit
  have hwidth := h.ten_pow_mul_width_le hlen
  rw [width_eq] at hwidth
  rw [fmt.two_pow_precision]
  split at hwidth
  · next hpower =>
    -- at a power of two the significand is the least one, which makes up for the narrower interval
    obtain ⟨-, hsig⟩ := hcloser.1 hpower
    have hunit : (0 : ℚ) < 2 ^ ((ofFloat x).exp - 2) := by positivity
    rw [high_eq_quarter, ← mul_assoc, mul_le_mul_iff_of_pos_right hunit, hsig] at hwidth
    have hnat : 10 ^ len * 3 ≤ 4 * fmt.hiddenBit + 2 := by exact_mod_cast hwidth
    omega
  · have hunit : (0 : ℚ) < 2 ^ ((ofFloat x).exp - 1) := by positivity
    rw [high, ← mul_assoc, mul_le_mul_iff_of_pos_right hunit] at hwidth
    have hnat : 10 ^ len * 2 ≤ 2 * (ofFloat x).sig + 1 := by exact_mod_cast hwidth
    omega

/-- More than one digit is at most one more than the digits of `2^precision`. -/
theorem length_shortest_lt (h0 : x.isZero = false) (hmany : 1 < (ofFloat x).shortest.digits.length) :
    10 ^ ((ofFloat x).shortest.digits.length - 2) < 2 ^ fmt.precision := by
  have h := shortest_ofFloat h0
  refine h.shortest.ten_pow_lt ?_
  rw [show (ofFloat x).shortest.digits.length - 2 + 1 = (ofFloat x).shortest.digits.length - 1 by omega]
  exact h.normal.mantissa_bounds.1

theorem length_shortest_le (h0 : x.isZero = false) : (ofFloat x).shortest.digits.length ≤ 17 := by
  rcases Nat.lt_or_ge 1 (ofFloat x).shortest.digits.length with hmany | hone
  · have hprecision : fmt.precision ≤ 53 := Nat.succ_le_succ fmt.fractionBits_le
    have hdigits : 10 ^ ((ofFloat x).shortest.digits.length - 2) < 10 ^ 16 :=
      calc 10 ^ ((ofFloat x).shortest.digits.length - 2) < 2 ^ fmt.precision := length_shortest_lt h0 hmany
        _ ≤ 2 ^ 53 := Nat.pow_le_pow_right (by decide) hprecision
        _ < 10 ^ 16 := by norm_num
    have := (Nat.pow_lt_pow_iff_right (by decide : 1 < 10)).1 hdigits
    omega
  · omega

end DigitTarget

end MachineNumbers
