import Mathlib
import MachineNumbers.Proofs.CorrectRounding
import MachineNumbers.Proofs.Neighbour

/-!
# Square roots are rounded once

The square of a number half way between two floats has too many bits to be a float itself
(`midpoint_sq_ne_magnitude`), so the root of a float is never a tie, and the float lies strictly between the
squares of the two midpoints around the rounded root.  A root lies well within the range of the format, so
it is neither zero nor infinite, and not even the greatest number (`squareRoot_bounds`).  Zeros,
infinities and negative numbers are `RootRule`.
-/

namespace MachineNumbers

/-! ## Squares of midpoints -/

/-- An odd multiple of one power of two is a multiple of another only if that is no greater, and then by no
lesser factor. -/
theorem odd_mul_two_zpow {n k : ℕ} {a b : ℤ} (hn : n % 2 = 1)
    (h : (n : ℚ) * 2 ^ a = k * 2 ^ b) : b ≤ a ∧ n ≤ k := by
  have hle : b ≤ a := by
    by_contra hlt
    obtain ⟨d, hd⟩ := Int.eq_ofNat_of_zero_le (show 0 ≤ b - a - 1 by omega)
    rw [show b = (d + 1 : ℕ) + a by push_cast; omega, zpow_add₀ (by norm_num), ← mul_assoc, zpow_natCast] at h
    have heq := mul_right_cancel₀ (FloatFormat.two_zpow_pos a).ne' h
    have hnat : n = k * 2 ^ (d + 1) := by exact_mod_cast heq
    rw [pow_succ, ← Nat.mul_assoc] at hnat
    omega
  refine ⟨hle, ?_⟩
  have hpow : (2 : ℚ) ^ b ≤ 2 ^ a := zpow_le_zpow_right₀ (by norm_num) hle
  have hmul := mul_le_mul_of_nonneg_left hpow (Nat.cast_nonneg (α := ℚ) n)
  rw [h] at hmul
  exact_mod_cast le_of_mul_le_mul_right hmul (FloatFormat.two_zpow_pos b)

/-- The square of a number half way between two multiples of a unit is odd in a lesser unit. -/
theorem half_way_sq (k : ℕ) (c : ℤ) :
    (((k : ℚ) + 1 / 2) * 2 ^ c) ^ 2 = ((2 * k + 1) * (2 * k + 1) : ℕ) * 2 ^ (2 * c - 2) := by
  rw [show 2 * c - 2 = c + c + (-2) by ring, zpow_add₀ (by norm_num), zpow_add₀ (by norm_num)]
  push_cast
  ring

namespace FloatFormat

variable {fmt : FloatFormat}

/-- The square of a midpoint has a bit below all that a magnitude can have, or more bits than one has. -/
theorem midpoint_sq_ne_magnitude (u w : ℕ) : fmt.midpoint u ^ 2 ≠ fmt.magnitude w := by
  obtain ⟨e, k, rfl, hlow, hhigh⟩ := fmt.exists_binade u
  obtain ⟨e', k', rfl, hlow', hhigh'⟩ := fmt.exists_binade w
  rw [fmt.midpoint_binade hlow hhigh, fmt.magnitude_binade hlow' hhigh'.le]
  intro h
  rw [half_way_sq] at h
  obtain ⟨hexp, hsig⟩ := odd_mul_two_zpow (by simp [Nat.mul_mod, Nat.add_mod]) h
  -- below the least normal number the square has a bit below the last place, and above it too many bits
  rcases hlow with rfl | hk
  · have := fmt.minExp_nonpos
    omega
  · have hpos := fmt.hiddenBit_pos
    have := Nat.mul_le_mul_left (2 * k + 1) (show 2 ≤ 2 * k + 1 by omega)
    omega

/-- A midpoint below the root of a magnitude is strictly below it. -/
theorem midpoint_sq_lt {u w : ℕ} (h : (fmt.midpoint u : ℝ) ≤ √(fmt.magnitude w : ℝ)) :
    fmt.midpoint u ^ 2 < fmt.magnitude w := by
  have hu : (0 : ℝ) ≤ fmt.midpoint u := by exact_mod_cast fmt.midpoint_nonneg u
  have hw : (0 : ℝ) ≤ fmt.magnitude w := by exact_mod_cast fmt.magnitude_nonneg w
  rw [Real.le_sqrt hu hw] at h
  exact lt_of_le_of_ne (by exact_mod_cast h) (midpoint_sq_ne_magnitude u w)

/-- A midpoint above the root of a magnitude is strictly above it. -/
theorem lt_midpoint_sq {u w : ℕ} (h : √(fmt.magnitude w : ℝ) ≤ fmt.midpoint u) :
    fmt.magnitude w < fmt.midpoint u ^ 2 := by
  have hle := (Real.sqrt_le_iff.1 h).2
  exact lt_of_le_of_ne (by exact_mod_cast hle) (midpoint_sq_ne_magnitude u w).symm

/-! ## The range of roots -/

/-- The greatest power of two among the numbers lies one binade below infinity. -/
theorem exists_word_maxLead (fmt : FloatFormat) :
    ∃ w, w + fmt.hiddenBit = fmt.infinityWord ∧ fmt.magnitude w = 2 ^ fmt.maxLead := by
  have hbias := fmt.one_le_bias
  refine ⟨(2 * fmt.bias - 1) * fmt.hiddenBit + fmt.hiddenBit, ?_, ?_⟩
  · rw [fmt.infinityWord_eq, Nat.add_assoc, ← Nat.two_mul, ← Nat.add_mul]
    congr 1
    omega
  · rw [fmt.magnitude_bottom]
    congr 1
    unfold minLead maxLead
    omega

/-- The roots of all numbers of a format are less than its greatest power of two. -/
theorem sqrt_lt_two_pow_maxLead {v : ℚ} (hv : v < 2 ^ (fmt.maxLead + 1)) : √(v : ℝ) < 2 ^ fmt.maxLead := by
  have htwo : (2 : ℝ) ≤ 2 ^ fmt.maxLead := by
    have hlead : (1 : ℤ) ≤ fmt.maxLead := by
      have := fmt.one_le_bias
      unfold maxLead
      omega
    simpa using zpow_le_zpow_right₀ (one_le_two (α := ℝ)) hlead
  have hv' := (Rat.cast_lt (K := ℝ)).2 hv
  push_cast at hv'
  rw [Real.sqrt_lt' (by positivity), pow_two]
  calc (v : ℝ) < 2 ^ fmt.maxLead * 2 := by rwa [zpow_add_one₀ (by norm_num)] at hv'
    _ ≤ 2 ^ fmt.maxLead * 2 ^ fmt.maxLead := mul_le_mul_of_nonneg_left htwo (by positivity)

/-- They are no less than the least number, which is at most one. -/
theorem magnitude_one_le_sqrt {v : ℚ} (hv : fmt.magnitude 1 ≤ v) : (fmt.magnitude 1 : ℝ) ≤ √(v : ℝ) := by
  have hnonneg : (0 : ℝ) ≤ fmt.magnitude 1 := by exact_mod_cast fmt.magnitude_nonneg 1
  have hone : (fmt.magnitude 1 : ℝ) ≤ 1 := by
    rw [magnitude_one]
    push_cast
    exact zpow_le_one_of_nonpos₀ one_le_two fmt.minExp_nonpos
  refine Real.le_sqrt_of_sq_le ?_
  calc (fmt.magnitude 1 : ℝ) ^ 2 ≤ fmt.magnitude 1 := by
        rw [pow_two]
        exact mul_le_of_le_one_left hnonneg hone
    _ ≤ v := by exact_mod_cast hv

end FloatFormat

namespace BinaryFloat

variable {fmt : FloatFormat} {x : BinaryFloat fmt}

theorem squareRoot_isRounding (hx : x.isFinite = true) (hpos : 0 ≤ x.value) :
    IsRounding √(x.value : ℝ) (x.squareRoot .gradual) :=
  (Operation.squareRoot x).eval_isRounding (Operation.exactResult?_squareRoot hx hpos)

/-- Rounded roots are positive numbers of the format, and not the greatest one. -/
theorem squareRoot_bounds (hx : x.isFinite = true) (hpos : 0 < x.value) :
    (x.squareRoot .gradual).sign = false ∧ (x.squareRoot .gradual).isFinite = true ∧
      0 < (x.squareRoot .gradual).word ∧ (x.squareRoot .gradual).word + 1 < fmt.infinityWord := by
  have hround := squareRoot_isRounding hx hpos.le
  generalize x.squareRoot .gradual = r at *
  have hroot : 0 < √(x.value : ℝ) := Real.sqrt_pos.2 (by exact_mod_cast hpos)
  have hs := hround.sign_eq_false hroot
  have hmagnitude := value_of_pos hpos
  have hword := (isFinite_iff x).1 hx
  obtain ⟨top, htop, hvalue⟩ := fmt.exists_word_maxLead
  have htwo := fmt.two_le_hiddenBit
  have hlt : √(x.value : ℝ) < fmt.magnitude top := by
    rw [hvalue]
    push_cast
    refine FloatFormat.sqrt_lt_two_pow_maxLead ?_
    rw [← fmt.magnitude_infinityWord, hmagnitude]
    exact fmt.magnitude_lt_iff.2 hword
  have hfinite : r.isFinite = true := by
    refine hround.isFinite_of_lt ?_
    rw [abs_of_pos hroot]
    exact hlt.trans (by exact_mod_cast magnitude_lt_overflowBound (by omega))
  have hleast : fmt.magnitude 1 ≤ x.value := by
    rw [hmagnitude, fmt.magnitude_le_iff]
    exact fmt.magnitude_pos_iff.1 (hmagnitude ▸ hpos)
  have hlow := hround.le_word hs hfinite (w := 1) (by omega) (FloatFormat.magnitude_one_le_sqrt hleast)
  have hhigh := hround.word_le hs hfinite (w := top) (by omega) hlt
  exact ⟨hs, hfinite, hlow, by omega⟩

/-! ## Rounded roots -/

/-- `r` is the root of the positive number `v`, rounded: the number nearest to it, so that `v` lies strictly
between the squares of the midpoints from `r` to its two neighbours. -/
structure IsRoundedRoot (v : ℚ) (r : BinaryFloat fmt) : Prop extends IsRounding √(v : ℝ) r where
  isFinite : r.isFinite = true
  pos : 0 < r.value
  isFinite_nextUp : (r.nextUp .gradual).isFinite = true
  isFinite_nextDown : (r.nextDown .gradual).isFinite = true
  lower : (((r.nextDown .gradual).value + r.value) / 2) ^ 2 < v
  upper : v < ((r.value + (r.nextUp .gradual).value) / 2) ^ 2

theorem squareRoot_isRoundedRoot (hx : x.isFinite = true) (hpos : 0 < x.value) :
    IsRoundedRoot x.value (x.squareRoot .gradual) := by
  have hround := squareRoot_isRounding hx hpos.le
  obtain ⟨hs, hfinite, hlow, hhigh⟩ := squareRoot_bounds hx hpos
  generalize x.squareRoot .gradual = r at *
  have h0 : r.isZero = false := (isZero_eq_false_iff r).2 hlow.ne'
  have hmagnitude := value_of_pos hpos
  obtain ⟨hup, hupvalue⟩ := nextUp_value hs h0 hhigh
  obtain ⟨hdown, hdownvalue⟩ := nextDown_value hs h0 hfinite
  have hbelow := hround.midpoint_le hs hfinite hlow
  have habove := hround.le_midpoint hs hhigh
  rw [hmagnitude] at hbelow habove
  refine ⟨hround, hfinite, ?_, hup, hdown, ?_, ?_⟩
  · rw [value_of_sign_eq_false hs]
    exact fmt.magnitude_pos_iff.2 hlow
  · have hlt := FloatFormat.midpoint_sq_lt hbelow
    rw [FloatFormat.midpoint, Nat.sub_add_cancel hlow] at hlt
    rwa [hdownvalue, value_of_sign_eq_false hs, hmagnitude]
  · have hlt := FloatFormat.lt_midpoint_sq habove
    rw [FloatFormat.midpoint] at hlt
    rwa [hupvalue, value_of_sign_eq_false hs, hmagnitude]

/-! ## Other operands -/

/-- What becomes of any operand `a`. -/
structure RootRule (a root : BinaryFloat fmt) : Prop where
  rounded : a.isFinite = true → 0 < a.value → IsRoundedRoot a.value root
  zero : a.isZero = true → root = a
  infinite : a.isInfinite = true → a.sign = false → root = a
  negative : a.isNaN = false → a.sign = true → a.isZero = false → root = nan

theorem squareRoot_of_isZero (h : x.isZero = true) : x.squareRoot .gradual = x := by
  have hsig := (unpack_sig_eq_zero x).2 h
  have heq : x = zero x.sign := (eq_zero_iff _).2 ⟨h, rfl⟩
  simp [squareRoot, isNaN_of_isFinite (isFinite_of_isZero h), hsig, unpack_sign, ← heq]

theorem squareRoot_of_isInfinite (h : x.isInfinite = true) (hs : x.sign = false) :
    x.squareRoot .gradual = x := by
  have hsig := unpack_sig_ne_zero (isZero_of_isInfinite h)
  simp [squareRoot, isNaN_of_isInfinite h, hsig, unpack_sign, hs, h]

theorem squareRoot_of_negative (hn : x.isNaN = false) (hs : x.sign = true) (h0 : x.isZero = false) :
    x.squareRoot .gradual = nan := by
  have hsig := unpack_sig_ne_zero h0
  simp [squareRoot, hn, hsig, unpack_sign, hs]

/-- Square roots are rounded once: the root of a positive number is the float nearest to the exact root, and
the number lies strictly between the squares of the midpoints to its neighbours, so there are no ties.  Each
zero and positive infinity is its own root, and all other negative operands have none. -/
theorem squareRoot_rounded (x : BinaryFloat fmt) : RootRule x (x.squareRoot .gradual) where
  rounded := squareRoot_isRoundedRoot
  zero := squareRoot_of_isZero
  infinite := squareRoot_of_isInfinite
  negative := squareRoot_of_negative

/-- Six times the least number is subnormal, is normalised to an odd exponent, and has an irrational root. -/
theorem squareRoot_rounded_subnormal :
    (ofBits 6 : BinaryFloat .binary64).isFinite = true ∧
    0 < (ofBits 6 : BinaryFloat .binary64).value ∧
    IsRoundedRoot (ofBits 6 : BinaryFloat .binary64).value
      (ofBits 0x1e73988e1409212e : BinaryFloat .binary64) := by
  have hx : (ofBits 6 : BinaryFloat .binary64).isFinite = true := by decide +kernel
  have hpos : 0 < (ofBits 6 : BinaryFloat .binary64).value := by
    rw [value_of_sign_eq_false (by decide +kernel), FloatFormat.magnitude_pos_iff]
    decide +kernel
  have hresult : (ofBits 6 : BinaryFloat .binary64).squareRoot .gradual =
      ofBits 0x1e73988e1409212e := by decide +kernel
  have h := (squareRoot_rounded (ofBits 6 : BinaryFloat .binary64)).rounded hx hpos
  rw [hresult] at h
  exact ⟨hx, hpos, h⟩

end BinaryFloat

end MachineNumbers
