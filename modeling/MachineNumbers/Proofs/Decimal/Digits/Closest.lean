import Mathlib
import MachineNumbers.Proofs.Decimal.Digits.Shortest

/-!
# Where the shortest digits are the closest

Both generators compare decimals at one place only: the shortest decimal is the nearest of the multiples
of its own power of ten.  Decimals of as many digits on a finer grid lie below the power of ten at the first
digit, so they can be covered only if that power is too, and then it is the shortest decimal itself, of one
digit (`IsShortest.dist_le_or_straddlesTen`).  It is printed although a nine below it may be nearer:
`shortest_isClosestTo_iff` says that this is the only way for a decimal of as many digits to be closer.
No target with a significand of ten or more is wide enough for it (`not_straddlesTen_of_ten_le`).
-/

namespace MachineNumbers

namespace DigitTarget

/-- Nine and ten units of a power of ten are both covered, and the target is nearer to the nine. -/
def StraddlesTen (t : DigitTarget) : Prop :=
  ∃ k : ℤ, t.Covers (9 * 10 ^ k) ∧ t.Covers (10 * 10 ^ k) ∧ t.value < 19 / 2 * 10 ^ k

variable {t : DigitTarget} {n : ℕ} {p : ℤ}

theorem Covers.between {a b c : ℚ} (ha : t.Covers a) (hb : t.Covers b) (hac : a ≤ c) (hcb : c ≤ b) :
    t.Covers c :=
  ⟨ha.1.mono hac, hb.2.mono hcb⟩

/-- The upper bound is half a unit of the significand away. -/
theorem high_sub_value_le {k : ℕ} (hk : k ≤ t.sig) : 2 * k * (t.high - t.value) ≤ t.value := by
  have hunit : (0 : ℚ) < 2 ^ (t.exp - 1) := by positivity
  have hk' : (k : ℚ) ≤ t.sig := by exact_mod_cast hk
  have hdist : t.high - t.value = 2 ^ (t.exp - 1) := by
    rw [value_eq_half, high]
    ring
  rw [hdist, value_eq_half]
  exact mul_le_mul_of_nonneg_right (by linarith) hunit.le

/-- A significand of ten or more is too narrow. -/
theorem not_straddlesTen_of_ten_le (h : 10 ≤ t.sig) : ¬t.StraddlesTen := by
  rintro ⟨k, -, hten, hnear⟩
  have hpow : (0 : ℚ) < 10 ^ k := by positivity
  have hwidth := high_sub_value_le h
  have hhigh := hten.2.le_high
  push_cast at hwidth
  linarith

theorem ten_zpow_eq (p : ℤ) : (10 : ℚ) ^ p = 10 * 10 ^ (p - 1) := by
  rw [← zpow_one_add₀ (by norm_num)]
  congr 1
  omega

/-- A power of ten that is covered from above is the nearest of its multiples. -/
theorem IsShortest.eq_one (h0 : 0 < t.sig) (h : t.IsShortest n p) (hten : t.Covers (10 ^ p))
    (hlt : t.value < 10 ^ p) : n = 1 := by
  have hpow : (0 : ℚ) < 10 ^ p := by positivity
  have hpos := h.pos h0
  have hnear := h.nearest 1 (by rwa [Nat.cast_one, one_mul])
  rw [Nat.cast_one, one_mul, abs_of_pos (by linarith : 0 < 10 ^ p - t.value)] at hnear
  have hle : (n : ℚ) * 10 ^ p ≤ 1 * 10 ^ p := by linarith [le_abs_self ((n : ℚ) * 10 ^ p - t.value)]
  have := le_of_mul_le_mul_right hle hpow
  exact le_antisymm (by exact_mod_cast this) hpos

/-- Where the target straddles ten units, these are the shortest decimal. -/
theorem IsShortest.of_straddle (h0 : 0 < t.sig) (h : t.IsShortest n p) {k : ℤ}
    (hten : t.Covers (10 * 10 ^ k)) (hnear : t.value < 19 / 2 * 10 ^ k) : n = 1 ∧ p = k + 1 := by
  have hpow : (0 : ℚ) < 10 ^ k := by positivity
  have hunit : (10 : ℚ) ^ (k + 1) = 10 * 10 ^ k := by rw [ten_zpow_eq, add_sub_cancel_right]
  have hle : k + 1 ≤ p := h.le_exp (m := 1) (by rwa [Nat.cast_one, one_mul, hunit])
  have hge : p ≤ k + 1 := by
    by_contra hlt
    -- the next power of ten is out of reach: the upper bound is at most half as far again as the target
    have hstep : (10 : ℚ) ^ (k + 2) ≤ 10 ^ p := zpow_le_zpow_right₀ (by norm_num) (by omega)
    have hone : (1 : ℚ) ≤ n := by exact_mod_cast h.pos h0
    have hhigh := h.covers.2.le_high
    have hmul := mul_le_mul_of_nonneg_right hone (by positivity : (0 : ℚ) ≤ 10 ^ p)
    have hwidth := high_sub_value_le (k := 1) h0
    have htwo : (10 : ℚ) ^ (k + 2) = 100 * 10 ^ k := by
      rw [zpow_add₀ (by norm_num)]
      norm_num [mul_comm]
    push_cast at hwidth
    linarith
  obtain rfl : p = k + 1 := by omega
  rw [← hunit] at hten
  exact ⟨h.eq_one h0 hten (by rw [hunit]; linarith), rfl⟩

/-- A decimal of no more digits that is closer to the target than the shortest one is on a finer grid, and
below the power of ten that the target straddles. -/
theorem IsShortest.dist_le_or_straddlesTen (h0 : 0 < t.sig) (h : t.IsShortest n p) {len c : ℕ} {q : ℤ}
    (hlen : 10 ^ len ≤ n) (hc : c < 10 ^ (len + 1)) (hcov : t.Covers (c * 10 ^ q)) :
    |n * 10 ^ p - t.value| ≤ |c * 10 ^ q - t.value| ∨ t.StraddlesTen := by
  rcases (h.le_exp hcov).eq_or_lt with rfl | hqp
  · exact Or.inl (h.nearest c hcov)
  have hunit : (0 : ℚ) < 10 ^ (p - 1) := by positivity
  have hfine : (10 : ℚ) ^ q ≤ 10 ^ (p - 1) := zpow_le_zpow_right₀ (by norm_num) (by omega)
  -- the power of ten at the first digit lies between the two decimals
  have hmid : t.Covers ((1 : ℕ) * 10 ^ (len + p)) := by
    have hsplit : (10 : ℚ) ^ (len + p) = 10 ^ len * 10 ^ p := by
      rw [zpow_add₀ (by norm_num), zpow_natCast]
    rw [Nat.cast_one, one_mul, hsplit]
    refine hcov.between h.covers ?_ ?_
    · have hcq : (c : ℚ) ≤ 10 ^ (len + 1) := by exact_mod_cast hc.le
      calc (c : ℚ) * 10 ^ q ≤ 10 ^ (len + 1) * 10 ^ (p - 1) := by gcongr
        _ = 10 ^ len * 10 ^ p := by
          rw [ten_zpow_eq p, pow_succ]
          ring
    · exact mul_le_mul_of_nonneg_right (by exact_mod_cast hlen) (by positivity)
  -- so it is the shortest decimal, of one digit
  obtain rfl : len = 0 := by
    by_contra hne
    exact h.not_covers h0 hlen (Nat.one_lt_pow hne (by decide)) _ hmid
  rw [Nat.cast_one, one_mul, Nat.cast_zero, zero_add] at hmid
  have hnine : (c : ℚ) * 10 ^ q ≤ 9 * 10 ^ (p - 1) := by
    have hc9 : (c : ℚ) ≤ 9 := by exact_mod_cast Nat.lt_succ_iff.1 hc
    gcongr
  have hten := ten_zpow_eq p
  rcases le_or_gt ((10 : ℚ) ^ p) t.value with hle | hlt
  · left
    have hnear := h.nearest 1 (by rwa [Nat.cast_one, one_mul])
    rw [Nat.cast_one, one_mul, abs_of_nonpos (by linarith : 10 ^ p - t.value ≤ 0)] at hnear
    rw [abs_of_nonpos (by linarith : c * 10 ^ q - t.value ≤ 0)]
    linarith
  · obtain rfl := h.eq_one h0 hmid hlt
    rw [Nat.cast_one, one_mul, abs_of_pos (by linarith)]
    rcases lt_or_ge t.value (19 / 2 * 10 ^ (p - 1)) with hnear | hfar
    · right
      refine ⟨p - 1, hcov.between hmid hnine (by linarith), ?_, hnear⟩
      rwa [← hten]
    · left
      rw [abs_of_nonpos (by linarith)]
      linarith

end DigitTarget

/-- Of the decimals with as many digits as `s` that round to the float without its sign, none is closer
to it than `s`. -/
def DigitString.IsClosestTo {fmt : FloatFormat} (s : DigitString) (x : BinaryFloat fmt) : Prop :=
  ∀ c e : ℤ, 10 ^ (s.digits.length - 1) ≤ |c| → |c| < 10 ^ s.digits.length →
    BinaryFloat.IsNearest (c * 10 ^ e) x.abs → |s.value - x.abs.value| ≤ |c * 10 ^ e - x.abs.value|

/-- Nine and ten units of a power of ten both round to the float without its sign, which is nearer to the
nine. -/
def BinaryFloat.StraddlesTen {fmt : FloatFormat} (x : BinaryFloat fmt) : Prop :=
  ∃ k : ℤ, IsNearest (9 * 10 ^ k) x.abs ∧ IsNearest (10 * 10 ^ k) x.abs ∧ x.abs.value < 19 / 2 * 10 ^ k

namespace DigitTarget

variable {fmt : FloatFormat} {x : BinaryFloat fmt}

theorem value_ofFloat_eq_abs (x : BinaryFloat fmt) : (ofFloat x).value = x.abs.value := by
  rw [value_ofFloat, BinaryFloat.value_of_sign_eq_false rfl]
  rfl

theorem straddlesTen_ofFloat_iff (hx : x.isFinite = true) (h0 : x.isZero = false) :
    (ofFloat x).StraddlesTen ↔ x.StraddlesTen := by
  refine exists_congr fun k => ?_
  rw [covers_iff_isNearest hx h0 (by positivity), covers_iff_isNearest hx h0 (by positivity),
    value_ofFloat_eq_abs]

/-- Ten units that the float straddles are its shortest decimal, and nine of them a closer one. -/
theorem not_isClosestTo_of_straddlesTen (hx : x.isFinite = true) (h0 : x.isZero = false)
    (hstraddles : x.StraddlesTen) : ¬(ofFloat x).shortest.IsClosestTo x := by
  intro hclosest
  have hsig := sig_ofFloat_pos ((BinaryFloat.isZero_eq_false_iff x).1 h0)
  have h := shortest_ofFloat h0
  obtain ⟨k, hnine, hten, hnear⟩ := hstraddles
  have hpow : (0 : ℚ) < 10 ^ k := by positivity
  rw [← covers_iff_isNearest hx h0 (by positivity)] at hten
  rw [← value_ofFloat_eq_abs] at hnear
  obtain ⟨hmantissa, hexp⟩ := h.shortest.of_straddle hsig hten hnear
  have hlen : (ofFloat x).shortest.digits.length = 1 := by
    have hle := h.normal.mantissa_bounds.1
    have hpos := h.normal.length_pos
    rw [hmantissa] at hle
    by_contra hne
    exact absurd hle (Nat.one_lt_pow (by omega) (by decide)).not_ge
  have hdist := hclosest 9 k (by rw [hlen]; decide) (by rw [hlen]; decide) (by exact_mod_cast hnine)
  rw [DigitString.value, hmantissa, hexp, Nat.cast_one, one_mul, ten_zpow_eq, add_sub_cancel_right,
    ← value_ofFloat_eq_abs, abs_of_pos (by linarith)] at hdist
  push_cast at hdist
  rcases abs_cases (9 * 10 ^ k - (ofFloat x).value) with ⟨habs, -⟩ | ⟨habs, -⟩
  · linarith
  · linarith

theorem isClosestTo_of_not_straddlesTen (hx : x.isFinite = true) (h0 : x.isZero = false)
    (hstraddles : ¬(ofFloat x).StraddlesTen) : (ofFloat x).shortest.IsClosestTo x := by
  have hsig := sig_ofFloat_pos ((BinaryFloat.isZero_eq_false_iff x).1 h0)
  have h := shortest_ofFloat h0
  intro c e _ hc hnearest
  rcases Int.lt_or_le c 0 with hneg | hnonneg
  · have hneg' : (c : ℚ) < 0 := by exact_mod_cast hneg
    exact absurd hnearest (not_isNearest_of_neg hx h0 (mul_neg_of_neg_of_pos hneg' (by positivity)))
  · obtain ⟨m, rfl⟩ := Int.eq_ofNat_of_zero_le hnonneg
    rw [abs_of_nonneg hnonneg, ← Nat.sub_add_cancel h.normal.length_pos] at hc
    rw [Int.cast_natCast, ← covers_iff_isNearest hx h0 (by positivity)] at hnearest
    rw [Int.cast_natCast, ← value_ofFloat_eq_abs]
    exact (h.shortest.dist_le_or_straddlesTen hsig h.normal.mantissa_bounds.1 (by exact_mod_cast hc)
      hnearest).resolve_right hstraddles

/-- The digits of a finite nonzero float are the closest of their length that round to it, unless it
straddles ten units of some place and is nearer to nine of them: then they are the ten. -/
theorem shortest_isClosestTo_iff (x : BinaryFloat fmt) (hx : x.isFinite = true)
    (h0 : x.isZero = false) : (ofFloat x).shortest.IsClosestTo x ↔ ¬x.StraddlesTen := by
  constructor
  · intro hclosest hstraddles
    exact not_isClosestTo_of_straddlesTen hx h0 hstraddles hclosest
  · intro hstraddles
    exact isClosestTo_of_not_straddlesTen hx h0 (mt (straddlesTen_ofFloat_iff hx h0).1 hstraddles)

/-- No decimal of 17 digits is closer to the greatest number of double precision than its shortest one. -/
theorem shortest_isClosestTo_greatest :
    (BinaryFloat.greatestFinite : BinaryFloat .binary64).isFinite = true ∧
    (BinaryFloat.greatestFinite : BinaryFloat .binary64).isZero = false ∧
    DigitString.IsClosestTo ⟨[1, 7, 9, 7, 6, 9, 3, 1, 3, 4, 8, 6, 2, 3, 1, 5, 7], 309⟩
      (BinaryFloat.greatestFinite : BinaryFloat .binary64) := by
  have hx : (BinaryFloat.greatestFinite : BinaryFloat .binary64).isFinite = true := by decide +kernel
  have h0 : (BinaryFloat.greatestFinite : BinaryFloat .binary64).isZero = false := by decide +kernel
  have hshortest : (ofFloat (BinaryFloat.greatestFinite : BinaryFloat .binary64)).shortest =
      ⟨[1, 7, 9, 7, 6, 9, 3, 1, 3, 4, 8, 6, 2, 3, 1, 5, 7], 309⟩ := by decide +kernel
  have h := (shortest_isClosestTo_iff _ hx h0).2
    (mt (straddlesTen_ofFloat_iff hx h0).2 (not_straddlesTen_of_ten_le (by decide +kernel)))
  rw [hshortest] at h
  exact ⟨hx, h0, h⟩

/-- With a single fraction bit eight is printed as ten, half way to twelve, although eight itself has one
digit. -/
theorem not_isClosestTo_eight :
    let fmt : FloatFormat := { exponentBits := 6, fractionBits := 1 }
    let x : BinaryFloat fmt := BinaryFloat.ofBits 0x44
    ¬(ofFloat x).shortest.IsClosestTo x := by
  intro fmt x h
  have hx : x.isFinite = true := by decide +kernel
  have h0 : x.isZero = false := by decide +kernel
  have hshortest : (ofFloat x).shortest = ⟨[1], 2⟩ := by decide +kernel
  have height : (ofFloat x).value = 8 := by decide +kernel
  have hcovers : (ofFloat x).Covers ((8 : ℤ) * 10 ^ (0 : ℤ)) := by
    rw [show ((8 : ℤ) : ℚ) * 10 ^ (0 : ℤ) = 8 by norm_num, ← height]
    exact ⟨above_value _, below_value _⟩
  have hdist := h 8 0 (by rw [hshortest]; decide) (by rw [hshortest]; decide)
    ((covers_iff_isNearest hx h0 (by positivity)).1 hcovers)
  rw [hshortest, ← value_ofFloat_eq_abs, height] at hdist
  norm_num [DigitString.value, DigitString.mantissa, DigitString.lastExp, Positional.ofDigits] at hdist

end DigitTarget

end MachineNumbers
