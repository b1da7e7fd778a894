import Mathlib
import MachineNumbers.BinaryFloat.Arithmetic.Remainder
import MachineNumbers.Proofs.Arithmetic.Sum

/-!
# Exact remainders

A remainder is the dividend less a multiple of the divisor, by the quotient without its fraction
(`truncated`) or by the integer nearest to it, ties to even (`nearestEven`).  `remainderAt` takes off a
whole multiple and leaves less than the divisor (`remainderAt_spec`), which makes it the truncating
remainder (`value_remainderAt`).  Reduced modulo twice the divisor, what is left tells whether the
quotient is odd, and so `nearestRemainder` is the nearest one (`value_nearestRemainder`).
-/

namespace MachineNumbers

/-! ## Quotients as integers -/

def truncated (q : ℚ) : ℤ := if q < 0 then ⌈q⌉ else ⌊q⌋

/-- The integer nearest to a number, and the even one of two. -/
def nearestEven (q : ℚ) : ℤ :=
  if q - ⌊q⌋ < 1 / 2 ∨ (q - ⌊q⌋ = 1 / 2 ∧ ⌊q⌋ % 2 = 0) then ⌊q⌋ else ⌊q⌋ + 1

theorem nearestEven_spec (q : ℚ) :
    |q - nearestEven q| ≤ 1 / 2 ∧ (|q - nearestEven q| = 1 / 2 → nearestEven q % 2 = 0) := by
  have hlow := Int.floor_le q
  have hhigh := Int.lt_floor_add_one q
  unfold nearestEven
  split
  · next h =>
    rw [abs_of_nonneg (by linarith)]
    rcases h with h | ⟨h, heven⟩
    · exact ⟨h.le, fun heq => absurd heq h.ne⟩
    · exact ⟨h.le, fun _ => heven⟩
  · next h =>
    push Not at h
    push_cast
    rw [abs_of_neg (by linarith)]
    refine ⟨by linarith [h.1], fun heq => ?_⟩
    have := h.2 (by linarith)
    omega

theorem nearestEven_eq {q : ℚ} {n : ℤ} (h : |q - n| ≤ 1 / 2)
    (heven : |q - n| = 1 / 2 → n % 2 = 0) : nearestEven q = n := by
  obtain ⟨hlow, hhigh⟩ := abs_le.1 h
  unfold nearestEven
  rcases le_or_gt (n : ℚ) q with hle | hgt
  · rw [Int.floor_eq_iff.2 ⟨hle, by linarith⟩, if_pos]
    rcases hhigh.lt_or_eq with hlt | heq
    · exact Or.inl hlt
    · exact Or.inr ⟨heq, heven (by rw [heq, abs_of_pos (by norm_num)])⟩
  · have hfloor : ⌊q⌋ = n - 1 := Int.floor_eq_iff.2 ⟨by push_cast; linarith, by push_cast; linarith⟩
    rw [hfloor, if_neg]
    · ring
    · push_cast
      rintro (hlt | ⟨heq, hodd⟩)
      · linarith
      · have := heven (by rw [show q - n = -(1 / 2) by linarith, abs_neg, abs_of_pos (by norm_num)])
        omega

/-- A rounding of quotients that treats both signs alike. -/
def SignSymmetric (f : ℚ → ℤ) : Prop :=
  ∀ (s : Bool) (q : ℚ), 0 ≤ q → f ((if s then -1 else 1) * q) = (if s then -1 else 1) * f q

theorem truncated_of_nonneg {q : ℚ} (hq : 0 ≤ q) : truncated q = ⌊q⌋ := if_neg hq.not_gt

theorem truncated_signSymmetric : SignSymmetric truncated := by
  intro s q hq
  rw [truncated_of_nonneg hq]
  cases s
  · simpa using truncated_of_nonneg hq
  · rcases hq.eq_or_lt with rfl | hpos
    · simp [truncated]
    · simp [truncated, hpos, Int.ceil_neg]

theorem nearestEven_signSymmetric : SignSymmetric nearestEven := by
  intro s q _
  cases s
  · simp
  · obtain ⟨hle, heven⟩ := nearestEven_spec q
    have hflip : |-q - ((-nearestEven q : ℤ) : ℚ)| = |q - nearestEven q| := by
      rw [← abs_neg]
      push_cast
      ring_nf
    rw [← hflip] at hle heven
    simp only [if_true, neg_one_mul]
    refine nearestEven_eq hle fun heq => ?_
    have := heven heq
    omega

/-- A quotient with a rest over the divisor rounds up past one half, and at it if it is odd. -/
theorem nearestEven_of_rest (N : ℕ) {r D : ℕ} (hr : r < D) :
    nearestEven (N + r / D) =
      N + (decide (D < 2 * r) || (2 * r == D && N % 2 == 1)).toNat := by
  have hD : (0 : ℚ) < D := by exact_mod_cast (Nat.zero_le r).trans_lt hr
  have hfraction : ((N : ℚ) + r / D - N) = r / D := by ring
  have hlt : (r : ℚ) / D < 1 := by
    rw [div_lt_one hD]
    exact_mod_cast hr
  have hnonneg : (0 : ℚ) ≤ r / D := by positivity
  -- the rest against half of the divisor, as a fraction against one half
  have hcmp : ((r : ℚ) / D < 1 / 2 ↔ 2 * r < D) ∧ ((r : ℚ) / D = 1 / 2 ↔ 2 * r = D) := by
    constructor
    · rw [div_lt_div_iff₀ hD two_pos, one_mul, mul_comm]
      exact_mod_cast Iff.rfl
    · rw [div_eq_div_iff hD.ne' two_ne_zero, one_mul, mul_comm]
      exact_mod_cast Iff.rfl
  have hfloor : ⌊(N : ℚ) + r / D⌋ = N := by
    rw [Int.floor_eq_iff]
    push_cast
    exact ⟨by linarith, by linarith⟩
  unfold nearestEven
  simp only [hfloor, Int.cast_natCast, hfraction, hcmp.1, hcmp.2]
  rcases Nat.lt_trichotomy (2 * r) D with h | h | h
  · simp [h, h.ne, h.not_gt]
  · rcases Nat.mod_two_eq_zero_or_one N with hpar | hpar
    · have : (N : ℤ) % 2 = 0 := by omega
      simp [h, hpar, this]
    · have : (N : ℤ) % 2 = 1 := by omega
      simp [h, hpar, this]
  · simp [h, h.ne', h.not_gt]

/-! ## Reduction -/

theorem sum_shiftSteps (d : ℕ) : (shiftSteps d).sum = d := by
  have := Nat.div_add_mod d 64
  simp only [shiftSteps, List.sum_append, List.sum_replicate, List.sum_singleton, smul_eq_mul]
  omega

theorem foldl_shift_mod {m : ℕ} (hm : 0 < m) (steps : List ℕ) {r : ℕ} (hr : r < m) :
    steps.foldl (fun r s => (r <<< s) % m) r = r * 2 ^ steps.sum % m := by
  induction steps generalizing r with
  | nil => simp [Nat.mod_eq_of_lt hr]
  | cons s steps ih =>
    rw [List.foldl_cons, ih (Nat.mod_lt _ hm), Nat.shiftLeft_eq, List.sum_cons, pow_add,
      ← Nat.mul_assoc, Nat.mod_mul_mod]

theorem shiftedMod_eq {r d m : ℕ} (hr : r < m) : shiftedMod r d m = r * 2 ^ d % m := by
  rw [shiftedMod, foldl_shift_mod ((Nat.zero_le r).trans_lt hr) _ hr, sum_shiftSteps]

section

variable {mx my : ℕ} {ex ey : ℤ}

/-- At the lesser exponent both numbers are whole, and one is reduced modulo the other. -/
theorem remainderAt_eq (hmx : mx < 2 ^ 64) (hmy : 0 < my) :
    remainderAt mx ex my ey =
      (mx * 2 ^ (ex - min ex ey).toNat % (my * 2 ^ (ey - min ex ey).toNat), min ex ey) := by
  unfold remainderAt
  split
  · next hle =>
    rw [min_eq_right hle, shiftedMod_eq (Nat.mod_lt _ hmy), Nat.mod_mul_mod, sub_self, Int.toNat_zero,
      pow_zero, Nat.mul_one]
  · next hlt =>
    rw [min_eq_left (by omega), sub_self, Int.toNat_zero, pow_zero, Nat.mul_one, ← Nat.shiftLeft_eq]
    dsimp only
    split
    · next hfar =>
      have hpow : 2 ^ 64 ≤ 2 ^ (ey - ex).toNat := Nat.pow_le_pow_right (by decide) hfar
      have := Nat.mul_le_mul hmy hpow
      rw [Nat.shiftLeft_eq, Nat.mod_eq_of_lt (by omega)]
    · rfl

theorem remainderAt_lt (hmx : mx < 2 ^ 64) (hmy : 0 < my) (hmy' : my < 2 ^ 64) :
    (remainderAt mx ex my ey).1 < 2 ^ 64 := by
  rw [remainderAt_eq hmx hmy]
  rcases le_total ex ey with hle | hle
  · rw [min_eq_left hle, sub_self, Int.toNat_zero, pow_zero, Nat.mul_one]
    exact (Nat.mod_le _ _).trans_lt hmx
  · rw [min_eq_right hle, sub_self, Int.toNat_zero, pow_zero, Nat.mul_one]
    exact (Nat.mod_lt _ hmy).trans hmy'

/-- What is left is less than the divisor, and a whole multiple of the divisor was taken off. -/
theorem remainderAt_spec (hmx : mx < 2 ^ 64) (hmy : 0 < my) :
    ((remainderAt mx ex my ey).1 : ℚ) * 2 ^ (remainderAt mx ex my ey).2 < my * 2 ^ ey ∧
      ∃ k : ℕ, (mx : ℚ) * 2 ^ ex =
        k * (my * 2 ^ ey) + (remainderAt mx ex my ey).1 * 2 ^ (remainderAt mx ex my ey).2 := by
  rw [remainderAt_eq hmx hmy]
  have hscale : ∀ (n : ℕ) {e : ℤ}, min ex ey ≤ e →
      (n : ℚ) * 2 ^ e = (n * 2 ^ (e - min ex ey).toNat : ℕ) * 2 ^ min ex ey := by
    intro n e he
    obtain ⟨d, hd⟩ := Int.eq_ofNat_of_zero_le (Int.sub_nonneg.2 he)
    rw [hd, Int.toNat_natCast, show e = d + min ex ey by omega, zpow_add₀ (by norm_num), zpow_natCast]
    push_cast
    ring
  rw [hscale mx (min_le_left ex ey), hscale my (min_le_right ex ey)]
  have hunit : (0 : ℚ) < 2 ^ min ex ey := by positivity
  have hpos := Nat.mul_pos hmy (Nat.two_pow_pos (ey - min ex ey).toNat)
  generalize mx * 2 ^ (ex - min ex ey).toNat = X
  generalize my * 2 ^ (ey - min ex ey).toNat = Y at hpos ⊢
  refine ⟨mul_lt_mul_of_pos_right (by exact_mod_cast Nat.mod_lt X hpos) hunit, X / Y, ?_⟩
  rw [← mul_assoc, ← add_mul]
  congr 1
  exact_mod_cast (Nat.div_add_mod' X Y).symm

/-- A whole multiple less than one divisor away is the quotient rounded down. -/
theorem floor_div_eq {X Y R : ℚ} {k : ℕ} (hR0 : 0 ≤ R) (hR : R < Y) (hX : X = k * Y + R) :
    ⌊X / Y⌋ = k := by
  have hY : 0 < Y := hR0.trans_lt hR
  rw [Int.floor_eq_iff, le_div_iff₀ hY, div_lt_iff₀ hY]
  push_cast
  constructor
  · linarith
  · linarith

end

namespace Unpacked

variable {x y : Unpacked}

/-- A remainder of signed numbers is one of their magnitudes, under the sign of the dividend. -/
theorem signed_remainder {f : ℚ → ℤ} (hf : SignSymmetric f) (x y : Unpacked) :
    x.value - f (x.value / y.value) * y.value = (if x.sign then -1 else 1) *
      (x.sig * 2 ^ x.exp - f (x.sig * 2 ^ x.exp / (y.sig * 2 ^ y.exp)) * (y.sig * 2 ^ y.exp)) := by
  have hquot : x.value / y.value = (if x.sign != y.sign then -1 else 1) *
      (x.sig * 2 ^ x.exp / (y.sig * 2 ^ y.exp)) := by
    unfold value
    cases x.sign <;> cases y.sign <;> simp [neg_div, div_neg]
  rw [hquot, hf _ _ (by positivity)]
  unfold value
  push_cast
  cases x.sign <;> cases y.sign <;> simp <;> ring

/-- The truncating remainder is exact. -/
theorem value_remainderAt (hx : x.sig < 2 ^ 64) (hy : y.sig ≠ 0) :
    (⟨x.sign, (remainderAt x.sig x.exp y.sig y.exp).2, (remainderAt x.sig x.exp y.sig y.exp).1⟩ :
      Unpacked).value = x.value - truncated (x.value / y.value) * y.value := by
  obtain ⟨hlt, k, hk⟩ := @remainderAt_spec x.sig y.sig x.exp y.exp hx (Nat.pos_of_ne_zero hy)
  rw [signed_remainder truncated_signSymmetric, truncated_of_nonneg (by positivity),
    floor_div_eq (by positivity) hlt hk]
  unfold value
  rw [hk]
  push_cast
  ring

/-- The nearest remainder is no more than what the reduction left, at one bit finer. -/
theorem nearestRemainder_sig_le (a b : Unpacked) :
    (a.nearestRemainder b).sig ≤ 2 * (remainderAt a.sig a.exp b.sig (b.exp + 1)).1 := by
  dsimp only [Unpacked.nearestRemainder]
  generalize (remainderAt a.sig a.exp b.sig (b.exp + 1)).1 = r
  generalize b.sig <<< (b.exp - (remainderAt a.sig a.exp b.sig (b.exp + 1)).2 + 1).toNat = D
  rw [Nat.shiftLeft_eq, pow_one]
  generalize hodd : decide (D ≤ r * 2) = odd
  have hrest : (if odd then r * 2 - D else r * 2) ≤ 2 * r := by split <;> omega
  generalize (if odd then r * 2 - D else r * 2) = rest at *
  split
  · next hpast =>
    simp only [Bool.or_eq_true, decide_eq_true_eq, Bool.and_eq_true, beq_iff_eq] at hpast
    omega
  · exact hrest

/-- Far below half of the divisor the nearest quotient is zero. -/
theorem nearestEven_eq_zero {a b : Unpacked} (ha : a.sig < 2 ^ 53) (hb : b.sig ≠ 0)
    (hfar : 54 ≤ b.exp - a.exp) : nearestEven (a.value / b.value) = 0 := by
  have hb' : (1 : ℚ) ≤ b.sig := by exact_mod_cast Nat.pos_of_ne_zero hb
  have ha' : (a.sig : ℚ) < 2 ^ 53 := by exact_mod_cast ha
  have hdivisor : (0 : ℚ) < b.sig * 2 ^ b.exp := by positivity
  have hlt : |a.value / b.value| < 1 / 2 := by
    rw [abs_div, Unpacked.abs_value, Unpacked.abs_value, div_lt_iff₀ hdivisor]
    calc (a.sig : ℚ) * 2 ^ a.exp < 2 ^ 53 * 2 ^ a.exp := mul_lt_mul_of_pos_right ha' (by positivity)
      _ = 1 / 2 * 2 ^ (a.exp + 54) := by
        rw [zpow_add₀ (by norm_num)]
        norm_num
        ring
      _ ≤ 1 / 2 * 2 ^ b.exp :=
        mul_le_mul_of_nonneg_left (zpow_le_zpow_right₀ (by norm_num) (by omega)) (by norm_num)
      _ ≤ 1 / 2 * (b.sig * 2 ^ b.exp) :=
        mul_le_mul_of_nonneg_left (le_mul_of_one_le_left (by positivity) hb') (by norm_num)
  refine nearestEven_eq ?_ ?_
  · simpa using hlt.le
  · simp

/-- The last step of the nearest remainder, in a unit that half of the divisor is whole in: `r` is what
twice the divisor leaves, and `k` how often that was taken off. -/
theorem nearestEven_of_double {k r D : ℕ} (hr : r < 2 * D) {odd past : Bool} {rest : ℕ}
    (hodd : odd = decide (D ≤ r)) (hrest : rest = if odd then r - D else r)
    (hpast : past = (decide (D < 2 * rest) || (2 * rest == D && odd))) :
    rest < D ∧ ((k * (2 * D) + r : ℕ) : ℚ) - nearestEven ((k * (2 * D) + r : ℕ) / D) * D =
      rest - past.toNat * D := by
  obtain ⟨hlt, hsplit⟩ : rest < D ∧ k * (2 * D) + r = (2 * k + odd.toNat) * D + rest := by
    have hmul : (2 * k + odd.toNat) * D = k * (2 * D) + odd.toNat * D := by ring
    rw [hmul, hrest, hodd]
    by_cases h : D ≤ r
    · simp [h]
      omega
    · simp [h]
      omega
  have hparity : ((2 * k + odd.toNat) % 2 == 1) = odd := by
    cases odd
    · simp
    · simp
  have hD : (D : ℚ) ≠ 0 := by
    have : D ≠ 0 := by omega
    exact_mod_cast this
  have hquot : ((k * (2 * D) + r : ℕ) : ℚ) / D = (2 * k + odd.toNat : ℕ) + rest / D := by
    rw [hsplit]
    push_cast
    field_simp
  refine ⟨hlt, ?_⟩
  rw [hquot, nearestEven_of_rest _ hlt, hparity, ← hpast, hsplit]
  push_cast
  ring

/-- The nearest remainder is exact. -/
theorem value_nearestRemainder (hx : x.sig < 2 ^ 64) (hy : y.sig ≠ 0) :
    (x.nearestRemainder y).value = x.value - nearestEven (x.value / y.value) * y.value := by
  have hy' : 0 < y.sig := Nat.pos_of_ne_zero hy
  obtain ⟨hlt, k, hk⟩ := @remainderAt_spec x.sig y.sig x.exp (y.exp + 1) hx hy'
  have hexp : (remainderAt x.sig x.exp y.sig (y.exp + 1)).2 ≤ y.exp + 1 := by
    rw [remainderAt_eq hx hy']
    exact min_le_right _ _
  rw [signed_remainder nearestEven_signSymmetric]
  dsimp only [nearestRemainder]
  generalize remainderAt x.sig x.exp y.sig (y.exp + 1) = p at *
  obtain ⟨r, e⟩ := p
  simp only [Nat.shiftLeft_eq, pow_one] at *
  -- everything in units of `2^(e - 1)`
  have hunit : (0 : ℚ) < 2 ^ (e - 1) := by positivity
  have hdouble : (2 : ℚ) ^ e = 2 * 2 ^ (e - 1) := by
    rw [← zpow_one_add₀ (by norm_num)]
    congr 1
    ring
  have hdivisor : (y.sig : ℚ) * 2 ^ y.exp = (y.sig * 2 ^ (y.exp - e + 1).toNat : ℕ) * 2 ^ (e - 1) := by
    obtain ⟨d, hd⟩ := Int.eq_ofNat_of_zero_le (show 0 ≤ y.exp - e + 1 by omega)
    rw [hd, Int.toNat_natCast, show y.exp = d + (e - 1) by omega, zpow_add₀ (by norm_num), zpow_natCast]
    push_cast
    ring
  have hnext : (y.sig : ℚ) * 2 ^ (y.exp + 1) = 2 * (y.sig * 2 ^ y.exp) := by
    rw [zpow_add_one₀ (by norm_num)]
    ring
  rw [hnext, hdivisor, hdouble] at hk hlt
  rw [hdivisor]
  generalize y.sig * 2 ^ (y.exp - e + 1).toNat = D at *
  have hdividend : (x.sig : ℚ) * 2 ^ x.exp = (k * (2 * D) + r * 2 : ℕ) * 2 ^ (e - 1) := by
    rw [hk]
    push_cast
    ring
  have hr : r * 2 < 2 * D := by
    have : (r : ℚ) * 2 < 2 * D := by
      refine lt_of_mul_lt_mul_right ?_ hunit.le
      linarith
    exact_mod_cast this
  generalize hodd : decide (D ≤ r * 2) = odd
  generalize hrest : (if odd then r * 2 - D else r * 2) = rest
  generalize hpast : (decide (D < 2 * rest) || (2 * rest == D && odd)) = past
  obtain ⟨hrestlt, hvalue⟩ :=
    @nearestEven_of_double k (r * 2) D hr odd past rest hodd.symm hrest.symm hpast.symm
  rw [hdividend, mul_div_mul_right _ _ hunit.ne', ← mul_assoc _ (D : ℚ), ← sub_mul, hvalue]
  unfold value
  cases past
  · simp
  · have hne : D - rest ≠ 0 := by omega
    simp only [if_true, hne, if_false, Bool.toNat_true, Nat.cast_sub hrestlt.le]
    cases x.sign <;> simp <;> ring

end Unpacked

end MachineNumbers
