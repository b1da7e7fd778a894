import Mathlib
import MachineNumbers.BinaryFloat.Arithmetic.Sum
import MachineNumbers.Proofs.Arithmetic
import MachineNumbers.Proofs.Packing

/-!
# Exact sums, products and quotients

`Unpacked.value` is the number that an unpacked number is, with its sign.  On these values the kernel of
products is exact (`value_mul`), and those of sums and quotients stand for the exact results (`add_sumOf`,
`standsFor_div`).  A sum of aligned numbers is a fraction over the power of two that the lesser operand is
shifted by; what falls off is the rest of that fraction, also where it is borrowed (`sub_div_mod`).
-/

namespace MachineNumbers

namespace Unpacked

def value (x : Unpacked) : ℚ := (if x.sign then -1 else 1) * (x.sig * 2 ^ x.exp)

variable {x y : Unpacked} {sticky : Bool} {q : ℚ}

theorem abs_value (x : Unpacked) : |x.value| = x.sig * 2 ^ x.exp := by
  have h : (0 : ℚ) ≤ x.sig * 2 ^ x.exp := by positivity
  unfold value
  split
  · rw [neg_one_mul, abs_neg, abs_of_nonneg h]
  · rw [one_mul, abs_of_nonneg h]

/-- A rational number held in magnitude, with the sign it has if it is not zero. -/
theorem standsFor_of_holds (h : x.Holds sticky |q|) (hsign : q ≠ 0 → (x.sign = true ↔ q < 0))
    (hsig : sticky = true → x.sig ≠ 0) : x.StandsFor sticky q where
  magnitude := by
    rw [← Rat.cast_abs]
    exact holdsReal_cast.2 h
  sign hq := by
    rw [hsign (by exact_mod_cast hq)]
    norm_cast
  sig_ne_zero := hsig

/-- A signed magnitude is negative if its sign is minus. -/
theorem neg_iff_of_signed {s : Bool} {m : ℚ} (hm : 0 ≤ m) (h0 : (if s then -1 else 1) * m ≠ 0) :
    s = true ↔ (if s then -1 else 1) * m < 0 := by
  have hpos : 0 < m := lt_of_le_of_ne hm fun h => h0 (by rw [← h, mul_zero])
  cases s
  · simpa using hm
  · simpa using hpos

theorem abs_signed {s : Bool} {m : ℚ} (hm : 0 ≤ m) : |(if s then -1 else 1) * m| = m := by
  cases s <;> simp [abs_of_nonneg hm]

/-- An unpacked number stands for itself. -/
theorem standsFor_value (x : Unpacked) : x.StandsFor false x.value := by
  refine standsFor_of_holds (holds_false.2 (abs_value x)) ?_ (by simp)
  intro h0
  exact neg_iff_of_signed (by positivity) h0

/-! ## Products and quotients -/

theorem value_mul (x y : Unpacked) : (x.mul y).value = x.value * y.value := by
  unfold value mul
  rw [zpow_add₀ (by norm_num)]
  push_cast
  cases x.sign <;> cases y.sign <;> simp <;> ring

theorem standsFor_div (hx0 : x.sig ≠ 0) (hy0 : y.sig ≠ 0) (hx : x.sig < 2 ^ 126)
    (hy : y.sig < 2 ^ 53) : (x.div y).1.StandsFor (x.div y).2 (x.value / y.value : ℚ) := by
  obtain ⟨hlow, -, hholds⟩ := BinaryFloat.div_holds hx0 hy0 hx hy
  have hm : (0 : ℚ) ≤ x.sig * 2 ^ x.exp / (y.sig * 2 ^ y.exp) := by positivity
  have hvalue : x.value / y.value =
      (if (x.div y).1.sign then -1 else 1) * (x.sig * 2 ^ x.exp / (y.sig * 2 ^ y.exp)) := by
    unfold value div normalised
    cases x.sign <;> cases y.sign <;> simp [neg_div, div_neg]
  rw [hvalue]
  refine standsFor_of_holds (by rwa [abs_signed hm]) (neg_iff_of_signed hm) fun _ => ?_
  exact ((Nat.two_pow_pos 72).trans_le hlow).ne'

/-! ## Sums -/

/-- The sum kernel on normalised numbers, of which the first is not the lesser. -/
def addOrdered (big small : Unpacked) : Unpacked × Bool :=
  let shift := (big.exp - small.exp).toNat
  let lost := small.sig % 2 ^ shift != 0
  let sig := if big.sign = small.sign then big.sig + small.sig / 2 ^ shift
    else big.sig - small.sig / 2 ^ shift - lost.toNat
  (⟨big.sign && sig != 0, big.exp, sig⟩, lost)

/-- What is shifted by 128 places and more is lost as a whole, like any number that is less than the
power of two. -/
theorem aligned_eq {sig : ℕ} (h0 : sig ≠ 0) (hlt : sig < 2 ^ 126) (shift : ℕ) :
    (if 128 ≤ shift then (0, true) else (sig >>> shift, sig % Nat.pow 2 shift != 0)) =
      (sig / 2 ^ shift, sig % 2 ^ shift != 0) := by
  split
  · next hfar =>
    have hpow : sig < 2 ^ shift := hlt.trans_le (Nat.pow_le_pow_right (by decide) (by omega))
    rw [Nat.div_eq_of_lt hpow, Nat.mod_eq_of_lt hpow, bne_iff_ne.2 h0]
  · rw [Nat.shiftRight_eq_div_pow]
    rfl

theorem add_eq (hx0 : x.normalised.sig ≠ 0) (hx : x.normalised.sig < 2 ^ 126)
    (hy0 : y.normalised.sig ≠ 0) (hy : y.normalised.sig < 2 ^ 126) :
    x.add y = if y.normalised.exp < x.normalised.exp ∨
        (y.normalised.exp = x.normalised.exp ∧ y.normalised.sig ≤ x.normalised.sig)
      then addOrdered x.normalised y.normalised else addOrdered y.normalised x.normalised := by
  unfold add
  split
  · next h =>
    simp only [h, if_true, aligned_eq hy0 hy]
    rfl
  · next h =>
    simp only [h, if_false, aligned_eq hx0 hx]
    rfl

/-- A difference of a whole number and a fraction: the fraction's own quotient is taken off, and one more
if it left a rest. -/
theorem sub_div_mod {B s D : ℕ} (hD : 0 < D) (h : s ≤ B * D) :
    (B * D - s) / D = B - s / D - (s % D != 0).toNat ∧
      ((B * D - s) % D != 0) = (s % D != 0) := by
  have hsplit := Nat.div_add_mod s D
  have hrest := Nat.mod_lt s hD
  set q := s / D
  set t := s % D
  have hq : q ≤ B := by
    by_contra hlt
    have := Nat.mul_le_mul_left D (Nat.lt_of_not_le hlt)
    rw [Nat.mul_succ, Nat.mul_comm D B] at this
    omega
  obtain ⟨k, rfl⟩ := Nat.exists_eq_add_of_le hq
  have hmul : (q + k) * D = D * q + k * D := by rw [Nat.add_mul, Nat.mul_comm q]
  by_cases ht : t = 0
  · rw [show (q + k) * D - s = k * D by omega, Nat.mul_div_cancel _ hD, Nat.mul_mod_left, ht]
    simp
  · obtain ⟨j, rfl⟩ : ∃ j, k = j + 1 := by
      refine Nat.exists_eq_succ_of_ne_zero ?_
      rintro rfl
      omega
    have hnext : (j + 1) * D = j * D + D := Nat.succ_mul j D
    rw [show (q + (j + 1)) * D - s = (D - t) + D * j by rw [Nat.mul_comm D j]; omega,
      Nat.add_mul_div_left _ _ hD, Nat.add_mul_mod_self_left, Nat.div_eq_of_lt (by omega),
      Nat.mod_eq_of_lt (by omega), bne_iff_ne.2 ht, bne_iff_ne.2 (show D - t ≠ 0 by omega)]
    simp only [Bool.toNat_true, and_true]
    omega

/-- What the sum of two numbers in order owes: it stands for the exact sum, fits 127 bits, and keeps many
bits where it loses any. -/
structure SumOf (u : Unpacked × Bool) (r : ℚ) : Prop where
  standsFor : u.1.StandsFor u.2 r
  sig_lt : u.1.sig < 2 ^ 127
  le_sig : u.2 = true → 2 ^ 124 ≤ u.1.sig

/-- The first of two aligned numbers is at least the second. -/
theorem le_aligned {big small : Unpacked} (hbig : 2 ^ 125 ≤ big.sig) (hsmall : small.sig < 2 ^ 126)
    (horder : small.exp < big.exp ∨ (small.exp = big.exp ∧ small.sig ≤ big.sig)) :
    small.sig ≤ big.sig * 2 ^ (big.exp - small.exp).toNat := by
  rcases horder with hlt | ⟨heq, hle⟩
  · have hpow : 2 ^ 1 ≤ 2 ^ (big.exp - small.exp).toNat :=
      Nat.pow_le_pow_right (by decide) (by omega)
    have := Nat.mul_le_mul hbig hpow
    omega
  · rw [heq, sub_self]
    simpa using hle

/-- The significand and the flag of a sum are quotient and rest of a fraction over the power of two that
aligns the operands; it has many bits if there is a rest, since that takes a shift by two at least. -/
theorem addOrdered_fraction {big small : Unpacked} (hbig : 2 ^ 125 ≤ big.sig)
    (hbig' : big.sig < 2 ^ 126) (hsmall : small.sig < 2 ^ 126) (heven : small.sig % 2 = 0)
    (hle : small.sig ≤ big.sig * 2 ^ (big.exp - small.exp).toNat) :
    ∃ X : ℕ, (X : ℚ) = big.sig * 2 ^ (big.exp - small.exp).toNat +
        (if big.sign = small.sign then 1 else -1) * small.sig ∧
      (addOrdered big small).1.sig = X / 2 ^ (big.exp - small.exp).toNat ∧
      (addOrdered big small).2 = (X % 2 ^ (big.exp - small.exp).toNat != 0) ∧
      (addOrdered big small).1.sig < 2 ^ 127 ∧
      ((addOrdered big small).2 = true → 2 ^ 124 ≤ (addOrdered big small).1.sig) := by
  dsimp only [addOrdered]
  generalize (big.exp - small.exp).toNat = d at *
  have hD : 0 < 2 ^ d := Nat.two_pow_pos d
  have hlost : (small.sig % 2 ^ d != 0) = true → small.sig / 2 ^ d < 2 ^ 124 := by
    intro h
    rw [Nat.div_lt_iff_lt_mul hD]
    have hshift : 2 ≤ d := by
      by_contra hshift
      have hcases : d = 0 ∨ d = 1 := by omega
      rcases hcases with rfl | rfl
      · simp [Nat.mod_one] at h
      · simp [heven] at h
    calc small.sig < 2 ^ 124 * 2 ^ 2 := hsmall
      _ ≤ 2 ^ 124 * 2 ^ d := Nat.mul_le_mul_left _ (Nat.pow_le_pow_right (by decide) hshift)
  have hquot : small.sig / 2 ^ d ≤ small.sig := Nat.div_le_self _ _
  have hnonneg : 0 ≤ small.sig / 2 ^ d := Nat.zero_le _
  have hone := Bool.toNat_le (small.sig % 2 ^ d != 0)
  split
  · refine ⟨big.sig * 2 ^ d + small.sig, by push_cast; ring, ?_, ?_, ?_, ?_⟩
    · rw [Nat.add_comm (_ * _), Nat.add_mul_div_right _ _ hD, Nat.add_comm]
    · rw [Nat.mul_add_mod_self_right]
    · omega
    · omega
  · obtain ⟨hdiv, hmod⟩ := sub_div_mod hD hle
    refine ⟨big.sig * 2 ^ d - small.sig, by push_cast [Nat.cast_sub hle]; ring, hdiv.symm, hmod.symm,
      ?_, ?_⟩
    · omega
    · intro h
      have := hlost h
      omega

theorem addOrdered_sumOf {big small : Unpacked} (hbig : 2 ^ 125 ≤ big.sig) (hbig' : big.sig < 2 ^ 126)
    (hsmall : small.sig < 2 ^ 126) (heven : small.sig % 2 = 0)
    (horder : small.exp < big.exp ∨ (small.exp = big.exp ∧ small.sig ≤ big.sig)) :
    SumOf (addOrdered big small) (big.value + small.value) := by
  obtain ⟨X, hX, hsig, hlost, hlt, hbits⟩ :=
    addOrdered_fraction hbig hbig' hsmall heven (le_aligned hbig hsmall horder)
  refine ⟨?_, hlt, hbits⟩
  have hexp : small.exp = big.exp - (big.exp - small.exp).toNat := by omega
  generalize (big.exp - small.exp).toNat = d at *
  have hvalue : big.value + small.value =
      (if big.sign then -1 else 1) * ((X : ℚ) / (2 ^ d : ℕ) * 2 ^ big.exp) := by
    have hunit : (2 : ℚ) ^ small.exp = 2 ^ big.exp / 2 ^ d := by
      rw [hexp, zpow_sub₀ (by norm_num), zpow_natCast]
    unfold value
    rw [hX, hunit]
    push_cast
    field_simp
    cases big.sign <;> cases small.sign <;> simp <;> ring
  have hm : (0 : ℚ) ≤ (X : ℚ) / (2 ^ d : ℕ) * 2 ^ big.exp := by positivity
  have hholds : (addOrdered big small).1.Holds (addOrdered big small).2
      ((X : ℚ) / (2 ^ d : ℕ) * 2 ^ big.exp) := by
    have h := holds_div (addOrdered big small).1.sign big.exp X (Nat.two_pow_pos d)
    rwa [← hsig, ← hlost] at h
  have hsig0 : (addOrdered big small).2 = true → (addOrdered big small).1.sig ≠ 0 := fun h =>
    ((Nat.two_pow_pos 124).trans_le (hbits h)).ne'
  rw [hvalue]
  refine standsFor_of_holds (by rwa [abs_signed hm]) ?_ hsig0
  intro h0
  have hnonzero : (addOrdered big small).1.sig ≠ 0 := by
    intro hzero
    -- nothing was lost then, so that the sum is zero
    rw [Bool.eq_false_iff.2 fun h => hsig0 h hzero, holds_false, hzero, Nat.cast_zero, zero_mul]
      at hholds
    exact h0 (by rw [hholds, mul_zero])
  have hsign : (addOrdered big small).1.sign = big.sign := by
    show (big.sign && (addOrdered big small).1.sig != 0) = big.sign
    rw [bne_iff_ne.2 hnonzero, Bool.and_true]
  rw [hsign]
  exact neg_iff_of_signed hm h0

theorem normalised_value (hx0 : x.sig ≠ 0) (hx : x.sig < 2 ^ 126) : x.normalised.value = x.value := by
  unfold value
  rw [(BinaryFloat.normalised_spec hx0 hx).2.2]
  rfl

theorem normalised_even (hx0 : x.sig ≠ 0) (hx : x.sig < 2 ^ 125) : x.normalised.sig % 2 = 0 := by
  have hlog : x.sig.log2 < 125 := (Nat.log2_lt hx0).2 hx
  obtain ⟨k, hk⟩ : ∃ k, 125 - x.sig.log2 = k + 1 := ⟨124 - x.sig.log2, by omega⟩
  simp only [normalised, leadPlace, hk, Nat.shiftLeft_eq, pow_succ, ← Nat.mul_assoc,
    Nat.mul_mod_left]

/-- The sum kernel stands for the exact sum. -/
theorem add_sumOf (hx0 : x.sig ≠ 0) (hx : x.sig < 2 ^ 125) (hy0 : y.sig ≠ 0) (hy : y.sig < 2 ^ 125) :
    SumOf (x.add y) (x.value + y.value) := by
  have hx' : x.sig < 2 ^ 126 := hx.trans (by decide)
  have hy' : y.sig < 2 ^ 126 := hy.trans (by decide)
  obtain ⟨hxlow, hxhigh, -⟩ := BinaryFloat.normalised_spec hx0 hx'
  obtain ⟨hylow, hyhigh, -⟩ := BinaryFloat.normalised_spec hy0 hy'
  rw [add_eq (by omega) hxhigh (by omega) hyhigh, ← normalised_value hx0 hx',
    ← normalised_value hy0 hy']
  split
  · next h => exact addOrdered_sumOf hxlow hxhigh hyhigh (normalised_even hy0 hy) h
  · next h =>
    rw [add_comm]
    exact addOrdered_sumOf hylow hyhigh hxhigh (normalised_even hx0 hx) (by omega)

end Unpacked

end MachineNumbers
