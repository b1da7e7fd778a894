import Mathlib
import MachineNumbers.BinaryFloat.Arithmetic.SquareRoot
import MachineNumbers.Proofs.Arithmetic
import MachineNumbers.Proofs.Packing

/-!
# Exact square roots

`integerSqrt` is the square root rounded down (`integerSqrt_spec`): each step of `sqrtFrom` halves the
range that the root lies in.  The root kernel makes the exponent even first, so that the root of the
significand under half of it stands for the real square root (`standsFor_sqrt`).
-/

namespace MachineNumbers

/-- The root stays within `bits` bits of the number found so far. -/
theorem sqrtFrom_spec (n : ℕ) : ∀ bits root, root * root ≤ n →
    n < (root + 2 ^ bits) * (root + 2 ^ bits) →
    sqrtFrom n bits root * sqrtFrom n bits root ≤ n ∧
      n < (sqrtFrom n bits root + 1) * (sqrtFrom n bits root + 1) := by
  intro bits
  induction bits with
  | zero =>
    intro root hlow hhigh
    exact ⟨hlow, hhigh⟩
  | succ bits ih =>
    intro root hlow hhigh
    rw [pow_succ, Nat.mul_two, ← Nat.add_assoc] at hhigh
    simp only [sqrtFrom, Nat.pow_eq]
    split
    · next hnext => exact ih _ hnext hhigh
    · next hnext => exact ih _ hlow (Nat.lt_of_not_le hnext)

theorem integerSqrt_spec (n : ℕ) :
    integerSqrt n * integerSqrt n ≤ n ∧ n < (integerSqrt n + 1) * (integerSqrt n + 1) := by
  refine sqrtFrom_spec n _ 0 (by omega) ?_
  rw [Nat.zero_add, ← pow_add]
  exact Nat.lt_log2_self.trans_le (Nat.pow_le_pow_right (by decide) (by omega))

namespace Unpacked

variable {x : Unpacked}

/-- The normalised significand and its exponent, which is made even. -/
theorem sqrt_eq (x : Unpacked) : ∃ (sig : ℕ) (half : ℤ),
    x.sqrt = (⟨false, half, integerSqrt sig⟩, integerSqrt sig * integerSqrt sig != sig) ∧
      x.normalised.sig ≤ sig ∧ sig ≤ 2 * x.normalised.sig ∧
      (sig : ℚ) * 2 ^ (half + half) = x.normalised.sig * 2 ^ x.normalised.exp := by
  by_cases hodd : x.normalised.exp % 2 ≠ 0
  · refine ⟨x.normalised.sig <<< 1, (x.normalised.exp - 1) / 2, ?_, ?_, ?_, ?_⟩
    · simp only [sqrt, if_pos hodd]
    · rw [Nat.shiftLeft_eq]
      omega
    · rw [Nat.shiftLeft_eq]
      omega
    · have hexp : x.normalised.exp =
          1 + ((x.normalised.exp - 1) / 2 + (x.normalised.exp - 1) / 2) := by omega
      generalize (x.normalised.exp - 1) / 2 = half at *
      rw [hexp, zpow_add₀ (by norm_num) 1, zpow_one, Nat.shiftLeft_eq]
      push_cast
      ring
  · refine ⟨x.normalised.sig, x.normalised.exp / 2, ?_, le_rfl, by omega, ?_⟩
    · simp only [sqrt, if_neg hodd]
    · rw [show x.normalised.exp / 2 + x.normalised.exp / 2 = x.normalised.exp by omega]

/-- The root of a number at an even exponent. -/
theorem sqrt_scaled (sig : ℕ) (half : ℤ) :
    √((sig : ℝ) * 2 ^ (half + half)) = √sig * 2 ^ half := by
  rw [zpow_add₀ (by norm_num), Real.sqrt_mul (by positivity), Real.sqrt_mul_self (by positivity)]

theorem holdsReal_integerSqrt (sig : ℕ) (half : ℤ) :
    (⟨false, half, integerSqrt sig⟩ : Unpacked).HoldsReal
      (integerSqrt sig * integerSqrt sig != sig) (√sig * 2 ^ half) := by
  obtain ⟨hlow, hhigh⟩ := integerSqrt_spec sig
  have hunit : (0 : ℝ) < 2 ^ half := by positivity
  by_cases hexact : integerSqrt sig * integerSqrt sig = sig
  · rw [hexact, bne_self_eq_false, holdsReal_false]
    simp only
    conv_lhs => rw [← hexact, Nat.cast_mul, Real.sqrt_mul_self (by positivity)]
  · have hlt : integerSqrt sig * integerSqrt sig < sig := lt_of_le_of_ne hlow hexact
    rw [bne_iff_ne.2 hexact, holdsReal_true]
    refine ⟨mul_lt_mul_of_pos_right ?_ hunit, mul_lt_mul_of_pos_right ?_ hunit⟩
    · rw [Real.lt_sqrt (by positivity), pow_two]
      exact_mod_cast hlt
    · rw [Real.sqrt_lt' (by positivity), pow_two]
      exact_mod_cast hhigh

/-- The root kernel stands for the real square root, with 63 or 64 bits. -/
theorem standsFor_sqrt (h0 : x.sig ≠ 0) (hx : x.sig < 2 ^ 126) :
    x.sqrt.1.StandsFor x.sqrt.2 (√(x.sig * 2 ^ x.exp)) ∧
      2 ^ 62 ≤ x.sqrt.1.sig ∧ x.sqrt.1.sig < 2 ^ 64 := by
  obtain ⟨hnlow, hnhigh, hvalue⟩ := BinaryFloat.normalised_spec h0 hx
  obtain ⟨sig, half, hsqrt, hle, hge, hscaled⟩ := sqrt_eq x
  obtain ⟨hlow, hhigh⟩ := integerSqrt_spec sig
  have hbits : 2 ^ 62 ≤ integerSqrt sig := by
    by_contra hlt
    have hlt : integerSqrt sig + 1 ≤ 2 ^ 62 := by omega
    have := Nat.mul_le_mul hlt hlt
    omega
  have hfits : integerSqrt sig < 2 ^ 64 := by
    by_contra hlt
    have := Nat.mul_le_mul (Nat.le_of_not_lt hlt) (Nat.le_of_not_lt hlt)
    omega
  have hroot : √((x.sig : ℝ) * 2 ^ x.exp) = √sig * 2 ^ half := by
    rw [← sqrt_scaled]
    congr 1
    rw [hvalue, ← @Rat.cast_inj ℝ] at hscaled
    push_cast at hscaled
    exact hscaled.symm
  have hpos : 0 ≤ √(sig : ℝ) * 2 ^ half := by positivity
  rw [hsqrt, hroot]
  refine ⟨⟨?_, ?_, fun _ => ?_⟩, hbits, hfits⟩
  · rw [abs_of_nonneg hpos]
    exact holdsReal_integerSqrt sig half
  · intro _
    simpa using hpos
  · exact ((Nat.two_pow_pos 62).trans_le hbits).ne'

end Unpacked

end MachineNumbers
