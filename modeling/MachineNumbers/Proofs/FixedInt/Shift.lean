import Mathlib
import MachineNumbers.Proofs.FixedInt.Residue

/-!
# Shifts of integers

A shift to the right divides the value by a power of two, rounded down, whatever the sign
(`value_shiftRight`); a shift to the left multiplies it, up to a multiple of `2^width`
(`value_shiftLeft_modEq`).  Both hold for every amount, also from the width on.
-/

namespace MachineNumbers.FixedInt

variable {ty : IntType}

/-- A number within `2^k` of zero is divided by `2^k` or more as by `2^k`. -/
theorem div_two_pow_of_le {v : ℤ} {k n : ℕ} (hlow : -2 ^ k ≤ v) (hhigh : v < 2 ^ k) (h : k ≤ n) :
    v / 2 ^ k = v / 2 ^ n := by
  have hpow : (2 : ℤ) ^ k ≤ 2 ^ n := pow_le_pow_right₀ (by norm_num) h
  have hpos : (0 : ℤ) < 2 ^ k := by positivity
  rcases lt_or_ge v 0 with hneg | hnonneg
  · rw [Int.ediv_eq_neg_one_of_neg_of_le hneg (by omega),
      Int.ediv_eq_neg_one_of_neg_of_le hneg (by omega)]
  · rw [Int.ediv_eq_zero_of_lt hnonneg hhigh, Int.ediv_eq_zero_of_lt hnonneg (by omega)]

theorem toInt_sshiftRight_eq {w : ℕ} (p : BitVec w) (n : ℕ) :
    (p.sshiftRight n).toInt = p.toInt / 2 ^ n := by
  rw [BitVec.toInt_sshiftRight, Int.shiftRight_eq_div_pow]
  push_cast
  rfl

theorem toInt_shiftRightSigned {w : ℕ} (hw : 0 < w) (p : BitPattern w) (n : ℕ) :
    (p.shiftRightSigned n).toInt = p.toInt / 2 ^ n := by
  have hlow : -2 ^ (w - 1) ≤ p.toBitVec.toInt := BitVec.le_toInt p.toBitVec
  have hhigh : p.toBitVec.toInt < 2 ^ (w - 1) := BitVec.toInt_lt
  unfold BitPattern.shiftRightSigned BitPattern.toInt
  rw [toInt_sshiftRight_eq]
  split
  · next h => exact div_two_pow_of_le hlow hhigh (by omega)
  · rfl

theorem toNat_shiftRight {w : ℕ} (p : BitPattern w) (n : ℕ) :
    (p.shiftRight n).toNat = p.toNat / 2 ^ n := by
  unfold BitPattern.shiftRight BitPattern.toNat
  split
  · next h =>
    have hlt : p.toBitVec.toNat < 2 ^ n :=
      p.toBitVec.isLt.trans_le (Nat.pow_le_pow_right (by decide) h)
    rw [Nat.div_eq_of_lt hlt]
    exact BitVec.toNat_zero
  · rw [BitVec.toNat_ushiftRight, Nat.shiftRight_eq_div_pow]

theorem value_shiftRight_eq_div (a : FixedInt ty) (n : ℕ) :
    (a.shiftRight n).value = a.value / 2 ^ n := by
  unfold shiftRight value
  dsimp only
  split
  · exact toInt_shiftRightSigned ty.width_pos a.bits n
  · rw [toNat_shiftRight]
    push_cast
    rfl

/-- A shift to the right rounds down. -/
theorem value_shiftRight (a : FixedInt ty) (n : ℕ) :
    (a.shiftRight n).value = ⌊(a.value : ℚ) / 2 ^ n⌋ := by
  have hfloor := Rat.floor_intCast_div_natCast a.value (2 ^ n)
  push_cast at hfloor
  rw [hfloor, value_shiftRight_eq_div]

/-- A shift to the left keeps the product's residue. -/
theorem value_shiftLeft_modEq (a : FixedInt ty) (n : ℕ) :
    (a.shiftLeft n).value ≡ a.value * 2 ^ n [ZMOD 2 ^ ty.width] := by
  have hbits : ((a.bits.shiftLeft n).toNat : ℤ) ≡ a.bits.toNat * 2 ^ n [ZMOD 2 ^ ty.width] := by
    unfold BitPattern.shiftLeft BitPattern.toNat
    split
    · next h =>
      have hdvd : (2 : ℤ) ^ ty.width ∣ a.bits.toBitVec.toNat * 2 ^ n :=
        (pow_dvd_pow 2 h).mul_left _
      exact (Int.modEq_zero_iff_dvd.2 hdvd).symm
    · rw [BitVec.toNat_shiftLeft, Nat.shiftLeft_eq]
      push_cast
      exact Int.mod_modEq _ _
  calc (a.shiftLeft n).value
      ≡ (a.bits.shiftLeft n).toNat [ZMOD 2 ^ ty.width] := value_modEq_toNat _
    _ ≡ a.bits.toNat * 2 ^ n [ZMOD 2 ^ ty.width] := hbits
    _ ≡ a.value * 2 ^ n [ZMOD 2 ^ ty.width] := a.value_modEq_toNat.symm.mul_right _

end MachineNumbers.FixedInt
