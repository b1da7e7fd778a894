import Mathlib
import MachineNumbers.Proofs.FixedInt.Arithmetic

/-!
# Products in two words

Two words of a type fit into a wide one, so the product of two values does not overflow there
(`wide_mul_fits`), and the words cut out of it are the quotient and the remainder of the exact product by
`2^width` (`multipliedFullWidth_eq`).  The high word is in range, so nothing is lost.  The low word is the
wrapped product, and it is the product itself just where the high word only extends it
(`fits_words_iff`, `multipliedFullWidth_exact`).
-/

namespace MachineNumbers

/-- Every bit of `high` is the one that `low` goes on with: its top bit if it has a sign, otherwise
zero. -/
def BitPattern.IsExtension {w : ℕ} (signed : Bool) (low high : BitPattern w) : Prop :=
  ∀ i < w, high.bit i = (signed && low.signBit)

namespace IntType

/-- The value of a high word that extends the low word `l`. -/
def extension (ty : IntType) (l : ℤ) : ℤ := if ty.signed ∧ 2 ^ (ty.width - 1) ≤ l then -1 else 0

theorem two_pow_width_mul_le (ty : IntType) : (2 : ℤ) ^ ty.width * 2 ^ ty.width ≤ 2 ^ 128 :=
  calc (2 : ℤ) ^ ty.width * 2 ^ ty.width
      ≤ 2 ^ 64 * 2 ^ 64 :=
        mul_le_mul ty.two_pow_width_le ty.two_pow_width_le (by positivity) (by positivity)
    _ = 2 ^ 128 := by norm_num

theorem fits_extension (ty : IntType) (l : ℤ) : ty.Fits (ty.extension l) := by
  have hmax := ty.maxValue_nonneg
  unfold extension
  split
  · next h =>
    have hpos : (0 : ℤ) < 2 ^ (ty.width - 1) := by positivity
    have hmin : ty.minValue = -2 ^ (ty.width - 1) := by rw [minValue_eq, if_pos h.1]
    constructor
    · omega
    · omega
  · exact ⟨ty.minValue_nonpos, hmax⟩

/-- A number of two words is in range if the high one extends the low one. -/
theorem fits_words_iff (ty : IntType) {h l : ℤ} (hl : 0 ≤ l) (hl' : l < 2 ^ ty.width) :
    ty.Fits (h * 2 ^ ty.width + l) ↔ h = ty.extension l := by
  have hhalf := ty.two_mul_two_pow_pred
  unfold Fits extension
  rw [minValue_eq, maxValue_eq]
  generalize (2 : ℤ) ^ ty.width = whole at *
  generalize (2 : ℤ) ^ (ty.width - 1) = half at *
  have hzero : h = 0 → h * whole = 0 := fun heq => by rw [heq, zero_mul]
  have hneg : h = -1 → h * whole = -whole := fun heq => by rw [heq, neg_one_mul]
  -- elsewhere it is out of range whatever the low word is
  have hhigh : 1 ≤ h → whole ≤ h * whole := fun hle => le_mul_of_one_le_left (by omega) hle
  have hlow : h ≤ -2 → h * whole ≤ -2 * whole := fun hle => mul_le_mul_of_nonneg_right hle (by omega)
  cases ty.signed with
  | false =>
    simp only [Bool.false_eq_true, false_and, if_false]
    omega
  | true =>
    simp only [true_and, if_true]
    split
    · omega
    · omega

end IntType

namespace FixedInt

variable {ty : IntType}

/-! ## The wide product -/

/-- The product lies within the bounds of the type, each a word higher. -/
theorem product_bounds (a b : FixedInt ty) :
    ty.minValue * 2 ^ ty.width ≤ a.value * b.value ∧
      a.value * b.value < (ty.maxValue + 1) * 2 ^ ty.width := by
  obtain ⟨ha, ha'⟩ := a.fits_value
  obtain ⟨hb, hb'⟩ := b.fits_value
  have hhalf := ty.two_mul_two_pow_pred
  have hpos : (0 : ℤ) < 2 ^ (ty.width - 1) := by positivity
  rw [IntType.minValue_eq] at ha hb ⊢
  rw [IntType.maxValue_eq] at ha' hb' ⊢
  generalize (2 : ℤ) ^ ty.width = whole at *
  generalize (2 : ℤ) ^ (ty.width - 1) = half at *
  cases hs : ty.signed with
  | false =>
    simp only [hs, Bool.false_eq_true, if_false] at *
    constructor
    · rw [zero_mul]
      exact mul_nonneg ha hb
    · rw [sub_add_cancel]
      exact mul_lt_mul'' (by omega) (by omega) ha hb
  | true =>
    simp only [hs, if_true] at *
    have habs : |a.value * b.value| ≤ half * half := by
      rw [abs_mul]
      exact mul_le_mul (abs_le.2 ⟨ha, by omega⟩) (abs_le.2 ⟨hb, by omega⟩) (abs_nonneg _) (by omega)
    obtain ⟨hmin, hmax⟩ := abs_le.1 habs
    have hlong : half * half < half * whole := mul_lt_mul_of_pos_left (by omega) hpos
    constructor
    · rw [neg_mul]
      omega
    · rw [sub_add_cancel]
      omega

theorem toNat_wide_modEq (a : FixedInt ty) : (a.wide.toNat : ℤ) ≡ a.value [ZMOD 2 ^ 128] := by
  rw [← toInt_wide, BitVec.toInt_eq_toNat_bmod]
  exact Int.bmod_emod.symm

theorem toNat_wide_mul_modEq (a b : FixedInt ty) :
    ((a.wide * b.wide).toNat : ℤ) ≡ a.value * b.value [ZMOD 2 ^ 128] := by
  rw [BitVec.toNat_mul]
  push_cast
  exact (Int.mod_modEq _ _).trans (a.toNat_wide_modEq.mul b.toNat_wide_modEq)

/-- Without a sign the wide word is read as the number it is. -/
theorem toNat_wide (hs : ¬ty.signed = true) (a : FixedInt ty) : (a.wide.toNat : ℤ) = a.value := by
  obtain ⟨hmin, -⟩ := a.fits_value
  obtain ⟨-, hlt⟩ := a.fits_value.bounds
  have hwide := a.wide.isLt
  have hmod := a.toNat_wide_modEq
  rw [IntType.minValue_eq, if_neg hs] at hmin
  rwa [Int.ModEq, Int.emod_eq_of_lt (by omega) (by omega), Int.emod_eq_of_lt hmin (by omega)] at hmod

/-- No product overflows a wide word that is read as the values are, with a sign or without. -/
theorem wide_mul_fits (a b : FixedInt ty) :
    if ty.signed then a.wide.smulOverflow b.wide = false else a.wide.umulOverflow b.wide = false := by
  have hbound := (a.product_bounds b).2
  have hlong := ty.two_pow_width_mul_le
  have hhalf := ty.two_mul_two_pow_pred
  rw [IntType.maxValue_eq] at hbound
  split
  · next hs =>
    rw [if_pos hs, sub_add_cancel] at hbound
    have htwice : 2 * ((2 : ℤ) ^ (ty.width - 1) * 2 ^ ty.width) = 2 ^ ty.width * 2 ^ ty.width := by
      rw [← mul_assoc, hhalf]
    rw [Bool.eq_false_iff, Ne, smulOverflow_iff, not_le]
    omega
  · next hs =>
    rw [if_neg hs, sub_add_cancel] at hbound
    have hlt : a.wide.toNat * b.wide.toNat < 2 ^ 128 := by
      zify
      rw [toNat_wide hs, toNat_wide hs]
      omega
    unfold BitVec.umulOverflow
    exact decide_eq_false (by omega)

/-- The words are the quotient and the remainder of the exact product, each wrapped. -/
theorem multipliedFullWidth_eq (a b : FixedInt ty) : a.multipliedFullWidth b =
    (wrap (a.value * b.value / 2 ^ ty.width), wrap (a.value * b.value)) := by
  obtain ⟨k, hk⟩ := Int.modEq_iff_add_fac.1 (a.toNat_wide_mul_modEq b).symm
  -- what a wide word loses is a multiple of two words, and so is no part of either
  obtain ⟨c, hc⟩ : ∃ c : ℤ, (2 : ℤ) ^ 128 = 2 ^ ty.width * (2 ^ ty.width * c) := by
    have hwidth := ty.width_le
    refine ⟨2 ^ (128 - 2 * ty.width), ?_⟩
    rw [← pow_add, ← pow_add]
    congr 1
    omega
  rw [hc, mul_assoc, mul_assoc] at hk
  have hhigh : (((a.wide * b.wide) >>> ty.width).toNat : ℤ) =
      a.value * b.value / 2 ^ ty.width + 2 ^ ty.width * (c * k) := by
    rw [BitVec.toNat_ushiftRight, Nat.shiftRight_eq_div_pow]
    push_cast
    rw [hk, Int.add_mul_ediv_left _ _ (by positivity)]
  unfold multipliedFullWidth
  refine congrArg₂ Prod.mk ?_ ?_
  · show (⟨BitPattern.ofNat ty.width ((a.wide * b.wide) >>> ty.width).toNat⟩ : FixedInt ty) = _
    rw [ofNat_eq_wrap, hhigh]
    exact wrap_congr (Int.modEq_iff_add_fac.2 ⟨c * k, rfl⟩).symm
  · show (⟨BitPattern.ofNat ty.toUnsigned.width (a.wide * b.wide).toNat⟩ :
      FixedInt ty.toUnsigned) = _
    rw [ofNat_eq_wrap, hk]
    exact wrap_congr (Int.modEq_iff_add_fac.2 ⟨_, rfl⟩).symm

/-! ## The words -/

/-- A low word is read without a sign. -/
theorem value_toUnsigned (low : FixedInt ty.toUnsigned) : low.value = low.bits.toNat := rfl

theorem low_bounds (low : FixedInt ty.toUnsigned) : 0 ≤ low.value ∧ low.value < 2 ^ ty.width := by
  have hlt : low.bits.toNat < 2 ^ ty.width := low.bits.toBitVec.isLt
  rw [value_toUnsigned]
  exact ⟨Int.natCast_nonneg _, by exact_mod_cast hlt⟩

/-- All bits of an extension are the same. -/
theorem bit_wrap_extension (low : FixedInt ty.toUnsigned) {i : ℕ} (hi : i < ty.width) :
    (wrap (ty.extension low.value) : FixedInt ty).bits.bit i = (ty.signed && low.bits.signBit) := by
  have hsign : low.bits.signBit = decide (2 ^ (ty.width - 1) ≤ low.value) := by
    show low.bits.toBitVec.msb = _
    rw [BitVec.msb_eq_decide, value_toUnsigned, decide_eq_decide]
    exact_mod_cast Iff.rfl
  have hones : BitVec.ofInt ty.width (-1) = BitVec.allOnes ty.width := by
    rw [BitVec.ofInt_neg, ← BitVec.neg_one_eq_allOnes]
    rfl
  rw [hsign]
  show (BitVec.ofInt ty.width (ty.extension low.value)).getLsbD i = _
  unfold IntType.extension
  split
  · next h => rw [hones, BitVec.getLsbD_allOnes, decide_eq_true hi, h.1, decide_eq_true h.2, Bool.and_self]
  · next h =>
    have hzeros : (BitVec.ofInt ty.width 0).getLsbD i = false := BitVec.getLsbD_zero
    rw [hzeros, eq_comm, ← Bool.not_eq_true, Bool.and_eq_true, decide_eq_true_eq]
    exact h

theorem isExtension_iff (high : FixedInt ty) (low : FixedInt ty.toUnsigned) :
    BitPattern.IsExtension ty.signed low.bits high.bits ↔ high.value = ty.extension low.value := by
  constructor
  · intro h
    have hbits : high.bits.toBitVec = (wrap (ty.extension low.value) : FixedInt ty).bits.toBitVec := by
      apply BitVec.eq_of_getLsbD_eq
      intro i hi
      exact (h i hi).trans (bit_wrap_extension low hi).symm
    have heq : high = wrap (ty.extension low.value) :=
      congrArg (fun v => (⟨⟨v⟩⟩ : FixedInt ty)) hbits
    rw [heq, value_wrap _ (ty.fits_extension low.value)]
  · intro h i hi
    have hbit := bit_wrap_extension low hi
    rwa [← h, wrap_value] at hbit

/-- The two words of a product hold it exactly.  The low one is the wrapped product, and the product
overflows just where the high one says more than how the low one goes on. -/
theorem multipliedFullWidth_exact (a b : FixedInt ty) :
    ∃ (high : FixedInt ty) (low : FixedInt ty.toUnsigned) (overflow : Bool),
      a.multipliedFullWidth b = (high, low) ∧
      high.value * 2 ^ ty.width + low.value = a.value * b.value ∧
      wrapping .mul a b = .ok ⟨low.bits⟩ ∧
      overflowing .mul a b = .ok (⟨low.bits⟩, overflow) ∧
      (overflow = true ↔ ¬BitPattern.IsExtension ty.signed low.bits high.bits) ∧
      if ty.signed then a.wide.smulOverflow b.wide = false
      else a.wide.umulOverflow b.wide = false := by
  have hpos : (0 : ℤ) < 2 ^ ty.width := by positivity
  obtain ⟨hmin, hmax⟩ := a.product_bounds b
  have hhigh : (wrap (a.value * b.value / 2 ^ ty.width) : FixedInt ty).value =
      a.value * b.value / 2 ^ ty.width := by
    apply value_wrap
    exact ⟨Int.le_ediv_of_mul_le hpos hmin, Int.le_of_lt_add_one (Int.ediv_lt_of_lt_mul hpos hmax)⟩
  have hlow : (wrap (a.value * b.value) : FixedInt ty.toUnsigned).value =
      a.value * b.value % 2 ^ ty.width := by
    obtain ⟨h0, hlt⟩ := low_bounds (wrap (a.value * b.value) : FixedInt ty.toUnsigned)
    rw [← Int.emod_eq_of_lt h0 hlt]
    exact value_wrap_modEq (a.value * b.value)
  have hexact : (wrap (a.value * b.value / 2 ^ ty.width) : FixedInt ty).value * 2 ^ ty.width +
      (wrap (a.value * b.value) : FixedInt ty.toUnsigned).value = a.value * b.value := by
    rw [hhigh, hlow]
    exact Int.ediv_mul_add_emod _ _
  have hover : overflowing .mul a b = .ok
      (⟨(wrap (a.value * b.value) : FixedInt ty.toUnsigned).bits⟩,
        decide (¬ty.Fits (a.value * b.value))) :=
    congrArg Except.ok (overflowingMul_eq a b)
  refine ⟨_, _, _, multipliedFullWidth_eq a b, hexact, ?_, hover, ?_, wide_mul_fits a b⟩
  · unfold wrapping
    rw [hover]
    rfl
  · obtain ⟨h0, hlt⟩ := low_bounds (wrap (a.value * b.value) : FixedInt ty.toUnsigned)
    rw [decide_eq_true_iff, isExtension_iff, ← ty.fits_words_iff h0 hlt, hexact]

/-- `-128 × 127 = -64 × 256 + 128`. -/
example : (minimum : FixedInt { width := 8, signed := true }).multipliedFullWidth maximum =
    (wrap (-64), wrap 128) := by decide +kernel

end FixedInt

end MachineNumbers
