import Mathlib
import MachineNumbers.FixedInt.Basic

/-!
# Fixed-width integers as residues

A value is congruent to its pattern modulo `2^width`, and wrapping takes any integer to the one value of
the type congruent to it (`value_wrap_modEq`, `eq_wrap_of_modEq`).  `ofInt?` gives the value with that integer,
if there is one (`ofInt?_eq_some_iff`, `ofInt?_eq_none_iff`).
-/

namespace MachineNumbers

namespace IntType

variable (ty : IntType)

theorem width_pos : 0 < ty.width := by
  have := ty.isWordWidth
  unfold IsWordWidth at this
  omega

/-- No supported type is wider than a machine word. -/
theorem width_le : ty.width ≤ 64 := by
  have := ty.isWordWidth
  unfold IsWordWidth at this
  omega

theorem two_mul_two_pow_pred : 2 * (2 : ℤ) ^ (ty.width - 1) = 2 ^ ty.width := by
  rw [← pow_succ', Nat.sub_add_cancel ty.width_pos]

theorem two_pow_width_le : (2 : ℤ) ^ ty.width ≤ 2 ^ 64 :=
  pow_le_pow_right₀ (by norm_num) ty.width_le

/-- The least value in two's complement, or zero. -/
theorem minValue_eq : ty.minValue = if ty.signed then -2 ^ (ty.width - 1) else 0 := by
  unfold minValue
  simp

theorem maxValue_eq :
    ty.maxValue = if ty.signed then 2 ^ (ty.width - 1) - 1 else 2 ^ ty.width - 1 := by
  unfold maxValue
  simp

theorem minValue_nonpos : ty.minValue ≤ 0 := by
  have : (0 : ℤ) < 2 ^ (ty.width - 1) := by positivity
  rw [minValue_eq]
  split <;> omega

theorem maxValue_nonneg : 0 ≤ ty.maxValue := by
  have h1 : (0 : ℤ) < 2 ^ (ty.width - 1) := by positivity
  have h2 : (0 : ℤ) < 2 ^ ty.width := by positivity
  rw [maxValue_eq]
  split <;> omega

/-- The bounds of every type lie within those of 64 bits, signed below and unsigned above. -/
theorem bounds (ty : IntType) : -2 ^ 63 ≤ ty.minValue ∧ ty.maxValue < 2 ^ 64 := by
  have hwidth := ty.two_pow_width_le
  have htwo := ty.two_mul_two_pow_pred
  rw [minValue_eq, maxValue_eq]
  split <;> constructor <;> omega

/-- No value is as far from zero as `2^64`. -/
theorem Fits.bounds {ty : IntType} {v : ℤ} (h : ty.Fits v) : -2 ^ 63 ≤ v ∧ v < 2 ^ 64 :=
  ⟨ty.bounds.1.trans h.1, h.2.trans_lt ty.bounds.2⟩

end IntType

namespace FixedInt

variable {ty : IntType}

/-- The value and the stored word differ by a multiple of the modulus. -/
theorem value_modEq_toNat (a : FixedInt ty) : a.value ≡ a.bits.toNat [ZMOD 2 ^ ty.width] := by
  unfold value
  split
  · have hcast : (2 : ℤ) ^ ty.width = (2 ^ ty.width : ℕ) := by push_cast; rfl
    unfold Int.ModEq BitPattern.toInt BitPattern.toNat
    rw [BitVec.toInt_eq_toNat_bmod, hcast, Int.bmod_emod]
  · rfl

/-- Congruent values are equal. -/
theorem eq_of_modEq {a b : FixedInt ty} (h : a.value ≡ b.value [ZMOD 2 ^ ty.width]) : a = b := by
  have hbits : (a.bits.toNat : ℤ) ≡ b.bits.toNat [ZMOD 2 ^ ty.width] :=
    a.value_modEq_toNat.symm.trans (h.trans b.value_modEq_toNat)
  have ha : a.bits.toNat < 2 ^ ty.width := a.bits.toBitVec.isLt
  have hb : b.bits.toNat < 2 ^ ty.width := b.bits.toBitVec.isLt
  have heq : a.bits.toNat = b.bits.toNat := by
    have hmod : a.bits.toNat ≡ b.bits.toNat [MOD 2 ^ ty.width] := by
      apply Int.natCast_modEq_iff.1
      push_cast
      exact hbits
    rwa [Nat.ModEq, Nat.mod_eq_of_lt ha, Nat.mod_eq_of_lt hb] at hmod
  obtain ⟨⟨a⟩⟩ := a
  obtain ⟨⟨b⟩⟩ := b
  have : a = b := BitVec.eq_of_toNat_eq heq
  rw [this]

/-- Storing a number keeps its residue. -/
theorem toNat_wrap_modEq (v : ℤ) :
    ((wrap v : FixedInt ty).bits.toNat : ℤ) ≡ v [ZMOD 2 ^ ty.width] := by
  unfold wrap BitPattern.ofInt BitPattern.toNat
  have hpos : (0 : ℤ) < 2 ^ ty.width := by positivity
  have hnonneg : 0 ≤ v % 2 ^ ty.width := Int.emod_nonneg _ hpos.ne'
  rw [BitVec.toNat_ofInt]
  push_cast
  rw [Int.toNat_of_nonneg hnonneg]
  exact Int.mod_modEq v _

theorem value_wrap_modEq (v : ℤ) : (wrap v : FixedInt ty).value ≡ v [ZMOD 2 ^ ty.width] :=
  (value_modEq_toNat _).trans (toNat_wrap_modEq v)

/-- A stored number is known by its residue, since the values are one full system of residues. -/
theorem eq_wrap_of_modEq {a : FixedInt ty} {v : ℤ} (h : a.value ≡ v [ZMOD 2 ^ ty.width]) :
    a = wrap v :=
  eq_of_modEq (h.trans (value_wrap_modEq v).symm)

theorem wrap_value (a : FixedInt ty) : wrap a.value = a := (eq_wrap_of_modEq rfl).symm

/-- Wrapping sees the residue only. -/
theorem wrap_congr {v w : ℤ} (h : v ≡ w [ZMOD 2 ^ ty.width]) : (wrap v : FixedInt ty) = wrap w :=
  eq_wrap_of_modEq ((value_wrap_modEq v).trans h)

theorem ofNat_eq_wrap (n : ℕ) : (⟨BitPattern.ofNat ty.width n⟩ : FixedInt ty) = wrap n := by
  unfold wrap BitPattern.ofInt BitPattern.ofNat
  rw [BitVec.ofInt_natCast]

theorem value_zero : (zero : FixedInt ty).value = 0 := by
  unfold zero BitPattern.zero value BitPattern.toInt BitPattern.toNat
  simp

theorem zero_eq_wrap : (zero : FixedInt ty) = wrap 0 := by
  rw [← @value_zero ty, wrap_value]

/-! ## Checked values -/

theorem ofInt?_of_fits {v : ℤ} (h : ty.Fits v) : (ofInt? v : Option (FixedInt ty)) = some (wrap v) :=
  if_pos h

/-- A checked conversion gives the number with that value, when there is one. -/
theorem ofInt?_eq_some_iff {v : ℤ} {a : FixedInt ty} : ofInt? v = some a ↔ a.value = v := by
  constructor
  · intro h
    unfold ofInt? at h
    split at h
    · next hfits => rw [← Option.some.inj h, value_wrap v hfits]
    · cases h
  · rintro rfl
    rw [ofInt?_of_fits (fits_value a), wrap_value]

theorem ofInt?_eq_none_iff {v : ℤ} : (ofInt? v : Option (FixedInt ty)) = none ↔ ¬ty.Fits v := by
  unfold ofInt?
  split <;> simp_all

theorem ofIntTrapping_of_fits {v : ℤ} (h : ty.Fits v) :
    (ofIntTrapping v : Except Overflow (FixedInt ty)) = .ok (wrap v) := by
  unfold ofIntTrapping
  rw [ofInt?_of_fits h]

theorem ofIntTrapping_of_not_fits {v : ℤ} (h : ¬ty.Fits v) :
    (ofIntTrapping v : Except Overflow (FixedInt ty)) = .error .conversion := by
  unfold ofIntTrapping
  rw [ofInt?_eq_none_iff.2 h]

end FixedInt

end MachineNumbers
