import Mathlib
import MachineNumbers.Proofs.Checked.Kernels
import MachineNumbers.Proofs.CorrectRounding

/-!
# Aligned sums are exact up to a sticky bit

The sum kernel takes no step that fails on significands of up to 125 bits and exponents up to `2^20`, which
leaves room for a float and for a product of two (`IsAddend.within`).  Its significand and flag enclose the
magnitude of the exact sum in a unit of the last place, also where a lost tail is borrowed, and its sign is
that of the sum, plus if it is zero.
-/

namespace MachineNumbers

namespace Unpacked

variable {x y : Unpacked} {r : ℚ}

/-- What the sums are given: floats that are taken apart, and products of two of them. -/
inductive IsAddend (fmt : FloatFormat) : Unpacked → Prop
  | unpack (mode : SubnormalMode) (x : BinaryFloat fmt) : IsAddend fmt (x.unpack mode)
  | product (mode : SubnormalMode) (x y : BinaryFloat fmt) :
    IsAddend fmt ((x.unpack mode).mul (y.unpack mode))

theorem IsAddend.within {fmt : FloatFormat} (h : IsAddend fmt x) : x.Within 106 (2 ^ 16) := by
  cases h with
  | unpack mode x => exact (Checked.unpack_within mode x).mono (by decide) (by decide)
  | product mode x y =>
    exact ((Checked.unpack_within mode x).mul (Checked.unpack_within mode y)).mono le_rfl (by decide)

theorem SumOf.holds {u : Unpacked × Bool} (h : SumOf u r) : u.1.Holds u.2 |r| := by
  rw [← holdsReal_cast, Rat.cast_abs]
  exact h.standsFor.magnitude

/-- The sign of a sum is that of the number; a zero is positive. -/
theorem sign_add_iff (h : SumOf (x.add y) r) : (x.add y).1.sign = true ↔ r < 0 := by
  by_cases hr : r = 0
  · have hsig : (x.add y).1.sig = 0 := by
      by_contra hne
      have hpos := h.standsFor.magnitude.pos hne
      rw [hr, Rat.cast_zero, abs_zero] at hpos
      exact lt_irrefl _ hpos
    rw [sign_add_of_sig_eq_zero hsig, hr]
    simp
  · rw [h.standsFor.sign (by exact_mod_cast hr)]
    norm_cast

/-- A sum that has lost bits has more than any format keeps. -/
theorem SumOf.exp_lt_lastExp {u : Unpacked × Bool} (h : SumOf u r) (fmt : FloatFormat)
    (hlost : u.2 = true) : u.1.exp < fmt.lastExp u.1.leadExp := by
  have hfrac := fmt.fractionBits_le
  exact Unpacked.exp_lt_lastExp
    ((Nat.pow_le_pow_right (by decide) (by omega)).trans (h.le_sig hlost))

/-- The sum of two nonzero numbers of up to 125 bits is exact up to the sticky flag, with the sign of the
exact sum.  Where bits are lost the significand has more than 124 and rounding discards some.  Floats and
products of two are such numbers. -/
theorem add_exact_up_to_sticky (fmt : FloatFormat) :
    (∀ x y : Unpacked, x.sig ≠ 0 → y.sig ≠ 0 → x.Within 125 (2 ^ 20) → y.Within 125 (2 ^ 20) →
      Checked.sum? x y = some (x.add y) ∧
      (x.add y).1.Holds (x.add y).2 |x.value + y.value| ∧
      ((x.add y).1.sign = true ↔ x.value + y.value < 0) ∧
      ((x.add y).2 = true →
        2 ^ 124 ≤ (x.add y).1.sig ∧ (x.add y).1.exp < fmt.lastExp (x.add y).1.leadExp)) ∧
    ∀ x : Unpacked, IsAddend fmt x → x.Within 125 (2 ^ 20) := by
  refine ⟨fun x y hx0 hy0 hx hy => ?_, fun x hx => hx.within.mono (by decide) (by decide)⟩
  have hsum := add_sumOf hx0 hx.sig_lt hy0 hy.sig_lt
  exact ⟨Checked.sum?_eq hx0 hx hy0 hy, hsum.holds, sign_add_iff hsum,
    fun hlost => ⟨hsum.le_sig hlost, hsum.exp_lt_lastExp fmt hlost⟩⟩

/-- One less `2^(-200)`, which is shifted out as a whole and borrowed. -/
theorem add_exact_up_to_sticky_borrow :
    Checked.sum? ⟨false, 0, 1⟩ ⟨true, -200, 1⟩ = some (⟨false, -125, 2 ^ 125 - 1⟩, true) ∧
      (⟨false, -125, 2 ^ 125 - 1⟩ : Unpacked).Holds true
        |value ⟨false, 0, 1⟩ + value ⟨true, -200, 1⟩| ∧
      (-125 : ℤ) < FloatFormat.binary64.lastExp (-1) := by
  have hsum : (add ⟨false, 0, 1⟩ ⟨true, -200, 1⟩ : Unpacked × Bool) =
      (⟨false, -125, 2 ^ 125 - 1⟩, true) := by decide +kernel
  obtain ⟨hsteps, hholds, -, hbits⟩ := (add_exact_up_to_sticky .binary64).1
    ⟨false, 0, 1⟩ ⟨true, -200, 1⟩ (by decide) (by decide) ⟨by decide, by decide, by decide⟩
    ⟨by decide, by decide, by decide⟩
  rw [hsum] at hsteps hholds hbits
  exact ⟨hsteps, hholds, (hbits rfl).2⟩

end Unpacked

end MachineNumbers
