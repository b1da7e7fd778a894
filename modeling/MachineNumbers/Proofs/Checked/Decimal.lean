import Mathlib
import MachineNumbers.BinaryFloat.Checked.Decimal
import MachineNumbers.Proofs.Checked.Operations
import MachineNumbers.Proofs.Decimal.Division

/-!
# Decimals are read in machine words

On a decimal of less than `2^28` digits no step of `Checked.ofDecimal?` fails, and it finds the float that
`BinaryFloat.ofDecimal` does (`ofDecimal?_eq`).  A single operation is on few digits and a small power of ten
(`single?_eq`); on limbs, the cut-offs bound every word (`limbwise?_eq`).
-/

namespace MachineNumbers.Checked

open BinaryFloat (digitsFloat scaleFloat singleOperation)
open CheckedDecimal (Sized quotient_sig_ne_zero small?_eq)
open MachineWord

variable {fmt : FloatFormat} {d : Decimal} {negative : Bool}

/-! ## One operation -/

/-- A whole number is packed without a step that fails. -/
theorem roundPack?_whole {sig : ℕ} (hsig : sig < 2 ^ 128) :
    roundPack? .gradual ⟨negative, 0, sig⟩ false =
      some (.roundPack .gradual ⟨negative, 0, sig⟩ false : BinaryFloat fmt) :=
  roundPack?_eq .gradual ⟨hsig, by norm_num, by norm_num⟩ (by simp)

theorem scaledOnce?_eq (hmantissa : d.mantissa < 2 ^ 128) (hpower : d.exp.natAbs ≤ 27) :
    scaledOnce? negative d.mantissa d.exp.natAbs d.exp =
      some (if (digitsFloat negative d : BinaryFloat fmt).isFinite &&
          (scaleFloat d : BinaryFloat fmt).isFinite
        then some (singleOperation negative d : BinaryFloat fmt) else none) := by
  have hten : 10 ^ d.exp.natAbs < 2 ^ 128 :=
    (Nat.pow_le_pow_right (by decide) hpower).trans_lt (by norm_num)
  unfold scaledOnce? singleOperation digitsFloat scaleFloat
  rw [Nat.pow_eq, bind_of_some (unsigned?_of_lt hten), bind_of_some (roundPack?_whole hmantissa),
    bind_of_some (roundPack?_whole hten)]
  split
  · split
    · rw [bind_of_some (mul?_eq _ _ _)]
    · rw [bind_of_some (div?_eq _ _ _)]
  · rfl

theorem single?_eq (h : d.Normal) :
    single? negative d d.exp.natAbs =
      some (BinaryFloat.ofDecimalSingle? negative d : Option (BinaryFloat fmt)) := by
  have hfrac := fmt.fractionBits_le
  have hprecision : fmt.precision = fmt.fractionBits + 1 := rfl
  unfold single? BinaryFloat.ofDecimalSingle?
  rw [bind_of_some (small?_eq h.digits_lt)]
  by_cases hmany : 19 < d.digits.length
  · rw [if_pos hmany, if_neg fun hfew => absurd hfew.1 (not_le.2 hmany)]
  rw [if_neg hmany]
  dsimp only
  by_cases hfew : d.mantissa < Nat.pow 2 fmt.precision ∧ d.exp.natAbs ≤ 27
  · have hfive : Nat.pow 5 d.exp.natAbs < 2 ^ 64 :=
      (Nat.pow_le_pow_right (by decide) hfew.2).trans_lt (by norm_num)
    have hmantissa : d.mantissa < 2 ^ 128 :=
      hfew.1.trans_le (Nat.pow_le_pow_right (by decide) (by omega))
    rw [if_pos hfew, bind_of_some (unsigned?_of_lt hfive)]
    by_cases hexact : Nat.pow 5 d.exp.natAbs < Nat.pow 2 fmt.precision
    · rw [if_pos hexact, if_pos ⟨not_lt.1 hmany, hfew.1, hfew.2, hexact⟩]
      exact scaledOnce?_eq hmantissa hfew.2
    · rw [if_neg hexact, if_neg fun hsmall => hexact hsmall.2.2.2]
  · rw [if_neg hfew, if_neg fun hsmall => hfew ⟨hsmall.2.1, hsmall.2.2.1⟩]

/-! ## Limbs -/

/-- What is kept of a product are at least one and at most 126 bits. -/
theorem product_within (h : Sized fmt d) (hexp : 0 ≤ d.exp) :
    (d.product negative).1.sig ≠ 0 ∧ (d.product negative).1.Within 128 (2 ^ 30 + 2 ^ 20) := by
  have hbounds := h.exp_bounds
  have hsize := CheckedDecimal.size_ten_pow_mul_le h.normal d.exp.toNat
  obtain ⟨shift, N, hN, hshift, heq⟩ := Decimal.product_eq h.normal.digits_lt negative
  rw [Nat.mul_comm, ← hN] at hsize
  have hN0 : N ≠ 0 := by
    rw [hN]
    exact Nat.mul_ne_zero h.normal.mantissa_ne_zero (by positivity)
  have hpos : 0 < N.size := Nat.size_pos.2 (Nat.pos_of_ne_zero hN0)
  have hbelow : 2 ^ shift ≤ N :=
    (Nat.pow_le_pow_right (by decide) (by omega)).trans (Nat.lt_size.1 (Nat.sub_lt hpos Nat.one_pos))
  have habove : N / 2 ^ shift < 2 ^ 128 := by
    rw [Nat.div_lt_iff_lt_mul (Nat.two_pow_pos shift), ← pow_add]
    exact (Nat.lt_size_self N).trans_le (Nat.pow_le_pow_right (by decide) (by omega))
  rw [heq]
  exact ⟨(Nat.div_pos hbelow (Nat.two_pow_pos shift)).ne', habove, by dsimp only; omega,
    by dsimp only; omega⟩

theorem limbwise?_eq (h : Sized fmt d) :
    limbwise? negative d d.exp.natAbs = some (.ofDecimalExact negative d : BinaryFloat fmt) := by
  unfold limbwise? BinaryFloat.ofDecimalExact
  split
  · next hexp =>
    obtain ⟨hsig, hwithin⟩ := @product_within fmt d negative h hexp
    rw [bind_of_some (h.product?_eq hexp negative)]
    exact roundPack?_eq .gradual hwithin fun _ => hsig
  · rw [bind_of_some (h.quotient?_eq negative)]
    exact roundPack?_eq .gradual (h.quotient_within negative) fun _ => quotient_sig_ne_zero h.normal _ _

/-! ## All ways together -/

theorem ofDecimal?_eq (h : d.Normal) (hlength : d.digits.length < 2 ^ 28) (hexp : -2 ^ 63 ≤ d.exp) :
    ofDecimal? negative d = some (.ofDecimal negative d : BinaryFloat fmt) := by
  have hplaces : -2 ^ 63 ≤ d.places - 1 ∧ d.places - 1 < 2 ^ 63 := by
    have := h.length_pos
    unfold Decimal.places
    rw [Decimal.saturated_eq]
    omega
  unfold ofDecimal? BinaryFloat.ofDecimal
  rw [bind_of_some (signed?_of_bounds hplaces.1 hplaces.2)]
  split
  · rfl
  · next hlarge =>
    split
    · rfl
    · next hsmall =>
      have hsized : Sized fmt d := ⟨h, hlength.le, not_lt.1 hlarge, not_lt.1 hsmall⟩
      have hpower := hsized.natAbs_exp_lt
      rw [bind_of_some (unsigned?_of_lt (by omega)), bind_of_some (single?_eq h)]
      cases BinaryFloat.ofDecimalSingle? negative d with
      | some x => rfl
      | none => exact limbwise?_eq hsized

end MachineNumbers.Checked
