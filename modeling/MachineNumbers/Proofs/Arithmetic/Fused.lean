import Mathlib
import MachineNumbers.Proofs.Flushing

/-!
# Fused sums that are plain

A fused sum with a factor of one is the plain sum, and one that adds to a zero of the product's sign is the
plain product (`addProduct_agrees`).  The product with one moves the significand up by the fraction bits and
the exponent down as far (`mul_unpack_one`), which neither normalising nor packing sees
(`normalised_shifted`, `roundPack_shifted`).
-/

namespace MachineNumbers

namespace Unpacked

/-- The same number, with a significand that is moved up by some places. -/
def shifted (x : Unpacked) (places : ℕ) : Unpacked :=
  { x with exp := x.exp - places, sig := x.sig <<< places }

variable {x : Unpacked} {places : ℕ}

theorem value_shifted (x : Unpacked) (places : ℕ) : (x.shifted places).value = x.value := by
  unfold value shifted
  rw [shiftLeft_mul_zpow]

theorem sig_shifted_ne_zero (h0 : x.sig ≠ 0) (places : ℕ) : (x.shifted places).sig ≠ 0 := by
  show x.sig <<< places ≠ 0
  rw [Nat.shiftLeft_eq]
  exact Nat.mul_ne_zero h0 (Nat.two_pow_pos places).ne'

theorem log2_sig_shifted (h0 : x.sig ≠ 0) (places : ℕ) :
    (x.shifted places).sig.log2 = x.sig.log2 + places :=
  (Nat.log2_eq_iff (sig_shifted_ne_zero h0 places)).2 (shiftLeft_bounds h0 places)

theorem shifted_shifted (x : Unpacked) (i j : ℕ) : (x.shifted i).shifted j = x.shifted (i + j) := by
  unfold shifted
  rw [Nat.shiftLeft_add, Nat.cast_add, sub_sub]

/-- A number is normalised from any place below the one it comes to. -/
theorem normalised_shifted (h0 : x.sig ≠ 0) (hplaces : x.sig.log2 + places ≤ leadPlace) :
    (x.shifted places).normalised = x.normalised := by
  show (x.shifted places).shifted (leadPlace - (x.shifted places).sig.log2) =
    x.shifted (leadPlace - x.sig.log2)
  rw [log2_sig_shifted h0, shifted_shifted]
  congr 1
  omega

/-- Sums are of normalised numbers. -/
theorem add_congr_right {x y y' : Unpacked} (h : y.normalised = y'.normalised) : x.add y = x.add y' := by
  unfold add
  rw [h]

end Unpacked

namespace BinaryFloat

variable {fmt : FloatFormat} {x y z : BinaryFloat fmt} {u : Unpacked} {mode : SubnormalMode}

/-- Packing does not see where the significand is. -/
theorem roundPack_shifted (mode : SubnormalMode) {places : ℕ} (h0 : u.sig ≠ 0)
    (hlt : (u.shifted places).sig < 2 ^ 128) :
    (roundPack mode (u.shifted places) false : BinaryFloat fmt) = roundPack mode u false := by
  have h0' := Unpacked.sig_shifted_ne_zero h0 places
  have hle : u.sig ≤ (u.shifted places).sig := by
    show u.sig ≤ u.sig <<< places
    rw [Nat.shiftLeft_eq]
    exact Nat.le_mul_of_pos_right _ (Nat.two_pow_pos places)
  have hgradual : (roundPack .gradual (u.shifted places) false : BinaryFloat fmt) =
      roundPack .gradual u false := by
    have hvalue : (u.shifted places).Holds false (u.sig * 2 ^ u.exp) :=
      Unpacked.holds_false.2 (shiftLeft_mul_zpow u.sig places u.exp).symm
    refine ext_word (by rw [roundPack_sign, roundPack_sign]; rfl) ?_
    exact (roundPack_roundsTo h0' hlt hvalue (by simp)).unique
      (roundPack_roundsTo h0 (hle.trans_lt hlt) (Unpacked.holds_false.2 rfl) (by simp))
  cases mode with
  | gradual => exact hgradual
  | flushToZero =>
    have hshifted := (u.shifted places).standsFor_value
    rw [Unpacked.value_shifted] at hshifted
    rw [hshifted.roundPack_flushToZero, hgradual, u.standsFor_value.roundPack_flushToZero]

/-! ## One -/

/-- One has the exponent field in the middle, in which it is no subnormal, and an empty fraction. -/
theorem unpack_one (mode : SubnormalMode) : (one : BinaryFloat fmt).unpack mode =
    ⟨false, -fmt.fractionBits, fmt.hiddenBit⟩ := by
  have hbias := fmt.one_le_bias
  have hlead : fmt.minLead ≤ 0 := by
    unfold FloatFormat.minLead
    omega
  have hword : (one : BinaryFloat fmt).word = fmt.bias * 2 ^ fmt.fractionBits := by
    have hlt := fmt.powerOfTwoWord_lt fmt.minExp_nonpos (Int.natCast_nonneg _)
    show (ofWord false (fmt.powerOfTwoWord 0) : BinaryFloat fmt).word = _
    rw [word_ofWord hlt.le, FloatFormat.powerOfTwoWord, if_pos hlead, zero_add, Int.toNat_natCast]
    rfl
  have hexponent : (one : BinaryFloat fmt).exponentField = fmt.bias := by
    unfold exponentField
    rw [hword]
    exact Nat.mul_div_cancel _ (Nat.two_pow_pos _)
  have hfraction : (one : BinaryFloat fmt).fractionField = 0 := by
    unfold fractionField
    rw [hword]
    exact Nat.mul_mod_left _ _
  have hexp : fmt.minExp + fmt.bias - 1 = -fmt.fractionBits := by
    rw [fmt.minExp_eq]
    omega
  unfold unpack
  rw [hexponent, hfraction, if_neg (by omega), hexp, Nat.zero_add]
  rfl

theorem readsAsZero_one (mode : SubnormalMode) : (one : BinaryFloat fmt).readsAsZero mode = false := by
  have hpos := fmt.hiddenBit_pos
  rw [Bool.eq_false_iff, ne_eq, ← unpack_sig_eq_zero_iff_readsAsZero, unpack_one]
  exact hpos.ne'

/-- Multiplied by one, the significand moves up by the fraction bits. -/
theorem mul_unpack_one (u : Unpacked) (mode : SubnormalMode) :
    u.mul ((one : BinaryFloat fmt).unpack mode) = u.shifted fmt.fractionBits := by
  rw [unpack_one]
  unfold Unpacked.mul Unpacked.shifted
  rw [Bool.bne_false, Nat.shiftLeft_eq, ← sub_eq_add_neg]
  rfl

/-! ## Plain sums and products -/

theorem propagatedNaN?_append_of_not_isNaN (xs : List (BinaryFloat fmt)) (h : z.isNaN = false) :
    propagatedNaN? (xs ++ [z]) = propagatedNaN? xs := by
  simp [propagatedNaN?, List.find?_append, h]

/-- The significands of operands are short enough for a product with one to be normalised. -/
theorem unpack_sig_lt_two_pow_of_mode (mode : SubnormalMode) (x : BinaryFloat fmt) :
    (x.unpack mode).sig < 2 ^ 53 := by
  cases mode with
  | gradual => exact unpack_sig_lt_two_pow x
  | flushToZero =>
    rw [unpack_flushToZero]
    exact unpack_sig_lt_two_pow _

theorem readsAsZero_of_isInfinite (mode : SubnormalMode) (h : x.isInfinite = true) :
    x.readsAsZero mode = false := by
  have hplain := isSubnormal_of_not_finite (isFinite_of_isInfinite h)
  rw [readsAsZero_of_plain (.inr hplain), isZero_of_isInfinite h]

theorem sign_one : (one : BinaryFloat fmt).sign = false := rfl

theorem sign_zero (sign : Bool) : (zero sign : BinaryFloat fmt).sign = sign := rfl

/-- Times one, an infinity is added as it is: opposite ones are invalid, and of the same sign both sums
are the infinity. -/
theorem addProduct_one_of_isInfinite (hnan : propagatedNaN? [x, y] = none) (hy : y.isInfinite = true) :
    addProduct mode x y one = add mode x y := by
  have hone : (one : BinaryFloat fmt).isNaN = false := isNaN_of_isFinite isFinite_one
  have hnan' := (propagatedNaN?_append_of_not_isNaN [x, y] hone).trans hnan
  have hread : (y.readsAsZero mode || (one : BinaryFloat fmt).readsAsZero mode) = false := by
    rw [readsAsZero_of_isInfinite mode hy, readsAsZero_one, Bool.or_self]
  unfold addProduct add
  rw [List.cons_append, List.cons_append, List.nil_append] at hnan'
  rw [hnan, hnan']
  simp only [hy, hread, sign_one, Bool.bne_false, Bool.true_or, Bool.true_and, if_true, Bool.false_eq_true,
    if_false]
  cases hx : x.isInfinite with
  | false => exact (eq_infinity_of_isInfinite hy).symm
  | true =>
    rw [Bool.true_and, if_pos rfl, bne_comm]
    split
    · rfl
    · next hsign =>
      have hsame : y.sign = x.sign := by simpa using hsign
      rw [hsame]
      exact (eq_infinity_of_isInfinite hx).symm

/-- Times one, finite numbers are added as they are. -/
theorem addProduct_one_of_isFinite (hx : x.isFinite = true) (hy : y.isFinite = true) :
    addProduct mode x y one = add mode x y := by
  have hsig := unpack_sig_lt_two_pow_of_mode mode y
  have hbits := fmt.fractionBits_le
  have hone : ((one : BinaryFloat fmt).unpack mode).sig ≠ 0 := by
    rw [unpack_one]
    exact fmt.hiddenBit_pos.ne'
  have hnan : propagatedNaN? [x, y, one] = none :=
    Operation.propagatedNaN?_addProduct hx hy isFinite_one
  unfold addProduct add
  rw [hnan, propagatedNaN?_eq_none hx hy]
  simp only [isInfinite_of_isFinite hx, isInfinite_of_isFinite hy, isInfinite_of_isFinite isFinite_one,
    hone, or_false, Bool.or_self, Bool.false_eq_true, if_false, mul_unpack_one, sign_unpack, sign_one,
    Bool.bne_false]
  by_cases hy0 : (y.unpack mode).sig = 0
  · simp only [hy0, if_true]
  · have hlog : (y.unpack mode).sig.log2 < 53 := (Nat.log2_lt hy0).2 hsig
    have hplaces : (y.unpack mode).sig.log2 + fmt.fractionBits ≤ Unpacked.leadPlace := by
      unfold Unpacked.leadPlace
      omega
    have hlt : ((y.unpack mode).shifted fmt.fractionBits).sig < 2 ^ 128 := by
      have h := (shiftLeft_bounds hy0 fmt.fractionBits).2
      exact h.trans_le (Nat.pow_le_pow_right (by decide) (by omega))
    simp only [hy0, if_false, roundPack_shifted mode hy0 hlt,
      Unpacked.add_congr_right (Unpacked.normalised_shifted hy0 hplaces)]

theorem addProduct_one (mode : SubnormalMode) (x y : BinaryFloat fmt) :
    addProduct mode x y one = add mode x y := by
  have hone : (one : BinaryFloat fmt).isNaN = false := isNaN_of_isFinite isFinite_one
  have hnan : propagatedNaN? [x, y, one] = propagatedNaN? [x, y] :=
    propagatedNaN?_append_of_not_isNaN [x, y] hone
  cases hprop : propagatedNaN? [x, y] with
  | some nan =>
    unfold addProduct add
    rw [hnan, hprop]
  | none =>
    cases hy : y.isInfinite with
    | true => exact addProduct_one_of_isInfinite hprop hy
    | false =>
      cases hx : x.isInfinite with
      | true =>
        have hinf : (one : BinaryFloat fmt).isInfinite = false := isInfinite_of_isFinite isFinite_one
        simp [addProduct, add, hnan, hprop, hx, hy, hinf]
      | false =>
        exact addProduct_one_of_isFinite (isFinite_of_mem hprop (by simp) hx)
          (isFinite_of_mem hprop (by simp) hy)

/-- Added to a zero that has its sign, the product is rounded as it is. -/
theorem addProduct_zero (mode : SubnormalMode) (y z : BinaryFloat fmt) :
    addProduct mode (zero (y.sign != z.sign)) y z = mul mode y z := by
  have hfinite : (zero (y.sign != z.sign) : BinaryFloat fmt).isFinite = true := isFinite_of_isZero rfl
  have hsig : ((zero (y.sign != z.sign) : BinaryFloat fmt).unpack mode).sig = 0 := by
    rw [unpack_sig_eq_zero_iff_readsAsZero]
    rfl
  have hnan : propagatedNaN? [zero (y.sign != z.sign), y, z] = propagatedNaN? [y, z] := by
    unfold propagatedNaN?
    rw [List.find?_cons_of_neg (by simp [isNaN_of_isFinite hfinite])]
  unfold addProduct mul
  rw [hnan]
  simp only [isInfinite_of_isFinite hfinite, hsig, sign_unpack, sign_zero, Bool.and_self, Bool.false_and,
    Bool.false_eq_true, if_false, if_true]

/-- Where fused and plain operations overlap they agree, in either mode and for all operands, NaNs,
infinities and zeros among them: a fused sum with a factor of one is the sum, and one that adds to the zero
of the product's sign is the product. -/
theorem addProduct_agrees (mode : SubnormalMode) (x y z : BinaryFloat fmt) :
    addProduct mode x y one = add mode x y ∧
      addProduct mode (zero (y.sign != z.sign)) y z = mul mode y z :=
  ⟨addProduct_one mode x y, addProduct_zero mode y z⟩

end BinaryFloat

end MachineNumbers
