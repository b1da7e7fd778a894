import Mathlib
import MachineNumbers.BinaryFloat.Checked.Operations
import MachineNumbers.Proofs.Canonical
import MachineNumbers.Proofs.Checked.Kernels
import MachineNumbers.Proofs.Conversion
import MachineNumbers.Proofs.Flushing
import MachineNumbers.Proofs.FixedInt.Residue

/-!
# The operations fit their words

On every encoding of every format, in both modes, each operation of floats takes no step on machine words
that fails, and gives what the same operation of `BinaryFloat` gives (`operations_never_overflow`).
-/

namespace MachineNumbers.Checked

open MachineWord
open BinaryFloat (propagatedNaN?)

variable {fmt : FloatFormat} {mode : SubnormalMode} {x y z : BinaryFloat fmt}

/-! ## Arithmetic -/

/-- What is unpacked can be packed again. -/
theorem repack?_eq (mode : SubnormalMode) (x : BinaryFloat fmt) {target : FloatFormat} :
    roundPack? mode (x.unpack mode) false =
      some (.roundPack mode (x.unpack mode) false : BinaryFloat target) :=
  roundPack?_eq mode ((unpack_within mode x).mono (by decide) (by decide)) (by simp)

/-- A sum of nonzero numbers, of which the wider is a product, can be packed. -/
theorem packedSum?_eq {a b : Unpacked} (ha0 : a.sig ≠ 0) (ha : a.Within 53 (2 ^ 15)) (hb0 : b.sig ≠ 0)
    (hb : b.Within 106 (2 ^ 16)) : (do
      let (sum, sticky) ← sum? a b
      roundPack? mode sum sticky) = some (.roundPack mode (a.add b).1 (a.add b).2 : BinaryFloat fmt) := by
  have ha' : a.Within 125 (2 ^ 17) := ha.mono (by decide) (by decide)
  have hb' : b.Within 125 (2 ^ 17) := hb.mono (by decide) (by decide)
  have hsum := Unpacked.add_sumOf ha0 ha'.sig_lt hb0 hb'.sig_lt
  rw [bind_of_some (sum?_eq ha0 (ha'.mono le_rfl (by decide)) hb0 (hb'.mono le_rfl (by decide)))]
  exact roundPack?_eq mode ((ha'.add ha0 hb0 hb').mono (by decide) (by decide))
    fun h => ((Nat.two_pow_pos 124).trans_le (hsum.le_sig h)).ne'

/-- Special operands need no arithmetic; the others are within the bounds of the sum. -/
theorem add?_eq (mode : SubnormalMode) (x y : BinaryFloat fmt) :
    add? mode x y = some (x.add mode y) := by
  have hx := unpack_within mode x
  have hy := unpack_within mode y
  unfold add? BinaryFloat.add
  cases propagatedNaN? [x, y] with
  | some nan => rfl
  | none =>
    dsimp only
    rw [bind_of_some (unpack?_eq mode x), bind_of_some (unpack?_eq mode y)]
    split_ifs with _ _ _ hx0 _ hy0
    any_goals rfl
    · exact repack?_eq mode y
    · exact repack?_eq mode x
    · exact packedSum?_eq hx0 hx hy0 (hy.mono (by decide) (by decide))

theorem sub?_eq (mode : SubnormalMode) (x y : BinaryFloat fmt) :
    sub? mode x y = some (x.sub mode y) := by
  unfold sub? BinaryFloat.sub
  cases propagatedNaN? [x, y] with
  | some nan => rfl
  | none => exact add?_eq mode x (-y)

theorem mul?_eq (mode : SubnormalMode) (x y : BinaryFloat fmt) :
    mul? mode x y = some (x.mul mode y) := by
  have hx := unpack_within mode x
  have hy := unpack_within mode y
  unfold mul? BinaryFloat.mul
  cases propagatedNaN? [x, y] with
  | some nan => rfl
  | none =>
    dsimp only
    rw [bind_of_some (unpack?_eq mode x), bind_of_some (unpack?_eq mode y),
      bind_of_some (product?_eq hx hy)]
    split_ifs
    any_goals rfl
    exact roundPack?_eq mode ((hx.mul hy).mono (by decide) (by decide)) (by simp)

theorem addProduct?_eq (mode : SubnormalMode) (x y z : BinaryFloat fmt) :
    addProduct? mode x y z = some (x.addProduct mode y z) := by
  have hx := unpack_within mode x
  have hy := unpack_within mode y
  have hz := unpack_within mode z
  unfold addProduct? BinaryFloat.addProduct
  cases propagatedNaN? [x, y, z] with
  | some nan => rfl
  | none =>
    dsimp only
    rw [bind_of_some (unpack?_eq mode x), bind_of_some (unpack?_eq mode y),
      bind_of_some (unpack?_eq mode z), bind_of_some (product?_eq hy hz)]
    split_ifs with _ _ _ _ hzero hx0 hx0
    any_goals rfl
    · exact repack?_eq mode x
    · exact roundPack?_eq mode ((hy.mul hz).mono (by decide) (by decide)) (by simp)
    · have hproduct : ((y.unpack mode).mul (z.unpack mode)).sig ≠ 0 :=
        Nat.mul_ne_zero (fun h => hzero (.inl h)) (fun h => hzero (.inr h))
      exact packedSum?_eq hx0 hx hproduct ((hy.mul hz).mono le_rfl (by decide))

theorem div?_eq (mode : SubnormalMode) (x y : BinaryFloat fmt) :
    div? mode x y = some (x.div mode y) := by
  have hx := unpack_within mode x
  have hy := unpack_within mode y
  unfold div? BinaryFloat.div
  cases propagatedNaN? [x, y] with
  | some nan => rfl
  | none =>
    dsimp only
    rw [bind_of_some (unpack?_eq mode x), bind_of_some (unpack?_eq mode y)]
    split_ifs with _ _ _ hx0 _ hy0
    any_goals rfl
    have hx' : (x.unpack mode).Within 126 (2 ^ 17) := hx.mono (by decide) (by decide)
    have hy' : (y.unpack mode).Within 53 (2 ^ 17) := hy.mono le_rfl (by decide)
    have hbits := (BinaryFloat.div_holds hx0 hy0 hx'.sig_lt hy'.sig_lt).1
    rw [bind_of_some (quotient?_eq hx0 hx' hy0 hy')]
    exact roundPack?_eq mode ((hx'.div hx0 hy').mono (by decide) (by decide))
      fun _ => ((Nat.two_pow_pos 72).trans_le hbits).ne'

theorem sqrt?_eq (mode : SubnormalMode) (x : BinaryFloat fmt) :
    sqrt? mode x = some (x.squareRoot mode) := by
  have hx : (x.unpack mode).Within 126 (2 ^ 17) :=
    (unpack_within mode x).mono (by decide) (by decide)
  unfold sqrt? BinaryFloat.squareRoot
  rw [bind_of_some (unpack?_eq mode x)]
  dsimp only
  split_ifs with _ h0
  any_goals rfl
  have hbits := (Unpacked.standsFor_sqrt h0 hx.sig_lt).2.1
  rw [bind_of_some (squareRoot?_eq h0 hx)]
  exact roundPack?_eq mode ((hx.sqrt h0).mono (by decide) (by decide))
    fun _ => ((Nat.two_pow_pos 62).trans_le hbits).ne'

/-! ## Remainders -/

theorem remainderSpecial?_eq (mode : SubnormalMode) (x y : BinaryFloat fmt) :
    remainderSpecial? mode x y = some (x.remainderSpecial? mode y) := by
  unfold remainderSpecial? BinaryFloat.remainderSpecial?
  cases propagatedNaN? [x, y] with
  | some nan => rfl
  | none =>
    dsimp only
    rw [bind_of_some (unpack?_eq mode x), bind_of_some (repack?_eq mode x)]
    split_ifs <;> rfl

/-- A divisor that is left to the kernels is not read as a zero. -/
theorem unpack_sig_ne_zero_of_remainderSpecial? (h : x.remainderSpecial? mode y = none) :
    (y.unpack mode).sig ≠ 0 := by
  rw [ne_eq, BinaryFloat.unpack_sig_eq_zero_iff_readsAsZero]
  intro hzero
  unfold BinaryFloat.remainderSpecial? at h
  cases hnan : propagatedNaN? [x, y] with
  | some nan => simp [hnan] at h
  | none => simp [hnan, hzero] at h

/-- The gap of exponents decides the rounds, never the size of a word. -/
theorem truncatingRemainder?_eq (mode : SubnormalMode) (x y : BinaryFloat fmt) :
    truncatingRemainder? mode x y = some (x.truncatingRemainder mode y) := by
  have hx := unpack_within mode x
  have hy := unpack_within mode y
  unfold truncatingRemainder? BinaryFloat.truncatingRemainder
  rw [bind_of_some (remainderSpecial?_eq mode x y)]
  cases hspecial : x.remainderSpecial? mode y with
  | some special => rfl
  | none =>
    have hy0 := unpack_sig_ne_zero_of_remainderSpecial? hspecial
    have hx' := hx.mono le_rfl (show 2 ^ 15 ≤ 2 ^ 20 by decide)
    have hy' := hy.mono le_rfl (show 2 ^ 15 ≤ 2 ^ 20 by decide)
    dsimp only
    rw [bind_of_some (unpack?_eq mode x), bind_of_some (unpack?_eq mode y),
      bind_of_some (remainderAt?_eq (Nat.pos_of_ne_zero hy0) (hy.sig_lt.trans (by decide))
        ⟨hx'.neg_le_exp, hx'.exp_le⟩ ⟨hy'.neg_le_exp, hy'.exp_le⟩)]
    exact roundPack?_eq mode ((hx.remainderAt hy0 hy _).mono (by decide) (by decide)) (by simp)

theorem nearest?_eq (mode : SubnormalMode) (x y : BinaryFloat fmt) :
    nearest? mode x y = some (x.remainder mode y) := by
  have hx := unpack_within mode x
  have hy := unpack_within mode y
  unfold nearest? BinaryFloat.remainder
  rw [bind_of_some (remainderSpecial?_eq mode x y)]
  cases hspecial : x.remainderSpecial? mode y with
  | some special => rfl
  | none =>
    have hy0 := unpack_sig_ne_zero_of_remainderSpecial? hspecial
    have hxlow := hx.neg_le_exp
    have hxhigh := hx.exp_le
    have hylow := hy.neg_le_exp
    have hyhigh := hy.exp_le
    dsimp only
    rw [bind_of_some (unpack?_eq mode x), bind_of_some (unpack?_eq mode y),
      bind_of_some (exponent?_of_bounds (by omega) (by omega))]
    split_ifs with hfar
    · exact repack?_eq mode x
    · rw [bind_of_some (nearestRemainder?_eq hx hy0 hy (not_le.1 hfar))]
      exact roundPack?_eq mode ((hx.nearestRemainder hy0 hy).mono (by decide) (by decide)) (by simp)

/-! ## Integral values and parts -/

theorem splitAtPoint?_eq {shift : ℕ} (hshift : 0 < shift) (sig : ℕ) :
    splitAtPoint? sig shift = some (splitAtPoint sig shift) := by
  unfold splitAtPoint? splitAtPoint
  split
  · rfl
  · rw [bind_of_some (cutAt?_of_lt (by omega) sig)]
    dsimp only
    rw [bind_of_some (halfUnit?_of_le hshift (by omega)), Nat.pow_eq, Nat.pow_eq]

theorem rounded?_eq (mode : SubnormalMode) (rule : RoundingRule) (x : BinaryFloat fmt) :
    rounded? mode rule x = some (x.rounded mode rule) := by
  have hsig := (unpack_within mode x).sig_lt
  unfold rounded? BinaryFloat.rounded
  dsimp only
  rw [bind_of_some (unpack?_eq mode x)]
  split_ifs with _ _ _ hexp
  any_goals rfl
  have hshift : 0 < (x.unpack mode).exp.natAbs := by omega
  have hsum : ∀ up : Bool,
      (splitAtPoint (x.unpack mode).sig (x.unpack mode).exp.natAbs).1 + up.toNat < 2 ^ 128 :=
    BinaryFloat.splitAtPoint_add_lt hsig
  rw [bind_of_some (splitAtPoint?_eq hshift _)]
  generalize splitAtPoint (x.unpack mode).sig (x.unpack mode).exp.natAbs = parts at hsum
  obtain ⟨integral, rest, half⟩ := parts
  dsimp only at hsum ⊢
  rw [bind_of_some (sum?_of_lt (hsum _))]
  exact roundPack?_eq mode ⟨hsum _, by norm_num, by norm_num⟩ (by simp)

theorem exp_unpack (mode : SubnormalMode) (x : BinaryFloat fmt) :
    (x.unpack mode).exp = (x.unpack .gradual).exp := by
  unfold BinaryFloat.unpack
  split <;> rfl

/-- A word without the sign bit is an encoding with the sign clear. -/
theorem ofBits_of_lt {word : ℕ} (h : word < fmt.signWeight) :
    (BinaryFloat.ofBits word : BinaryFloat fmt) = .ofWord false word := by
  simpa using @ofBits_or fmt false word h

theorem ulp?_eq (mode : SubnormalMode) (x : BinaryFloat fmt) : ulp? mode x = some (x.ulp mode) := by
  unfold ulp? BinaryFloat.ulp
  dsimp only
  rw [bind_of_some (unpack?_eq mode x)]
  split_ifs with hfinite
  any_goals rfl
  have hlow : fmt.minExp ≤ (x.unpack mode).exp := exp_unpack mode x ▸ BinaryFloat.minExp_le_unpack x
  have hhigh : (x.unpack mode).exp ≤ fmt.maxLead :=
    exp_unpack mode x ▸ BinaryFloat.unpack_exp_le_maxLead (by simpa using hfinite)
  have hlt := (fmt.powerOfTwoWord_lt hlow hhigh).trans fmt.infinityWord_lt_signWeight
  rw [bind_of_some (powerOfTwoWord?_eq hlow hhigh), ofBits_of_lt hlt]
  rfl

theorem significand?_eq (x : BinaryFloat fmt) : significand? x = some x.significand := by
  have hbias := fmt.bias_lt
  have hfrac := fmt.fractionBits_le
  have hwithin := unpack_within .gradual x
  unfold significand? BinaryFloat.significand
  dsimp only
  rw [bind_of_some (unpack?_eq .gradual x)]
  simp only [← BinaryFloat.unpack_sig_eq_zero]
  split_ifs with _ _ h0
  any_goals rfl
  have hlog : (x.unpack .gradual).sig.log2 ≤ fmt.fractionBits :=
    Nat.le_of_lt_succ (BinaryFloat.log2_unpack_sig_lt
      (Bool.eq_false_iff.2 (mt (BinaryFloat.unpack_sig_eq_zero x).2 h0)))
  have hplace : (x.unpack .gradual).leadExp - (x.unpack .gradual).exp =
      ((x.unpack .gradual).sig.log2 : ℤ) := by
    unfold Unpacked.leadExp
    omega
  have hshift : ((fmt.fractionBits : ℤ) - ((x.unpack .gradual).sig.log2 : ℤ)).toNat =
      fmt.fractionBits - (x.unpack .gradual).sig.log2 := by omega
  have hmin : fmt.minExp ≤ 0 := fmt.minExp_nonpos
  have hmax : (0 : ℤ) ≤ fmt.maxLead := Int.natCast_nonneg _
  have hsig : (x.unpack .gradual).sig < 2 ^ 64 := hwithin.sig_lt.trans (by decide)
  have hshifted : (x.unpack .gradual).sig <<< (fmt.fractionBits - (x.unpack .gradual).sig.log2) <
      2 ^ 64 :=
    (shiftLeft_sub_bounds h0 hlog).2.trans_le (Nat.pow_le_pow_right (by decide) (by omega))
  rw [bind_of_some (leadExp?_eq h0 (hwithin.mono (by decide) (by decide))), hplace,
    bind_of_some (exponent?_of_bounds (by omega) (by omega)),
    bind_of_some (amount?_of_bounds (by omega) (by omega)), hshift,
    bind_of_some (unsigned?_of_lt hsig), bind_of_some (shiftLeft?_of_lt (by omega) hshifted),
    bind_of_some (powerOfTwoWord?_eq hmin hmax)]
  generalize (x.unpack .gradual).sig <<< (fmt.fractionBits - (x.unpack .gradual).sig.log2) = shifted
  have hone : fmt.powerOfTwoWord 0 = 2 ^ fmt.fractionBits * fmt.bias := by
    have : fmt.minLead ≤ 0 := by
      have := fmt.one_le_bias
      unfold FloatFormat.minLead
      omega
    unfold FloatFormat.powerOfTwoWord
    rw [if_pos this, Int.zero_add, Int.toNat_natCast, Nat.mul_comm, Nat.pow_eq]
  have hfraction := Nat.mod_lt shifted (Nat.two_pow_pos fmt.fractionBits)
  have hmask : shifted &&& fmt.fractionMask = shifted % 2 ^ fmt.fractionBits := by
    unfold FloatFormat.fractionMask
    rw [Nat.pow_eq, Nat.and_two_pow_sub_one_eq_mod]
  have hlt : fmt.powerOfTwoWord 0 + shifted % 2 ^ fmt.fractionBits < fmt.signWeight := by
    have := fmt.powerOfTwoWord_lt hmin hmax
    have := fmt.signWeight_eq
    rw [← fmt.hiddenBit_eq] at hfraction ⊢
    omega
  rw [hmask, hone, ← Nat.two_pow_add_eq_or_of_lt hfraction, ← hone, ofBits_of_lt hlt, Nat.pow_eq]

/-! ## Conversions -/

/-- Dropped or filled up at its lower end, a fraction has the bits of the other format. -/
theorem convertedPayload?_eq (target : FloatFormat) (x : BinaryFloat fmt) :
    convertedPayload? target x =
      some (x.fractionField * 2 ^ target.fractionBits / 2 ^ fmt.fractionBits) := by
  have hfrac := fmt.fractionBits_le
  have hfrac' := target.fractionBits_le
  have hone := fmt.one_le_fractionBits
  have hfraction : x.fractionField < 2 ^ fmt.fractionBits := Nat.mod_lt _ (Nat.two_pow_pos _)
  rw [mul_two_pow_div_two_pow]
  unfold convertedPayload? alignedFraction
  rw [fractionField_eq]
  split
  · next hle =>
    rw [bind_of_some (difference?_of_le hle), shiftLeft?_of_bits hfraction hone (by omega)]
  · next hlt =>
    rw [bind_of_some (difference?_of_le (by omega)), shiftRight?_of_lt (by omega)]

theorem convert?_eq (target : FloatFormat) (mode : SubnormalMode) (x : BinaryFloat fmt) :
    convert? target mode x = some (x.convert target mode) := by
  unfold convert? BinaryFloat.convert
  rw [bind_of_some (convertedPayload?_eq target x), bind_of_some (unpack?_eq mode x)]
  dsimp only
  split
  · have hpayload := BinaryFloat.scaledFraction_lt_hiddenBit target x
    have hword := target.infinityWord_or hpayload
    have hlt : target.infinityWord + x.fractionField * 2 ^ target.fractionBits / 2 ^ fmt.fractionBits <
        target.signWeight := by
      have := target.signWeight_eq
      omega
    rw [Nat.or_assoc, hword, ofBits_or hlt]
    rfl
  · split
    · rfl
    · exact repack?_eq mode x

/-- An integer of up to 127 bits is a significand at the exponent zero. -/
theorem ofInt?_eq (mode : SubnormalMode) {v : ℤ} (hv : v.natAbs < 2 ^ 127) :
    ofInt? mode v =
      some (.roundPack mode ⟨decide (v < 0), 0, v.natAbs⟩ false : BinaryFloat fmt) := by
  unfold ofInt?
  rw [bind_of_some (signed?_of_bounds (by omega) (by omega))]
  exact roundPack?_eq mode ⟨hv.trans (by decide), by norm_num, by norm_num⟩ (by simp)

/-- Integers of any width that is converted fit the kernel's word. -/
theorem holdsExactly?_eq (fmt : FloatFormat) {v : ℤ} (hv : v.natAbs < 2 ^ 127) :
    holdsExactly? fmt v = some (BinaryFloat.holdsExactly fmt v) := by
  unfold holdsExactly? BinaryFloat.holdsExactly
  dsimp only
  split
  · next h0 => simp [h0]
  · next h0 =>
    have hlog : v.natAbs.log2 < 127 := (Nat.log2_lt h0).2 hv
    have hplace : 127 - (127 - v.natAbs.log2) = v.natAbs.log2 := by omega
    -- no more zeros are counted than there are places
    have htrailing : BinaryFloat.trailingZeroCount v.natAbs (v.natAbs.log2 + 1) ≤ v.natAbs.log2 + 1 :=
      (List.takeWhile_prefix _).length_le.trans_eq List.length_range
    rw [leadingZeros_of_ne h0, bind_of_some (difference?_of_le (by omega)), hplace,
      bind_of_some (exponent?_of_bounds (by omega) (by omega)),
      bind_of_some (exponent?_of_bounds (by omega) (by omega))]
    rw [beq_eq_false_iff_ne.2 h0, Bool.false_or]
    congr 2
    rw [decide_eq_decide]
    omega

theorem ofIntExactly?_eq {v : ℤ} (hv : v.natAbs < 2 ^ 127) :
    ofIntExactly? v = some (BinaryFloat.ofIntExactly? v : Option (BinaryFloat fmt)) := by
  unfold ofIntExactly? BinaryFloat.ofIntExactly?
  rw [bind_of_some (holdsExactly?_eq fmt hv)]
  split
  · rw [bind_of_some (ofInt?_eq .gradual hv)]
    rfl
  · rfl

/-- The magnitude is the one that `BinaryFloat.truncated?` takes, and at most `2^64`. -/
theorem magnitude?_eq {a : Unpacked} (ha : a.Within 53 (2 ^ 15)) :
    ∃ magnitude exact, magnitude? a = some (magnitude, exact) ∧
      (if a.sig = 0 then (0, true)
        else if 0 ≤ a.exp then
          if 64 ≤ a.leadExp then (Nat.pow 2 64, true) else (a.sig <<< a.exp.toNat, true)
        else if 128 ≤ a.exp.natAbs then (0, false)
        else (a.sig >>> a.exp.natAbs, a.sig % Nat.pow 2 a.exp.natAbs == 0)) = (magnitude, exact) ∧
      magnitude ≤ 2 ^ 64 := by
  unfold magnitude?
  split_ifs with h0 hexp hlead hfar
  · exact ⟨0, true, rfl, rfl, Nat.zero_le _⟩
  · rw [bind_of_some (leadExp?_eq h0 (ha.mono (by decide) (by decide))), if_pos hlead,
      bind_of_some (shiftLeft?_one (by decide))]
    exact ⟨2 ^ 64, true, rfl, rfl, le_rfl⟩
  · have hsum : a.leadExp = a.exp + a.sig.log2 := rfl
    have hlt := (shiftLeft_bounds h0 a.exp.toNat).2
    rw [bind_of_some (leadExp?_eq h0 (ha.mono (by decide) (by decide))), if_neg hlead,
      bind_of_some (shiftLeft?_of_lt (by omega) (shiftLeft_lt h0 (by omega)))]
    exact ⟨_, true, rfl, rfl, hlt.le.trans (Nat.pow_le_pow_right (by decide) (by omega))⟩
  · exact ⟨0, false, rfl, rfl, Nat.zero_le _⟩
  · rw [bind_of_some (cutAt?_of_lt (by omega) _)]
    exact ⟨_, _, rfl, rfl, (Nat.shiftRight_le _ _).trans (ha.sig_lt.le.trans (by decide))⟩

theorem truncated?_eq (x : BinaryFloat fmt) : truncated? x = some x.truncated? := by
  obtain ⟨magnitude, exact, hmagnitude, htruncated, hle⟩ := magnitude?_eq (unpack_within .gradual x)
  unfold truncated? BinaryFloat.truncated?
  split
  · rfl
  · dsimp only
    rw [bind_of_some (unpack?_eq .gradual x), bind_of_some hmagnitude, htruncated]
    dsimp only
    rw [bind_of_some (signed?_of_bounds (by omega) (by omega))]
    split
    · rw [bind_of_some (signed?_of_bounds (by omega) (by omega))]
    · rfl

/-! ## All operations -/

/-- In every format and both modes, on all encodings and for integers of every type, no sum, product,
difference or left shift of the kernels and of rounding outgrows its word, no amount reaches the width that
is shifted, no divisor is zero and every exponent fits 32 bits; the results are those of `BinaryFloat`. -/
theorem operations_never_overflow (mode : SubnormalMode) (rule : RoundingRule) (target : FloatFormat)
    {ty : IntType} (x y z : BinaryFloat fmt) (a : FixedInt ty) :
    add? mode x y = some (x.add mode y) ∧
    sub? mode x y = some (x.sub mode y) ∧
    mul? mode x y = some (x.mul mode y) ∧
    div? mode x y = some (x.div mode y) ∧
    addProduct? mode x y z = some (x.addProduct mode y z) ∧
    sqrt? mode x = some (x.squareRoot mode) ∧
    truncatingRemainder? mode x y = some (x.truncatingRemainder mode y) ∧
    nearest? mode x y = some (x.remainder mode y) ∧
    rounded? mode rule x = some (x.rounded mode rule) ∧
    ulp? mode x = some (x.ulp mode) ∧
    significand? x = some x.significand ∧
    convert? target mode x = some (x.convert target mode) ∧
    ofInt? mode a.value = some
      (.roundPack mode ⟨decide (a.value < 0), 0, a.value.natAbs⟩ false : BinaryFloat fmt) ∧
    ofIntExactly? a.value = some (BinaryFloat.ofIntExactly? a.value : Option (BinaryFloat fmt)) ∧
    truncated? x = some x.truncated? := by
  have hvalue : a.value.natAbs < 2 ^ 127 := by
    have := a.fits_value.bounds
    omega
  exact ⟨add?_eq mode x y, sub?_eq mode x y, mul?_eq mode x y, div?_eq mode x y,
    addProduct?_eq mode x y z, sqrt?_eq mode x, truncatingRemainder?_eq mode x y, nearest?_eq mode x y,
    rounded?_eq mode rule x, ulp?_eq mode x, significand?_eq x, convert?_eq target mode x,
    ofInt?_eq mode hvalue, ofIntExactly?_eq hvalue, truncated?_eq x⟩

end MachineNumbers.Checked
