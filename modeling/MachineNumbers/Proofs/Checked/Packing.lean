import Mathlib
import MachineNumbers.BinaryFloat.Checked.Packing
import MachineNumbers.Proofs.Arithmetic.Fused
import MachineNumbers.Proofs.MachineWord
import MachineNumbers.Proofs.Order

/-!
# Unpacking and rounding fit their words

`Unpacked.Within` bounds the significand of an unpacked number by its bits and the exponent by a range.
Every encoding unpacks within 53 bits and exponents up to `2^15` (`unpack_within`), and every number within
128 bits and exponents up to a little over `2^30` is rounded without a step that fails (`roundPack?_eq`), to
the float that `BinaryFloat.roundPack` gives.
-/

namespace MachineNumbers

/-- Beside the sign, both fields fit a word of 64 bits. -/
theorem FloatFormat.fields_le (fmt : FloatFormat) : fmt.exponentBits + fmt.fractionBits ≤ 63 := by
  have := fmt.isWordWidth
  unfold IsWordWidth at this
  omega

/-- A significand of at most so many bits, and an exponent of at most this magnitude. -/
structure Unpacked.Within (x : Unpacked) (bits : ℕ) (range : ℤ) : Prop where
  sig_lt : x.sig < 2 ^ bits
  neg_le_exp : -range ≤ x.exp
  exp_le : x.exp ≤ range

namespace Unpacked.Within

variable {x : Unpacked} {bits bits' : ℕ} {range range' : ℤ}

theorem mono (h : x.Within bits range) (hbits : bits ≤ bits') (hrange : range ≤ range') :
    x.Within bits' range' :=
  ⟨h.sig_lt.trans_le (Nat.pow_le_pow_right (by decide) hbits),
    (neg_le_neg hrange).trans h.neg_le_exp, h.exp_le.trans hrange⟩

theorem log2_lt (h : x.Within bits range) (h0 : x.sig ≠ 0) : x.sig.log2 < bits :=
  (Nat.log2_lt h0).2 h.sig_lt

end Unpacked.Within

namespace Checked

open MachineWord

variable {fmt : FloatFormat} {x : Unpacked} {sticky : Bool}

/-! ## Unpacked numbers -/

theorem normalised?_eq (h0 : x.sig ≠ 0) (hx : x.Within 126 (2 ^ 20)) :
    normalised? x = some x.normalised := by
  have hlog := hx.log2_lt h0
  obtain ⟨-, hlow, hhigh⟩ := hx
  have hplace : 127 - x.sig.log2 - (127 - Unpacked.leadPlace) = Unpacked.leadPlace - x.sig.log2 := by
    unfold Unpacked.leadPlace
    omega
  unfold normalised?
  rw [if_neg h0, leadingZeros_of_ne h0,
    bind_of_some (difference?_of_le (by unfold Unpacked.leadPlace; omega)), hplace,
    bind_of_some (exponent?_of_bounds (by unfold Unpacked.leadPlace; omega) (by omega)),
    bind_of_some (shiftLeft?_of_lt (by unfold Unpacked.leadPlace; omega)
      (shiftLeft_lt h0 (by unfold Unpacked.leadPlace; omega)))]
  rfl

theorem leadExp?_eq (h0 : x.sig ≠ 0) (hx : x.Within 128 (2 ^ 30 + 2 ^ 20)) :
    leadExp? x = some x.leadExp := by
  have hlog := hx.log2_lt h0
  obtain ⟨-, hlow, hhigh⟩ := hx
  have hplace : 127 - (127 - x.sig.log2) = x.sig.log2 := by omega
  unfold leadExp?
  rw [if_neg h0, leadingZeros_of_ne h0, bind_of_some (difference?_of_le (by omega)), hplace,
    exponent?_of_bounds (by omega) (by omega)]
  rfl

/-! ## Unpacking -/

section

variable (mode : SubnormalMode) (x : BinaryFloat fmt)

theorem toBits_eq : x.toBits = x.sign.toNat * fmt.signWeight + x.word := by
  unfold BinaryFloat.toBits
  cases x.sign <;> simp

theorem fractionField_eq : fractionField x = x.fractionField := by
  have hsplit : fmt.signWeight = 2 ^ fmt.exponentBits * 2 ^ fmt.fractionBits := pow_add ..
  unfold fractionField FloatFormat.fractionMask BinaryFloat.fractionField
  rw [Nat.pow_eq, Nat.and_two_pow_sub_one_eq_mod, toBits_eq, hsplit, ← Nat.mul_assoc,
    Nat.mul_add_mod_self_right]

theorem exponentField?_eq : exponentField? x = some x.exponentField := by
  have hfrac := fmt.fractionBits_le
  have hpow := Nat.two_pow_pos fmt.fractionBits
  have hsplit : fmt.signWeight = 2 ^ fmt.exponentBits * 2 ^ fmt.fractionBits := pow_add ..
  have hlt : x.word / 2 ^ fmt.fractionBits < 2 ^ fmt.exponentBits := by
    rw [Nat.div_lt_iff_lt_mul hpow, ← hsplit]
    exact x.word_lt
  unfold exponentField? FloatFormat.exponentMask BinaryFloat.exponentField
  rw [bind_of_some (shiftRight?_of_lt (by omega) _), Nat.pow_eq, Nat.pow_eq,
    Nat.and_two_pow_sub_one_eq_mod, Nat.shiftRight_eq_div_pow, toBits_eq, hsplit, ← Nat.mul_assoc,
    Nat.add_comm, Nat.add_mul_div_right _ _ hpow, Nat.add_mul_mod_self_right, Nat.mod_eq_of_lt hlt]

theorem signBit_ne_zero : (x.toBits &&& fmt.signWeight != 0) = x.sign := by
  rw [BinaryFloat.signWeight_and]
  cases x.sign
  · rfl
  · simpa using fmt.signWeight_pos.ne'

theorem exponentField_lt : x.exponentField < 2 ^ 15 := by
  have hexp := fmt.exponentBits_le
  refine lt_of_lt_of_le ?_ (Nat.pow_le_pow_right (by decide) hexp)
  unfold BinaryFloat.exponentField
  rw [Nat.pow_eq, Nat.div_lt_iff_lt_mul (Nat.two_pow_pos _), ← pow_add]
  exact x.word_lt

theorem unpack?_eq : unpack? mode x = some (x.unpack mode) := by
  have hbias := fmt.bias_lt
  have hfrac := fmt.fractionBits_le
  have hmin := fmt.minExp_eq
  have hfield := exponentField_lt x
  have hfraction : x.fractionField < 2 ^ fmt.fractionBits := Nat.mod_lt _ (Nat.two_pow_pos _)
  have hidden : x.fractionField ||| fmt.hiddenBit = x.fractionField + fmt.hiddenBit := by
    have := Nat.two_pow_add_eq_or_of_lt hfraction 1
    rwa [Nat.mul_one, Nat.add_comm, Nat.or_comm, eq_comm] at this
  unfold unpack? BinaryFloat.unpack
  rw [bind_of_some (exponentField?_eq x), signBit_ne_zero, fractionField_eq]
  split
  · rfl
  · rw [bind_of_some (exponent?_of_bounds (by omega) (by omega)),
      bind_of_some (exponent?_of_bounds (by omega) (by omega)), hidden]

/-- Of infinities and NaNs too. -/
theorem unpack_within : (x.unpack mode).Within 53 (2 ^ 15) := by
  have hbias := fmt.bias_lt
  have hfrac := fmt.fractionBits_le
  have hmin := fmt.minExp_eq
  have hone := fmt.one_le_bias
  have hfield := exponentField_lt x
  refine ⟨BinaryFloat.unpack_sig_lt_two_pow_of_mode mode x, ?_, ?_⟩
  all_goals
    unfold BinaryFloat.unpack
    split <;> dsimp only <;> omega

end

/-! ## Rounding -/

theorem shiftRightNearest?_eq {sig shift : ℕ} (hsig : sig < 2 ^ 128) (hshift : 0 < shift) :
    shiftRightNearest? sig shift sticky = some (shiftRightNearest sig shift sticky) := by
  unfold shiftRightNearest? shiftRightNearest
  split
  · rfl
  split
  · rw [bind_of_some (shiftLeft?_one (by omega)), sum?_of_lt, Nat.zero_add, Nat.pow_eq]
    exact (Nat.zero_add _).trans_lt ((Bool.toNat_le _).trans_lt (by decide))
  · have hkept : sig >>> shift < 2 ^ 127 := by
      rw [Nat.shiftRight_eq_div_pow, Nat.div_lt_iff_lt_mul (Nat.two_pow_pos _), ← pow_add]
      exact hsig.trans_le (Nat.pow_le_pow_right (by decide) (by omega))
    rw [bind_of_some (cutAt?_of_lt (by omega) sig)]
    dsimp only
    rw [bind_of_some (halfUnit?_of_le hshift (by omega)), sum?_of_lt]
    · rfl
    · have := Bool.toNat_le
        (roundsUp (sig >>> shift) (sig % 2 ^ shift) (2 ^ (shift - 1)) sticky)
      omega

theorem significandAt?_eq (h0 : x.sig ≠ 0) (hx : x.Within 128 (2 ^ 30 + 2 ^ 20)) :
    significandAt? x (fmt.lastExp x.leadExp) sticky =
      some (x.significandAt (fmt.lastExp x.leadExp) sticky) := by
  have hbias := fmt.bias_lt
  have hfrac := fmt.fractionBits_le
  have hmin := fmt.minExp_eq
  have hlog := hx.log2_lt h0
  obtain ⟨hsig, hlow, hhigh⟩ := hx
  have hlast : fmt.lastExp x.leadExp = max (x.exp + x.sig.log2 - fmt.fractionBits) fmt.minExp := rfl
  generalize fmt.lastExp x.leadExp = q at hlast
  unfold significandAt? Unpacked.significandAt
  rw [bind_of_some (exponent?_of_bounds (by omega) (by omega))]
  by_cases hle : q ≤ x.exp
  · have hneg : -(q - x.exp) = x.exp - q := neg_sub _ _
    rw [if_pos hle, if_pos (by omega), bind_of_some (amount?_of_bounds (by omega) (by omega)),
      shiftLeft?_of_lt (by omega) (shiftLeft_lt h0 (by omega)), hneg]
  · rw [if_neg hle, if_neg (by omega), shiftRightNearest?_eq hsig (by omega)]

/-- What rounding keeps fills a binade, or is less at the last exponent of all, or has been carried to the
next one. -/
theorem significandAt_bounds (h0 : x.sig ≠ 0) (hsig : x.sig < 2 ^ 128) {e : ℕ}
    (he : fmt.lastExp x.leadExp = fmt.minExp + e) :
    (e = 0 ∨ fmt.hiddenBit ≤ x.significandAt (fmt.lastExp x.leadExp) sticky) ∧
      x.significandAt (fmt.lastExp x.leadExp) sticky ≤ 2 * fmt.hiddenBit := by
  unfold Unpacked.significandAt
  split
  · next hle =>
    obtain ⟨shift, hshift⟩ := Int.eq_ofNat_of_zero_le (Int.sub_nonneg.2 hle)
    rw [hshift, Int.toNat_natCast]
    have hbounds := fmt.shifted_bounds h0 e shift he (by omega)
    exact ⟨hbounds.1, hbounds.2.le⟩
  · next hgt =>
    obtain ⟨shift, hshift⟩ :=
      Int.eq_ofNat_of_zero_le (show 0 ≤ fmt.lastExp x.leadExp - x.exp by omega)
    rw [hshift, Int.toNat_natCast, shiftRightNearest_eq hsig]
    have hbounds := fmt.kept_bounds h0 e shift he (by omega)
    have hup := Bool.toNat_le
      (roundsUp (x.sig / 2 ^ shift) (x.sig % 2 ^ shift) (2 ^ (shift - 1)) sticky)
    omega

theorem ofBits_or {sign : Bool} {word : ℕ} (h : word < fmt.signWeight) :
    (BinaryFloat.ofBits ((if sign then fmt.signWeight else 0) ||| word) : BinaryFloat fmt) =
      .ofWord sign word := by
  have hword : (BinaryFloat.ofWord sign word : BinaryFloat fmt) = ⟨sign, word, h⟩ := by
    unfold BinaryFloat.ofWord
    simp only [Nat.mod_eq_of_lt h]
  rw [hword, ← BinaryFloat.ofBits_toBits (⟨sign, word, h⟩ : BinaryFloat fmt)]
  unfold BinaryFloat.toBits
  cases sign
  · simp
  · simp [fmt.signWeight_add_eq_or h]

/-- The exponent field counts the hidden bit, so that the word is that of the binade and the significand. -/
theorem encoded?_eq {sign : Bool} {kept e : ℕ} (hlow : e = 0 ∨ fmt.hiddenBit ≤ kept)
    (hhigh : kept < 2 * fmt.hiddenBit) (he : (e : ℤ) ≤ 2 ^ 30 + 2 ^ 21) :
    encoded? sign kept (fmt.minExp + e) =
      some (.ofWord sign (min (e * fmt.hiddenBit + kept) fmt.infinityWord) : BinaryFloat fmt) := by
  have hbias := fmt.bias_lt
  have hinf := fmt.infinityWord_eq
  have hweight := fmt.signWeight_eq
  have hpos := fmt.hiddenBit_pos
  have hone := fmt.one_le_bias
  have hhidden : fmt.hiddenBit ≤ 2 ^ 52 := BinaryFloat.hiddenBit_le fmt
  have hword : kept < 2 ^ 64 := by omega
  have hsum : fmt.minExp + e - fmt.minExp = (e : ℤ) := by omega
  have hinfLe : fmt.hiddenBit ≤ fmt.infinityWord := by
    rw [hinf]
    exact Nat.le_mul_of_pos_left _ (by omega)
  unfold encoded?
  rw [bind_of_some (unsigned?_of_lt hword)]
  dsimp only
  split
  · next hsmall =>
    have he0 : e = 0 := hlow.resolve_right (by omega)
    rw [he0, Nat.zero_mul, Nat.zero_add, min_eq_left (by omega), ofBits_or (by omega)]
  · next hnormal =>
    rw [bind_of_some (exponent?_of_bounds (by omega) (by omega)), hsum,
      bind_of_some (amount?_of_bounds (by omega) (by omega)),
      show ((e : ℤ) + 1).toNat = e + 1 by omega]
    -- without the hidden bit, the significand is its fraction
    obtain ⟨fraction, rfl⟩ := Nat.exists_eq_add_of_le (Nat.le_of_not_lt hnormal)
    have hfraction : fraction < 2 ^ fmt.fractionBits := by
      rw [← fmt.hiddenBit_eq]
      omega
    have hwordEq : e * fmt.hiddenBit + (fmt.hiddenBit + fraction) =
        (e + 1) * fmt.hiddenBit + fraction := by ring
    rw [hwordEq, fmt.exponentMask_eq]
    split
    · next hover =>
      have hle : fmt.infinityWord ≤ (e + 1) * fmt.hiddenBit + fraction := by
        rw [hinf]
        exact (Nat.mul_le_mul_right _ hover).trans (Nat.le_add_right _ _)
      rw [min_eq_right hle, ofBits_or fmt.infinityWord_lt_signWeight]
    · next hfits =>
      have hlt : (e + 1) * fmt.hiddenBit + fraction < fmt.infinityWord := by
        have := Nat.mul_le_mul_right fmt.hiddenBit (show e + 1 + 1 ≤ 2 * fmt.bias + 1 by omega)
        rw [Nat.succ_mul] at this
        rw [hinf]
        omega
      have hmask : (fmt.hiddenBit + fraction) &&& fmt.fractionMask = fraction := by
        unfold FloatFormat.fractionMask
        rw [Nat.pow_eq, Nat.and_two_pow_sub_one_eq_mod, fmt.hiddenBit_eq, Nat.add_mod_left,
          Nat.mod_eq_of_lt hfraction]
      have hor : (e + 1) <<< fmt.fractionBits ||| fraction = (e + 1) * fmt.hiddenBit + fraction := by
        rw [Nat.shiftLeft_eq, Nat.mul_comm, ← Nat.two_pow_add_eq_or_of_lt hfraction, Nat.mul_comm,
          fmt.hiddenBit_eq]
      have hfield : e + 1 < 2 ^ fmt.exponentBits := by
        have := fmt.exponentMask_eq
        unfold FloatFormat.exponentMask at this
        rw [Nat.pow_eq] at this
        omega
      have hwidth := fmt.fields_le
      have htwo := fmt.two_le_exponentBits
      rw [bind_of_some (shiftLeft?_of_bits hfield (by omega) (by omega)), hmask, Nat.or_assoc, hor,
        min_eq_left hlt.le, ofBits_or (by omega)]

/-- A carry goes into the exponent and leaves the word as it is. -/
theorem carried?_eq {kept e : ℕ} (hlow : e = 0 ∨ fmt.hiddenBit ≤ kept)
    (hhigh : kept ≤ 2 * fmt.hiddenBit) (he : (e : ℤ) < 2 ^ 30 + 2 ^ 21) :
    ∃ kept' e', carried? fmt kept (fmt.minExp + e) = some (kept', fmt.minExp + (e' : ℕ)) ∧
      (e' = 0 ∨ fmt.hiddenBit ≤ kept') ∧ kept' < 2 * fmt.hiddenBit ∧ (e' : ℤ) ≤ 2 ^ 30 + 2 ^ 21 ∧
      e' * fmt.hiddenBit + kept' = e * fmt.hiddenBit + kept := by
  have hbias := fmt.bias_lt
  have hfrac := fmt.fractionBits_le
  have hmin := fmt.minExp_eq
  have hpos := fmt.hiddenBit_pos
  have hlimit : 2 ^ (fmt.fractionBits + 1) = 2 * fmt.hiddenBit := pow_succ' ..
  unfold carried?
  rw [bind_of_some (shiftLeft?_one (by omega)), hlimit]
  split
  · next hcarry =>
    have hhalf : kept >>> 1 = fmt.hiddenBit := by
      rw [hcarry, Nat.shiftRight_one]
      omega
    have hq : fmt.minExp + e + 1 = fmt.minExp + ((e + 1 : ℕ) : ℤ) := by
      push_cast
      ring
    rw [bind_of_some (shiftRight?_of_lt (by omega) _),
      bind_of_some (exponent?_of_bounds (by omega) (by omega)), hhalf, hq]
    exact ⟨fmt.hiddenBit, e + 1, rfl, .inr le_rfl, by omega, by omega, by rw [hcarry]; ring⟩
  · exact ⟨kept, e, rfl, hlow, by omega, by omega, rfl⟩

/-- Rounding takes no step that fails, whatever the mode. -/
theorem roundPack?_eq (mode : SubnormalMode) (hx : x.Within 128 (2 ^ 30 + 2 ^ 20))
    (hsticky : sticky = true → x.sig ≠ 0) :
    roundPack? mode x sticky = some (.roundPack mode x sticky : BinaryFloat fmt) := by
  unfold roundPack? BinaryFloat.roundPack
  by_cases h0 : x.sig = 0
  · rw [if_pos h0, if_pos h0, if_neg fun hs => hsticky hs h0]
  rw [if_neg h0, if_neg h0, bind_of_some (leadExp?_eq h0 hx)]
  split
  · rfl
  have hbias := fmt.bias_lt
  have hfrac := fmt.fractionBits_le
  have hmin := fmt.minExp_eq
  have hlog := hx.log2_lt h0
  have hlow := hx.neg_le_exp
  have hhigh := hx.exp_le
  have hlead : x.leadExp = x.exp + x.sig.log2 := rfl
  have hlast : max (x.leadExp - fmt.fractionBits) fmt.minExp = fmt.lastExp x.leadExp := rfl
  obtain ⟨e, he⟩ := Int.eq_ofNat_of_zero_le (Int.sub_nonneg.2 (fmt.minExp_le_lastExp x.leadExp))
  have hq : fmt.lastExp x.leadExp = fmt.minExp + e := by omega
  obtain ⟨hfill, hcap⟩ := @significandAt_bounds fmt x sticky h0 hx.sig_lt e hq
  obtain ⟨kept, e', hcarried, hlow', hhigh', he', hword⟩ :=
    carried?_eq hfill hcap (by omega)
  rw [bind_of_some (exponent?_of_bounds (by omega) (by omega)), hlast,
    bind_of_some (significandAt?_eq h0 hx), hq, bind_of_some (hq ▸ hcarried)]
  dsimp only
  rw [encoded?_eq hlow' hhigh' he', hword, ← hq, he, Int.toNat_natCast]
  rfl

/-- The encoding of a power of two in the range of the format. -/
theorem powerOfTwoWord?_eq {e : ℤ} (hlow : fmt.minExp ≤ e) (hhigh : e ≤ fmt.maxLead) :
    powerOfTwoWord? fmt e = some (fmt.powerOfTwoWord e) := by
  have hbias := fmt.bias_lt
  have hone := fmt.one_le_bias
  have hfrac := fmt.fractionBits_le
  have hmin := fmt.minExp_eq
  have hlead : fmt.minLead = 1 - fmt.bias := rfl
  have hmax : fmt.maxLead = fmt.bias := rfl
  have hmask := fmt.exponentMask_eq
  unfold FloatFormat.exponentMask at hmask
  rw [Nat.pow_eq] at hmask
  unfold powerOfTwoWord? FloatFormat.powerOfTwoWord
  split
  · have hwidth := fmt.fields_le
    have htwo := fmt.two_le_exponentBits
    have hfield : (e + fmt.bias).toNat < 2 ^ fmt.exponentBits := by omega
    rw [bind_of_some (amount?_of_bounds (by omega) (by omega)),
      shiftLeft?_of_bits hfield (by omega) (by omega), Nat.shiftLeft_eq, Nat.pow_eq]
  · rw [bind_of_some (amount?_of_bounds (by omega) (by omega)), shiftLeft?_one (by omega), Nat.pow_eq]

end Checked

end MachineNumbers
