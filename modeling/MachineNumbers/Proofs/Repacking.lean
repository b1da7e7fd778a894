import Mathlib
import MachineNumbers.Proofs.Checked.Operations

/-!
# Packing undoes unpacking

An unpacked float has the magnitude of its word, also where the word is infinity's or a NaN's.  So gradual
packing gives the word back, cut at infinity (`word_roundPack_unpack`): every number and both infinities are
what they were, and NaNs, whose magnitudes lie beyond, become infinities.  The mode that flushes does the
same with the flushed float (`roundPack_unpack_flushToZero`).
-/

namespace MachineNumbers.BinaryFloat

open MachineWord (bind_of_some)

variable {fmt : FloatFormat} {x : BinaryFloat fmt}

/-- The words before infinity come back, and the others end there. -/
theorem word_roundPack_unpack (x : BinaryFloat fmt) :
    (roundPack .gradual (x.unpack .gradual) false : BinaryFloat fmt).word =
      min x.word fmt.infinityWord := by
  by_cases hsig : (x.unpack .gradual).sig = 0
  · rw [roundPack_of_sig_eq_zero _ hsig, (unpack_sig_eq_zero_iff x).1 hsig, Nat.zero_min]
    rfl
  · exact roundPack_exact hsig (unpack_sig_lt_two_pow_128 x) (magnitude_unpack x)

theorem sign_roundPack_unpack (x : BinaryFloat fmt) :
    (roundPack .gradual (x.unpack .gradual) false : BinaryFloat fmt).sign = x.sign :=
  (roundPack_sign _ _).trans (unpack_sign x)

theorem roundPack_unpack_of_not_isNaN (h : x.isNaN = false) :
    roundPack .gradual (x.unpack .gradual) false = x := by
  refine ext_word (sign_roundPack_unpack x) ?_
  rw [word_roundPack_unpack, Nat.min_eq_left ((isNaN_eq_false_iff x).1 h)]

theorem roundPack_unpack_of_isNaN (h : x.isNaN = true) :
    (roundPack .gradual (x.unpack .gradual) false : BinaryFloat fmt) = infinity x.sign := by
  refine ext_word (sign_roundPack_unpack x) ?_
  rw [word_roundPack_unpack, Nat.min_eq_right ((isNaN_iff_word x).1 h).le]
  exact (word_ofWord le_rfl).symm

/-- What flushing reads is a zero or not below the least normal number, so packing does not flush it. -/
theorem roundPack_unpack_flushToZero (x : BinaryFloat fmt) :
    (roundPack .flushToZero (x.unpack .flushToZero) false : BinaryFloat fmt) =
      roundPack .gradual (x.flushed.unpack .gradual) false := by
  have hnormal : ¬((x.flushed.value : ℝ) ≠ 0 ∧ |(x.flushed.value : ℝ)| < 2 ^ fmt.minLead) := by
    rcases value_of_not_subnormal (isSubnormal_flushed x) with h0 | hle
    · exact fun h => h.1 h0
    · exact fun h => not_le.2 h.2 hle
  rw [unpack_flushToZero, (standsFor_unpack x.flushed).roundPack_flushToZero, flushUnderflow,
    if_neg hnormal]

/-- Packing undoes unpacking.  In the gradual mode every float that is not a NaN comes back, infinities
included; in the mode that flushes it does unless it is subnormal, which makes it the zero of its sign; and
in both modes a NaN becomes the infinity of its sign.  No step of a machine fails on the way. -/
theorem roundPack_unpack (x : BinaryFloat fmt) :
    (x.isNaN = false → roundPack .gradual (x.unpack .gradual) false = x) ∧
    (x.isNaN = false → roundPack .flushToZero (x.unpack .flushToZero) false =
      if x.isSubnormal then zero x.sign else x) ∧
    (x.isNaN = true → ∀ mode : SubnormalMode,
      (roundPack mode (x.unpack mode) false : BinaryFloat fmt) = infinity x.sign) ∧
    ∀ mode : SubnormalMode, (do Checked.roundPack? mode (← Checked.unpack? mode x) false) =
      some (roundPack mode (x.unpack mode) false : BinaryFloat fmt) := by
  refine ⟨roundPack_unpack_of_not_isNaN, fun h => ?_, fun h mode => ?_, fun mode => ?_⟩
  · rw [roundPack_unpack_flushToZero]
    exact roundPack_unpack_of_not_isNaN ((isNaN_flushed x).trans h)
  · cases mode with
    | gradual => exact roundPack_unpack_of_isNaN h
    | flushToZero =>
      rw [roundPack_unpack_flushToZero, flushed_of_not_finite (isFinite_of_isNaN h)]
      exact roundPack_unpack_of_isNaN h
  · rw [bind_of_some (Checked.unpack?_eq mode x)]
    exact Checked.repack?_eq mode x

/-- Negative infinity comes back, the least negative number is flushed to negative zero, and a signaling NaN
with a payload becomes an infinity. -/
theorem roundPack_unpack_ends :
    (roundPack .gradual ((infinity true : BinaryFloat .binary16).unpack .gradual) false =
      (infinity true : BinaryFloat .binary16)) ∧
    roundPack .flushToZero ((-leastNonzero : BinaryFloat .binary16).unpack .flushToZero) false =
      (zero true : BinaryFloat .binary16) ∧
    roundPack .native ((ofBits 0xfd01 : BinaryFloat .binary16).unpack .native) false =
      (infinity true : BinaryFloat .binary16) := by
  obtain ⟨hinfinity, -, -, -⟩ := roundPack_unpack (infinity true : BinaryFloat .binary16)
  obtain ⟨-, hflush, -, -⟩ := roundPack_unpack (-leastNonzero : BinaryFloat .binary16)
  obtain ⟨-, -, hnan, -⟩ := roundPack_unpack (ofBits 0xfd01 : BinaryFloat .binary16)
  have hsubnormal : (-leastNonzero : BinaryFloat .binary16).isSubnormal = true := by decide +kernel
  refine ⟨hinfinity (by decide +kernel), ?_, hnan (by decide +kernel) .native⟩
  have hzero := hflush (by decide +kernel)
  rwa [hsubnormal, if_pos rfl] at hzero

end MachineNumbers.BinaryFloat
