import Mathlib
import MachineNumbers.Decimal.Digits.Shortest
import MachineNumbers.Proofs.Decimal.Digits.Exact
import MachineNumbers.Proofs.Decimal.Digits.Fast
import MachineNumbers.Proofs.Nearest

/-!
# Shortest digits of floats

Both ways to the digits of a float give its shortest decimal, which is one only, so they agree
(`exactDigits_eq_of_fastDigits`).  It rounds to the float, its first and last digits are not zero, and no
decimal of fewer digits rounds to the float, at any exponent (`shortest_digits_spec`).
-/

namespace MachineNumbers

namespace DigitString

variable {s : DigitString} {t : DigitTarget}

theorem IsShortestOf.last (h : s.IsShortestOf t) : ∃ ds d, s.digits = ds ++ [d] ∧ d ≠ 0 := by
  obtain ⟨x, xs, hx, -⟩ := h.normal.head
  have hne : s.digits ≠ [] := by simp [hx]
  refine ⟨s.digits.dropLast, s.digits.getLast hne, (List.dropLast_append_getLast hne).symm, ?_⟩
  intro hzero
  have hmantissa := h.shortest.mod_ten_ne_zero
  rw [mantissa, ← List.dropLast_append_getLast hne, hzero, Positional.ofDigits_append_singleton]
    at hmantissa
  exact hmantissa (by rw [Nat.add_zero, Nat.mul_mod_left])

theorem stripTrailing_cons {d : ℕ} (hd : d ≠ 0) (ds : List ℕ) :
    stripTrailing (d :: ds) = d :: ds := by
  rw [stripTrailing.eq_def]
  split
  · next heq => exact absurd (List.cons.inj heq).1 hd
  · rfl

theorem IsShortestOf.normalised (h : s.IsShortestOf t) : s.normalised = s := by
  obtain ⟨ds, d, hds, hd⟩ := h.last
  rw [DigitString.normalised, hds, List.reverse_append, List.reverse_singleton,
    List.singleton_append, stripTrailing_cons hd]
  cases s
  simp_all

end DigitString

namespace DigitTarget

variable {fmt : FloatFormat} {x : BinaryFloat fmt}

theorem shortest_isShortestOf {t : DigitTarget} (h0 : 0 < t.sig) (hlt : t.sig < 2 ^ 61) :
    t.shortest.IsShortestOf t := by
  unfold shortest
  cases hfast : t.fastDigits? with
  | none =>
    have h := exactDigits_isShortestOf h0 hlt
    rw [Option.getD_none, h.normalised]
    exact h
  | some s =>
    have h := fastDigits?_isShortestOf h0 hlt hfast
    rw [Option.getD_some, h.normalised]
    exact h

theorem sig_ofFloat_lt (x : BinaryFloat fmt) : (ofFloat x).sig < 2 ^ 61 := by
  have h1 := BinaryFloat.unpack_sig_lt x
  have h2 := BinaryFloat.hiddenBit_le fmt
  show (x.unpack .gradual).sig < 2 ^ 61
  omega

/-- The digits of a float that is not zero. -/
theorem shortest_ofFloat {x : BinaryFloat fmt} (h0 : x.isZero = false) :
    (ofFloat x).shortest.IsShortestOf (ofFloat x) :=
  shortest_isShortestOf (sig_ofFloat_pos ((BinaryFloat.isZero_eq_false_iff x).1 h0)) (sig_ofFloat_lt x)

/-- Where single words give the digits of a float, exact arithmetic gives the same. -/
theorem exactDigits_eq_of_fastDigits (x : BinaryFloat fmt) (h0 : x.isZero = false) {s : DigitString}
    (hs : (ofFloat x).fastDigits? = some s) : (ofFloat x).exactDigits = s := by
  have hsig := sig_ofFloat_pos ((BinaryFloat.isZero_eq_false_iff x).1 h0)
  have hlt := sig_ofFloat_lt x
  exact (exactDigits_isShortestOf hsig hlt).unique (fastDigits?_isShortestOf hsig hlt hs)

/-- Single words tell the digits of the float nearest to a tenth. -/
theorem exactDigits_tenth :
    (ofFloat (BinaryFloat.ofBits 0x3FB999999999999A : BinaryFloat .binary64)).exactDigits =
      ⟨[1], 0⟩ :=
  exactDigits_eq_of_fastDigits _ (by decide) (by decide +kernel)

/-- The target of a float covers the numbers that the float without its sign is nearest to. -/
theorem covers_iff_isNearest (hx : x.isFinite = true) (h0 : x.isZero = false) {c : ℚ} (hc : 0 ≤ c) :
    (ofFloat x).Covers c ↔ BinaryFloat.IsNearest c x.abs := by
  have hfin : x.word < fmt.infinityWord := (BinaryFloat.isFinite_iff x).1 hx
  rw [covers_ofFloat_iff ((BinaryFloat.isZero_eq_false_iff x).1 h0)]
  constructor
  · intro h
    apply BinaryFloat.isNearest_of_roundsTo
    · rw [abs_of_nonneg hc]
      exact ⟨x.word, h, (Nat.min_eq_left hfin.le).symm⟩
    · exact hc
  · intro h
    exact h.isNearestWord hx rfl hc

theorem value_abs_pos (h0 : x.isZero = false) : 0 < x.abs.value := by
  have h := lt_of_le_of_ne (fmt.magnitude_nonneg x.word) (Ne.symm ?_)
  · unfold BinaryFloat.value
    exact (one_mul (fmt.magnitude x.word)).symm ▸ h
  · rw [← fmt.magnitude_zero, Ne, fmt.magnitude_injective.eq_iff]
    exact (BinaryFloat.isZero_eq_false_iff x).1 h0

/-- No negative number rounds to a float above zero. -/
theorem not_isNearest_of_neg (hx : x.isFinite = true) (h0 : x.isZero = false) {c : ℚ} (hc : c < 0) :
    ¬BinaryFloat.IsNearest c x.abs := by
  intro h
  have hpos := value_abs_pos h0
  have hzero : (BinaryFloat.zero false : BinaryFloat fmt).value = 0 :=
    (BinaryFloat.value_eq_zero_iff _).2 rfl
  have hnear := h.nearest (BinaryFloat.zero false) hx
    ((BinaryFloat.isFinite_iff _).2 fmt.infinityWord_pos)
  rw [hzero, abs_of_pos (by linarith), abs_of_pos (by linarith)] at hnear
  linarith

/-- The digits of a finite nonzero float are a decimal that rounds to it, without zeros at either end,
and no decimal of fewer digits does. -/
theorem shortest_digits_spec (x : BinaryFloat fmt) (hx : x.isFinite = true) (h0 : x.isZero = false) :
    (∃ d ds, (ofFloat x).shortest.digits = d :: ds ∧ d ≠ 0) ∧
    (∃ ds d, (ofFloat x).shortest.digits = ds ++ [d] ∧ d ≠ 0) ∧
    (∀ d ∈ (ofFloat x).shortest.digits, d ≤ 9) ∧
    BinaryFloat.IsNearest (ofFloat x).shortest.value x.abs ∧
    ∀ (c : ℤ) (e : ℤ), |c| < 10 ^ ((ofFloat x).shortest.digits.length - 1) →
      ¬BinaryFloat.IsNearest (c * 10 ^ e) x.abs := by
  have hsig := sig_ofFloat_pos ((BinaryFloat.isZero_eq_false_iff x).1 h0)
  have h := shortest_isShortestOf hsig (sig_ofFloat_lt x)
  refine ⟨h.normal.head, h.last, fun d hd => Nat.le_of_lt_succ (h.normal.digits_lt d hd), ?_, ?_⟩
  · exact (covers_iff_isNearest hx h0 (DigitString.value_nonneg _)).1 h.shortest.covers
  · intro c e hc
    rcases Int.lt_or_le c 0 with hneg | hnonneg
    · have hneg' : (c : ℚ) < 0 := by exact_mod_cast hneg
      exact not_isNearest_of_neg hx h0 (mul_neg_of_neg_of_pos hneg' (by positivity))
    · obtain ⟨n, rfl⟩ := Int.eq_ofNat_of_zero_le hnonneg
      rw [abs_of_nonneg hnonneg] at hc
      rw [Int.cast_natCast, ← covers_iff_isNearest hx h0 (by positivity)]
      exact h.shortest.not_covers hsig h.normal.mantissa_bounds.1 (by exact_mod_cast hc) e

/-- The least float of double precision is the nearest to `5e-324`. -/
theorem isNearest_least : BinaryFloat.IsNearest (5 * 10 ^ (-324 : ℤ))
    (BinaryFloat.ofBits 1 : BinaryFloat .binary64).abs := by
  have hshortest : (ofFloat (BinaryFloat.ofBits 1 : BinaryFloat .binary64)).shortest =
      ⟨[5], -323⟩ := by decide +kernel
  have h := (shortest_digits_spec (BinaryFloat.ofBits 1 : BinaryFloat .binary64) (by decide +kernel)
    (by decide +kernel)).2.2.2.1
  rw [hshortest] at h
  exact h

end DigitTarget

end MachineNumbers
