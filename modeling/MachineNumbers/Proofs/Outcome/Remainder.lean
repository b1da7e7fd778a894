import Mathlib
import MachineNumbers.Proofs.Outcome.Basic

/-!
# How remainders end

Remainders of infinities and by zeros are invalid.  Of a zero, and by an infinity, both remainders are the
dividend (`special_endsAs`); all others are exact.
-/

namespace MachineNumbers

open BinaryFloat

namespace Operation

variable {fmt : FloatFormat} {x y : BinaryFloat fmt}

/-- What both remainders do without a division. -/
theorem special_endsAs {op : Operation fmt} (hop : op.operands = [x, y])
    (hnan : propagatedNaN? [x, y] = none)
    (hinvalid : op.Invalid .gradual ↔ x.isInfinite = true ∨ y.isZero = true)
    (hnone : y.value = 0 → op.exactResult? = none)
    (hzero : ∀ r, op.exactResult? = some r → x.value = 0 → r = 0)
    (hspecial : (x.isInfinite || y.isZero || (x.isZero || y.isInfinite)) = true)
    (heval : ∀ mode special, x.remainderSpecial? mode y = some special → op.eval mode = special) :
    ∃ f, op.EndsAs f := by
  have hread := fun mode => @plain_binary fmt op x y mode hop
  have hnan' : propagatedNaN? op.operands = none := hop ▸ hnan
  cases hbad : x.isInfinite || y.isZero with
  | true =>
    have hbad' := Bool.or_eq_true_iff.1 hbad
    have hexact : op.exactResult? = none := by
      rcases hbad' with hi | hz
      · exact exactResult?_of_infinite (x := x) (by simp [hop]) hi
      · exact hnone (value_of_isZero hz)
    refine ⟨_, .invalid hnan' (hinvalid.2 hbad') hexact, fun mode h => heval mode _ ?_⟩
    obtain ⟨-, -, hy⟩ := hread mode h
    simp [remainderSpecial?, hnan, hy, hbad]
  | false =>
  rw [hbad, Bool.false_or] at hspecial
  obtain ⟨hxi, -⟩ := Bool.or_eq_false_iff.1 hbad
  have hvalid : ¬op.Invalid .gradual := by
    rw [hinvalid, ← Bool.or_eq_true_iff, hbad]
    simp
  have hpacked : ∀ mode, op.Plain mode →
      op.eval mode = roundPack mode (x.unpack .gradual) false := by
    intro mode h
    obtain ⟨⟨hx, hxz⟩, -, hy⟩ := hread mode h
    refine heval mode _ ?_
    simp [remainderSpecial?, hnan, hy, hbad, hx, hxz, hspecial]
  refine ⟨_, .packed hnan' hvalid (standsFor_unpack x) (unpack_sig_lt_two_pow_128 x) (by simp) ?_,
    hpacked⟩
  cases hexact : op.exactResult? with
  | none => exact .inr ⟨rfl, fun hplain => value_of_not_subnormal (hplain x (by simp [hop]))⟩
  | some r =>
    have hxz : x.isZero = true := by
      refine (Bool.or_eq_true_iff.1 hspecial).resolve_right fun hi => ?_
      rw [exactResult?_of_infinite (x := y) (by simp [hop]) hi] at hexact
      cases hexact
    have hx0 := value_of_isZero hxz
    rw [hx0, Rat.cast_zero, hzero r hexact hx0]
    exact .inl rfl

/-! ## Truncating remainders -/

theorem exactResult?_truncatingRemainder (hxf : x.isFinite = true) (hyf : y.isFinite = true)
    (hyz : y.isZero = false) : (truncatingRemainder x y).exactResult? =
      some ((x.value - truncated (x.value / y.value) * y.value : ℚ) : ℝ) := by
  simp [exactResult?, operands, hxf, hyf, value_ne_zero hyz]

/-- Of finite numbers that are not zero, what the reduction leaves is packed. -/
theorem truncatingRemainder_eval (hxf : x.isFinite = true) (hyf : y.isFinite = true)
    (hxz : x.isZero = false) (hyz : y.isZero = false) (mode : SubnormalMode)
    (h : (truncatingRemainder x y).Plain mode) : (truncatingRemainder x y).eval mode =
      roundPack mode ⟨(x.unpack .gradual).sign,
        (remainderAt (x.unpack .gradual).sig (x.unpack .gradual).exp (y.unpack .gradual).sig
          (y.unpack .gradual).exp).2,
        (remainderAt (x.unpack .gradual).sig (x.unpack .gradual).exp (y.unpack .gradual).sig
          (y.unpack .gradual).exp).1⟩ false := by
  obtain ⟨⟨hxu, hxr⟩, hyu, hyr⟩ := plain_binary rfl h
  simp [eval, BinaryFloat.truncatingRemainder, remainderSpecial?, propagatedNaN?_eq_none hxf hyf,
    isInfinite_of_isFinite hxf, isInfinite_of_isFinite hyf, hxr, hyr, hxz, hyz, hxu, hyu]

/-- Remainders by the kinds of their operands; those of numbers are exact. -/
theorem truncatingRemainder_endsAs (hnan : propagatedNaN? [x, y] = none) :
    ∃ f, (truncatingRemainder x y).EndsAs f := by
  have hinvalid : (truncatingRemainder x y).Invalid .gradual ↔
      x.isInfinite = true ∨ y.isZero = true := by
    simp [Invalid, readsAsZero_gradual]
  by_cases hspecial : (x.isInfinite || y.isZero || (x.isZero || y.isInfinite)) = true
  · refine special_endsAs rfl hnan hinvalid ?_ ?_ hspecial ?_
    · intro hy
      simp [exactResult?, hy]
    · intro r hr hx
      have h : (x.isFinite = true ∧ y.isFinite = true) ∧ ¬y.value = 0 ∧ 0 = r := by
        simpa [exactResult?, operands, hx, truncated] using hr
      exact h.2.2.symm
    · intro mode special h
      simp [eval, BinaryFloat.truncatingRemainder, h]
  simp only [Bool.not_eq_true, Bool.or_eq_false_iff] at hspecial
  obtain ⟨⟨hxi, hyz⟩, hxz, hyi⟩ := hspecial
  have hxf := isFinite_of_mem (x := x) hnan (by simp) hxi
  have hyf := isFinite_of_mem (x := y) hnan (by simp) hyi
  have hx := unpack_sig_lt_two_pow_64 x
  have hy0 := unpack_sig_ne_zero hyz
  have hvalue := Unpacked.value_remainderAt hx hy0
  rw [value_unpack, value_unpack] at hvalue
  refine ⟨_, .ofExact hnan (by simp [hinvalid, hxi, hyz]) hvalue ?_
    (exactResult?_truncatingRemainder hxf hyf hyz), truncatingRemainder_eval hxf hyf hxz hyz⟩
  exact (remainderAt_lt hx (Nat.pos_of_ne_zero hy0) (unpack_sig_lt_two_pow_64 y)).trans (by decide)

/-! ## Nearest remainders -/

theorem exactResult?_remainder (hxf : x.isFinite = true) (hyf : y.isFinite = true)
    (hyz : y.isZero = false) : (remainder x y).exactResult? =
      some ((x.value - nearestEven (x.value / y.value) * y.value : ℚ) : ℝ) := by
  simp [exactResult?, operands, hxf, hyf, value_ne_zero hyz]

/-- Of finite numbers that are not zero, the dividend itself is packed far below the divisor. -/
theorem remainder_eval (hxf : x.isFinite = true) (hyf : y.isFinite = true) (hxz : x.isZero = false)
    (hyz : y.isZero = false) (mode : SubnormalMode) (h : (remainder x y).Plain mode) :
    (remainder x y).eval mode =
      if 54 ≤ (y.unpack .gradual).exp - (x.unpack .gradual).exp
      then roundPack mode (x.unpack .gradual) false
      else roundPack mode ((x.unpack .gradual).nearestRemainder (y.unpack .gradual)) false := by
  obtain ⟨⟨hxu, hxr⟩, hyu, hyr⟩ := plain_binary rfl h
  simp [eval, BinaryFloat.remainder, remainderSpecial?, propagatedNaN?_eq_none hxf hyf,
    isInfinite_of_isFinite hxf, isInfinite_of_isFinite hyf, hxr, hyr, hxz, hyz, hxu, hyu]

theorem remainder_endsAs (hnan : propagatedNaN? [x, y] = none) :
    ∃ f, (remainder x y).EndsAs f := by
  have hinvalid : (remainder x y).Invalid .gradual ↔ x.isInfinite = true ∨ y.isZero = true := by
    simp [Invalid, readsAsZero_gradual]
  by_cases hspecial : (x.isInfinite || y.isZero || (x.isZero || y.isInfinite)) = true
  · refine special_endsAs rfl hnan hinvalid ?_ ?_ hspecial ?_
    · intro hy
      simp [exactResult?, hy]
    · intro r hr hx
      have h : (x.isFinite = true ∧ y.isFinite = true) ∧ ¬y.value = 0 ∧ 0 = r := by
        simpa [exactResult?, operands, hx, nearestEven] using hr
      exact h.2.2.symm
    · intro mode special h
      simp [eval, BinaryFloat.remainder, h]
  simp only [Bool.not_eq_true, Bool.or_eq_false_iff] at hspecial
  obtain ⟨⟨hxi, hyz⟩, hxz, hyi⟩ := hspecial
  have hxf := isFinite_of_mem (x := x) hnan (by simp) hxi
  have hyf := isFinite_of_mem (x := y) hnan (by simp) hyi
  have hvalid : ¬(remainder x y).Invalid .gradual := by simp [hinvalid, hxi, hyz]
  have hexact := exactResult?_remainder hxf hyf hyz
  have hx := unpack_sig_lt_two_pow_64 x
  have hy0 := unpack_sig_ne_zero hyz
  have heval := remainder_eval hxf hyf hxz hyz
  by_cases hfar : 54 ≤ (y.unpack .gradual).exp - (x.unpack .gradual).exp
  · have hzero := Unpacked.nearestEven_eq_zero (unpack_sig_lt_two_pow x) hy0 hfar
    rw [value_unpack, value_unpack] at hzero
    rw [hzero, Int.cast_zero, zero_mul, sub_zero] at hexact
    exact ⟨_, .ofOperand hnan hvalid hexact, fun mode h => by rw [heval mode h, if_pos hfar]⟩
  · have hvalue := Unpacked.value_nearestRemainder hx hy0
    rw [value_unpack, value_unpack] at hvalue
    refine ⟨_, .ofExact hnan hvalid hvalue ?_ hexact,
      fun mode h => by rw [heval mode h, if_neg hfar]⟩
    have hle := Unpacked.nearestRemainder_sig_le (x.unpack .gradual) (y.unpack .gradual)
    have hlt := @remainderAt_lt _ _ (x.unpack .gradual).exp ((y.unpack .gradual).exp + 1) hx
      (Nat.pos_of_ne_zero hy0) (unpack_sig_lt_two_pow_64 y)
    omega

end Operation

end MachineNumbers
