import Mathlib
import MachineNumbers.Proofs.Outcome.Basic

/-!
# How quotients end

Zero by zero and infinity by infinity are invalid, other divisions by zero give infinities, and divisions
of zero and by infinities zeros.
-/

namespace MachineNumbers

open BinaryFloat

namespace Operation

variable {fmt : FloatFormat} {x y : BinaryFloat fmt}

theorem exactResult?_div (hxf : x.isFinite = true) (hyf : y.isFinite = true) :
    (div x y).exactResult? = if y.value = 0 then none else some ((x.value / y.value : ℚ) : ℝ) := by
  simp [exactResult?, operands, hxf, hyf]

/-- Of finite numbers, zeros go before the quotient is packed. -/
theorem div_eval (hxf : x.isFinite = true) (hyf : y.isFinite = true) (mode : SubnormalMode)
    (h : (div x y).Plain mode) : (div x y).eval mode =
      if (x.unpack .gradual).sig = 0 then
        if (y.unpack .gradual).sig = 0 then nan else .zero (x.sign != y.sign)
      else if (y.unpack .gradual).sig = 0 then infinity (x.sign != y.sign)
      else roundPack mode ((x.unpack .gradual).div (y.unpack .gradual)).1
        ((x.unpack .gradual).div (y.unpack .gradual)).2 := by
  obtain ⟨⟨hx, -⟩, hy, -⟩ := plain_binary rfl h
  simp [eval, BinaryFloat.div, propagatedNaN?_eq_none hxf hyf, isInfinite_of_isFinite hxf,
    isInfinite_of_isFinite hyf, hx, hy]

/-- Quotients of numbers: a division by zero, a zero dividend, or one rounding. -/
theorem div_endsAs_of_finite (hxf : x.isFinite = true) (hyf : y.isFinite = true) :
    ∃ f, (div x y).EndsAs f := by
  have hnan := propagatedNaN?_eq_none hxf hyf
  have hinvalid : (div x y).Invalid .gradual ↔ x.isZero = true ∧ y.isZero = true := by
    simp [Invalid, readsAsZero_gradual, isInfinite_of_isFinite hxf]
  have hexact := exactResult?_div hxf hyf
  have heval := div_eval hxf hyf
  cases hyz : y.isZero with
  | true =>
    have hy0 := (unpack_sig_eq_zero y).2 hyz
    rw [if_pos (value_of_isZero hyz)] at hexact
    cases hxz : x.isZero with
    | true =>
      have hx0 := (unpack_sig_eq_zero x).2 hxz
      exact ⟨_, .invalid hnan (hinvalid.2 ⟨hxz, hyz⟩) hexact,
        fun mode h => by rw [heval mode h, if_pos hx0, if_pos hy0]⟩
    | false =>
      have hx0 := unpack_sig_ne_zero hxz
      exact ⟨_, .infinite _ hnan (by simp [hinvalid, hxz]) hexact,
        fun mode h => by rw [heval mode h, if_neg hx0, if_pos hy0]⟩
  | false =>
  have hy0 := unpack_sig_ne_zero hyz
  have hvalid : ¬(div x y).Invalid .gradual := by simp [hinvalid, hyz]
  rw [if_neg (value_ne_zero hyz)] at hexact
  by_cases hx0 : (x.unpack .gradual).sig = 0
  · rw [value_of_isZero ((unpack_sig_eq_zero x).1 hx0), zero_div] at hexact
    exact ⟨_, .exactZero _ hnan hvalid hexact,
      fun mode h => by rw [heval mode h, if_pos hx0, if_neg hy0]⟩
  · have hx := (unpack_sig_lt_two_pow x).trans (by decide : 2 ^ 53 < 2 ^ 126)
    obtain ⟨hlow, hhigh, -⟩ := div_holds hx0 hy0 hx (unpack_sig_lt_two_pow y)
    have hstands := Unpacked.standsFor_div hx0 hy0 hx (unpack_sig_lt_two_pow y)
    rw [value_unpack, value_unpack] at hstands
    exact ⟨_, .packed hnan hvalid hstands hhigh (fun _ => bits_le hlow (by decide)) (.inl hexact),
      fun mode h => by rw [heval mode h, if_neg hx0, if_neg hy0]⟩

theorem div_endsAs (hnan : propagatedNaN? [x, y] = none) : ∃ f, (div x y).EndsAs f := by
  cases hxi : x.isInfinite with
  | true =>
    have hexact : (div x y).exactResult? = none := exactResult?_of_infinite (x := x) (by simp [operands]) hxi
    cases hyi : y.isInfinite with
    | true =>
      refine ⟨_, .invalid hnan (.inr ⟨hxi, hyi⟩) hexact, fun mode _ => ?_⟩
      simp [eval, BinaryFloat.div, hnan, hxi, hyi]
    | false =>
      refine ⟨_, .infinite (x.sign != y.sign) hnan ?_ hexact, fun mode _ => ?_⟩
      · simp [Invalid, readsAsZero_gradual, hyi, isZero_of_isInfinite hxi]
      · simp [eval, BinaryFloat.div, hnan, hxi, hyi]
  | false =>
  cases hyi : y.isInfinite with
  | true =>
    have hexact : (div x y).exactResult? = none := exactResult?_of_infinite (x := y) (by simp [operands]) hyi
    refine ⟨_, .zero (x.sign != y.sign) hnan ?_ (by simp [hexact]), fun mode _ => ?_⟩
    · simp [Invalid, readsAsZero_gradual, hxi, isZero_of_isInfinite hyi]
    · simp [eval, BinaryFloat.div, hnan, hxi, hyi]
  | false =>
    exact div_endsAs_of_finite (isFinite_of_mem hnan (by simp) hxi)
      (isFinite_of_mem hnan (by simp) hyi)

end Operation

end MachineNumbers
