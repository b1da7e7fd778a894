import Mathlib
import MachineNumbers.Proofs.Arithmetic.SquareRoot
import MachineNumbers.Proofs.Outcome.Basic

/-!
# How square roots end

A zero is its own root, a negative number has none, and infinity is its own again.
-/

namespace MachineNumbers

open BinaryFloat

namespace Operation

variable {fmt : FloatFormat} {x : BinaryFloat fmt}

theorem exactResult?_squareRoot (hxf : x.isFinite = true) (hx : 0 ≤ x.value) :
    (squareRoot x).exactResult? = some √(x.value : ℝ) := by
  simp [exactResult?, operands, hxf, hx.not_gt]

/-- Roots by sign and kind: negative ones are invalid, the zeros their own roots. -/
theorem squareRoot_endsAs (hnan : propagatedNaN? [x] = none) : ∃ f, (squareRoot x).EndsAs f := by
  have hxn : x.isNaN = false := propagatedNaN?_eq_none_iff.1 hnan x (by simp)
  have hinvalid : (squareRoot x).Invalid .gradual ↔ x.sign = true ∧ x.isZero = false := by
    simp [Invalid, readsAsZero_gradual]
  have heval : ∀ mode, (squareRoot x).Plain mode → (squareRoot x).eval mode =
      if (x.unpack .gradual).sig = 0 then .zero x.sign
      else if x.sign then nan
      else if x.isInfinite then x
      else roundPack mode (x.unpack .gradual).sqrt.1 (x.unpack .gradual).sqrt.2 := by
    intro mode h
    have hx := unpack_of_plain (h x (by simp [operands]))
    simp [eval, BinaryFloat.squareRoot, hxn, hx, unpack_sign]
  cases hxz : x.isZero with
  | true =>
    have hx0 := (unpack_sig_eq_zero x).2 hxz
    have hexact : (squareRoot x).exactResult? = some ((0 : ℚ) : ℝ) := by
      simp [exactResult?, operands, isFinite_of_isZero hxz, value_of_isZero hxz]
    exact ⟨_, .exactZero _ hnan (by simp [hinvalid, hxz]) hexact,
      fun mode h => by rw [heval mode h, if_pos hx0]⟩
  | false =>
  have hx0 := unpack_sig_ne_zero hxz
  cases hs : x.sign with
  | true =>
    have hexact : (squareRoot x).exactResult? = none := by
      simp [exactResult?, value_lt_zero hs hxz]
    exact ⟨_, .invalid hnan (hinvalid.2 ⟨hs, hxz⟩) hexact,
      fun mode h => by rw [heval mode h, if_neg hx0, if_pos hs]⟩
  | false =>
  have hvalid : ¬(squareRoot x).Invalid .gradual := by simp [hinvalid, hs]
  cases hxi : x.isInfinite with
  | true =>
    have hexact : (squareRoot x).exactResult? = none :=
      exactResult?_of_infinite (x := x) (by simp [operands]) hxi
    refine ⟨_, .infinite x.sign hnan hvalid hexact, fun mode h => ?_⟩
    rw [heval mode h, if_neg hx0, if_neg (by simp [hs]), if_pos hxi, ← eq_infinity_of_isInfinite hxi]
  | false =>
  have hvalue := value_of_positive hs
  have hexact : (squareRoot x).exactResult? =
      some √((x.unpack .gradual).sig * 2 ^ (x.unpack .gradual).exp) := by
    rw [exactResult?_squareRoot (isFinite_of_not hxn hxi) (hvalue ▸ by positivity), hvalue]
    push_cast
    rfl
  obtain ⟨hstands, hlow, hhigh⟩ := Unpacked.standsFor_sqrt hx0
    ((unpack_sig_lt_two_pow x).trans (by decide))
  exact ⟨_, .packed hnan hvalid hstands (hhigh.trans (by decide))
    (fun _ => bits_le hlow (by decide)) (.inl hexact),
    fun mode h => by rw [heval mode h, if_neg hx0, if_neg (by simp [hs]), if_neg (by simp [hxi])]⟩

end Operation

end MachineNumbers
