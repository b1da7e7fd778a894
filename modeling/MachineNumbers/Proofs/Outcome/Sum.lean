import Mathlib
import MachineNumbers.Proofs.Outcome.Basic

/-!
# How sums and differences end

Infinities cancel or go first, a zero leaves the other operand to be packed, and the rest is the kernel's
exact sum.  A difference is a sum with the opposite number.
-/

namespace MachineNumbers

open BinaryFloat

namespace Operation

variable {fmt : FloatFormat} {x y : BinaryFloat fmt}

/-! ## Sums -/

theorem exactResult?_add (hxf : x.isFinite = true) (hyf : y.isFinite = true) :
    (add x y).exactResult? = some ((x.value + y.value : ℚ) : ℝ) := by
  simp [exactResult?, operands, hxf, hyf]

/-- Of finite numbers, a zero leaves the other one to be packed. -/
theorem add_eval (hxf : x.isFinite = true) (hyf : y.isFinite = true) (mode : SubnormalMode)
    (h : (add x y).Plain mode) : (add x y).eval mode =
      if (x.unpack .gradual).sig = 0 then
        if (y.unpack .gradual).sig = 0 then .zero ((x.unpack .gradual).sign && (y.unpack .gradual).sign)
        else roundPack mode (y.unpack .gradual) false
      else if (y.unpack .gradual).sig = 0 then roundPack mode (x.unpack .gradual) false
      else roundPack mode ((x.unpack .gradual).add (y.unpack .gradual)).1
        ((x.unpack .gradual).add (y.unpack .gradual)).2 := by
  obtain ⟨⟨hx, -⟩, hy, -⟩ := plain_binary rfl h
  simp [eval, BinaryFloat.add, propagatedNaN?_eq_none hxf hyf, isInfinite_of_isFinite hxf,
    isInfinite_of_isFinite hyf, hx, hy]

/-- Sums of numbers: one rounding, or the sign rule when they cancel. -/
theorem add_endsAs_of_finite (hxf : x.isFinite = true) (hyf : y.isFinite = true) :
    ∃ f, (add x y).EndsAs f := by
  have hnan := propagatedNaN?_eq_none hxf hyf
  have hvalid : ¬(add x y).Invalid .gradual := by simp [Invalid, isInfinite_of_isFinite hxf]
  have hexact := exactResult?_add hxf hyf
  have heval := add_eval hxf hyf
  by_cases hx0 : (x.unpack .gradual).sig = 0
  · have hxv := value_of_isZero ((unpack_sig_eq_zero x).1 hx0)
    by_cases hy0 : (y.unpack .gradual).sig = 0
    · have hyv := value_of_isZero ((unpack_sig_eq_zero y).1 hy0)
      rw [hxv, hyv, add_zero] at hexact
      exact ⟨_, .exactZero _ hnan hvalid hexact,
        fun mode h => by rw [heval mode h, if_pos hx0, if_pos hy0]⟩
    · rw [hxv, zero_add] at hexact
      exact ⟨_, .ofOperand hnan hvalid hexact,
        fun mode h => by rw [heval mode h, if_pos hx0, if_neg hy0]⟩
  · by_cases hy0 : (y.unpack .gradual).sig = 0
    · have hyv := value_of_isZero ((unpack_sig_eq_zero y).1 hy0)
      rw [hyv, add_zero] at hexact
      exact ⟨_, .ofOperand hnan hvalid hexact,
        fun mode h => by rw [heval mode h, if_neg hx0, if_pos hy0]⟩
    · have hsum := Unpacked.add_sumOf hx0 (unpack_sig_lt_two_pow_125 x) hy0
        (unpack_sig_lt_two_pow_125 y)
      rw [value_unpack, value_unpack] at hsum
      exact ⟨_, .packed hnan hvalid hsum.standsFor (hsum.sig_lt.trans (by decide))
        (fun h => bits_le (hsum.le_sig h) (by decide)) (.inl hexact),
        fun mode h => by rw [heval mode h, if_neg hx0, if_neg hy0]⟩

theorem add_endsAs (hnan : propagatedNaN? [x, y] = none) : ∃ f, (add x y).EndsAs f := by
  cases hxi : x.isInfinite with
  | true =>
    have hexact : (add x y).exactResult? = none := exactResult?_of_infinite (x := x) (by simp [operands]) hxi
    cases hcancel : y.isInfinite && y.sign != x.sign with
    | true =>
      have hcancel' := hcancel
      rw [Bool.and_eq_true, bne_iff_ne] at hcancel'
      refine ⟨_, .invalid hnan ⟨hxi, hcancel'.1, hcancel'.2.symm⟩ hexact, fun mode _ => ?_⟩
      simp [eval, BinaryFloat.add, hnan, hxi, hcancel]
    | false =>
      refine ⟨_, .infinite x.sign hnan ?_ hexact, fun mode _ => ?_⟩
      · rintro ⟨-, hy, hs⟩
        simp [hy, hs.symm] at hcancel
      · rw [← eq_infinity_of_isInfinite hxi]
        simp [eval, BinaryFloat.add, hnan, hxi, hcancel]
  | false =>
  cases hyi : y.isInfinite with
  | true =>
    refine ⟨_, .infinite y.sign hnan (by simp [Invalid, hxi])
      (exactResult?_of_infinite (x := y) (by simp [operands]) hyi), fun mode _ => ?_⟩
    rw [← eq_infinity_of_isInfinite hyi]
    simp [eval, BinaryFloat.add, hnan, hxi, hyi]
  | false =>
    exact add_endsAs_of_finite (isFinite_of_mem hnan (by simp) hxi)
      (isFinite_of_mem hnan (by simp) hyi)

/-! ## Differences -/

/-- A difference is a sum with the opposite number, once no operand is a NaN. -/
theorem sub_endsAs (hnan : propagatedNaN? [x, y] = none) : ∃ f, (sub x y).EndsAs f := by
  have hnan' : propagatedNaN? [x, -y] = none := by
    rw [propagatedNaN?_eq_none_iff] at hnan ⊢
    intro z hz
    rcases List.mem_pair.1 hz with rfl | rfl
    · exact hnan _ (by simp)
    · exact hnan y (by simp)
  have hinvalid : (sub x y).Invalid .gradual ↔ (add x (-y)).Invalid .gradual := by
    show _ ↔ x.isInfinite = true ∧ y.isInfinite = true ∧ x.sign ≠ !y.sign
    simp [Invalid]
  have hexact : (sub x y).exactResult? = (add x (-y)).exactResult? := by
    have hfinite : (-y).isFinite = y.isFinite := rfl
    simp [exactResult?, operands, hfinite, value_neg, sub_eq_add_neg]
  obtain ⟨f, houtcome, heval⟩ := add_endsAs hnan'
  refine ⟨f, ?_, ?_⟩
  · cases houtcome with
    | propagated h => exact absurd (hnan'.symm.trans h) (by simp)
    | invalid _ h he => exact .invalid hnan (hinvalid.2 h) (hexact.trans he)
    | infinite s _ h he => exact .infinite s hnan (mt hinvalid.1 h) (hexact.trans he)
    | zero s _ h he => exact .zero s hnan (mt hinvalid.1 h) (hexact ▸ he)
    | packed _ h hs hlt hbits he =>
      refine .packed hnan (mt hinvalid.1 h) hs hlt hbits ?_
      rw [hexact]
      refine he.imp_right fun he => ⟨he.1, fun hplain => he.2 fun z hz => ?_⟩
      rcases List.mem_pair.1 hz with rfl | rfl
      · exact hplain _ (by simp [operands])
      · exact hplain y (by simp [operands])
  · intro mode hplain
    rw [← heval mode]
    · simp [eval, BinaryFloat.sub, hnan]
    · intro z hz
      rcases List.mem_pair.1 hz with rfl | rfl
      · exact hplain _ (by simp [operands])
      · exact hplain y (by simp [operands])

end Operation

end MachineNumbers
