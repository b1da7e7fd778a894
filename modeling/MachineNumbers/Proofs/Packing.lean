import Mathlib
import MachineNumbers.Proofs.NearestReal
import MachineNumbers.Proofs.Rounding

/-!
# What packing makes of a real number

`Unpacked.StandsFor x sticky r` says that the real number `r` is `x`, or exceeds it in magnitude by less
than one unit if `sticky` is set.  It is what a kernel owes to `roundPack`, and two things follow from it
whatever the kernel: the gradual mode gives the float nearest to `r` (`StandsFor.isNearestReal`), and the
mode that flushes gives the same float, except that a nonzero `r` below the least normal number becomes
the zero of its sign (`StandsFor.roundPack_flushToZero`).
-/

namespace MachineNumbers

namespace Unpacked

/-- The real magnitudes that an unpacked number and its sticky flag stand for. -/
def HoldsReal (x : Unpacked) (sticky : Bool) (v : ℝ) : Prop :=
  if sticky then x.sig * 2 ^ x.exp < v ∧ v < (x.sig + 1) * 2 ^ x.exp else v = x.sig * 2 ^ x.exp

/-- The real number that an unpacked number and its sticky flag stand for, with its sign.  Bits can only
be lost beyond a significand that is not zero. -/
structure StandsFor (x : Unpacked) (sticky : Bool) (r : ℝ) : Prop where
  magnitude : x.HoldsReal sticky |r|
  sign : r ≠ 0 → (x.sign = true ↔ r < 0)
  sig_ne_zero : sticky = true → x.sig ≠ 0

variable {x : Unpacked} {sticky : Bool} {v r : ℝ}

theorem holdsReal_false : x.HoldsReal false v ↔ v = x.sig * 2 ^ x.exp := by simp [HoldsReal]

theorem holdsReal_true :
    x.HoldsReal true v ↔ x.sig * 2 ^ x.exp < v ∧ v < (x.sig + 1) * 2 ^ x.exp := by simp [HoldsReal]

theorem holdsReal_cast {m : ℚ} : x.HoldsReal sticky (m : ℝ) ↔ x.Holds sticky m := by
  cases sticky
  · rw [holdsReal_false, holds_false, ← @Rat.cast_inj ℝ]
    push_cast
    rfl
  · rw [holdsReal_true, holds_true, ← Rat.cast_lt (K := ℝ), ← Rat.cast_lt (K := ℝ)]
    push_cast
    rfl

theorem HoldsReal.le (h : x.HoldsReal sticky v) : x.sig * 2 ^ x.exp ≤ v := by
  cases sticky
  · exact (holdsReal_false.1 h).ge
  · exact (holdsReal_true.1 h).1.le

theorem HoldsReal.lt (h : x.HoldsReal sticky v) : v < (x.sig + 1) * 2 ^ x.exp := by
  cases sticky
  · rw [holdsReal_false.1 h]
    exact mul_lt_mul_of_pos_right (by linarith) (by positivity)
  · exact (holdsReal_true.1 h).2

theorem HoldsReal.pos (h : x.HoldsReal sticky v) (hsig : x.sig ≠ 0) : 0 < v := by
  have : (0 : ℝ) < x.sig := by exact_mod_cast Nat.pos_of_ne_zero hsig
  exact lt_of_lt_of_le (by positivity) h.le

theorem HoldsReal.eq_zero (h : x.HoldsReal false v) (hsig : x.sig = 0) : v = 0 := by
  rw [holdsReal_false.1 h, hsig, Nat.cast_zero, zero_mul]

/-- The exponent of the leading bit is that of the number, sticky or not. -/
theorem HoldsReal.leadExp_lt_iff (h : x.HoldsReal sticky v) (hsig : x.sig ≠ 0) (e : ℤ) :
    x.leadExp < e ↔ v < 2 ^ e := by
  have hscale : ∀ n : ℕ, (2 : ℝ) ^ n * 2 ^ x.exp = 2 ^ (x.exp + n) := by
    intro n
    rw [add_comm, zpow_add₀ (by norm_num), zpow_natCast]
  unfold leadExp
  constructor
  · intro hlt
    have hbits : (x.sig : ℝ) + 1 ≤ 2 ^ (x.sig.log2 + 1) := by
      exact_mod_cast (Nat.lt_log2_self : x.sig < 2 ^ (x.sig.log2 + 1))
    calc v < (x.sig + 1) * 2 ^ x.exp := h.lt
      _ ≤ 2 ^ (x.sig.log2 + 1) * 2 ^ x.exp := mul_le_mul_of_nonneg_right hbits (by positivity)
      _ = 2 ^ (x.exp + (x.sig.log2 + 1 : ℕ)) := hscale _
      _ ≤ 2 ^ e := zpow_le_zpow_right₀ (by norm_num) (by push_cast; omega)
  · intro hlt
    by_contra hle
    have hbits : (2 : ℝ) ^ x.sig.log2 ≤ x.sig := by exact_mod_cast Nat.log2_self_le hsig
    have hge : (2 : ℝ) ^ e ≤ v :=
      calc (2 : ℝ) ^ e ≤ 2 ^ (x.exp + x.sig.log2) := zpow_le_zpow_right₀ (by norm_num) (by omega)
        _ = 2 ^ x.sig.log2 * 2 ^ x.exp := (hscale _).symm
        _ ≤ x.sig * 2 ^ x.exp := mul_le_mul_of_nonneg_right hbits (by positivity)
        _ ≤ v := h.le
    exact absurd hlt (not_lt.2 hge)

namespace StandsFor

theorem eq_zero_iff (h : x.StandsFor sticky r) : r = 0 ↔ x.sig = 0 := by
  constructor
  · intro h0
    by_contra hsig
    have := h.magnitude.pos hsig
    rw [h0, abs_zero] at this
    exact lt_irrefl _ this
  · intro hsig
    have hsticky : sticky = false := Bool.eq_false_iff.2 fun hs => h.sig_ne_zero hs hsig
    have hmagnitude := h.magnitude
    rw [hsticky] at hmagnitude
    exact abs_eq_zero.1 (hmagnitude.eq_zero hsig)

/-- A magnitude under the sign of the unpacked number. -/
theorem of_holdsReal (h : x.HoldsReal sticky v) (hsig : x.sig ≠ 0) :
    x.StandsFor sticky (if x.sign then -v else v) := by
  have hv := h.pos hsig
  refine ⟨?_, ?_, fun _ => hsig⟩
  · split
    · rwa [abs_neg, abs_of_pos hv]
    · rwa [abs_of_pos hv]
  · intro _
    cases hs : x.sign
    · simpa using hv.le
    · simpa using hv

/-! ## To the nearest float -/

variable {fmt : FloatFormat}

/-- The rounded word is that of every rational number of this magnitude, and has its sign. -/
theorem isNearest_of_holds {q : ℚ} (hsig : x.sig ≠ 0) (hlt : x.sig < 2 ^ 128)
    (hdiscard : sticky = true → x.exp < fmt.lastExp x.leadExp) (hq : x.Holds sticky |q|)
    (hsign : q ≠ 0 → (x.sign = true ↔ q < 0)) :
    BinaryFloat.IsNearest q (BinaryFloat.roundPack .gradual x sticky : BinaryFloat fmt) := by
  refine BinaryFloat.isNearest_of_roundsTo
    (BinaryFloat.roundPack_roundsTo hsig hlt hq hdiscard) ?_
  unfold BinaryFloat.SignAgrees
  rw [BinaryFloat.roundPack_sign]
  rcases eq_or_ne q 0 with rfl | hq0
  · split <;> exact le_rfl
  · split
    · next hs => exact ((hsign hq0).1 hs).le
    · next hs => exact not_lt.1 fun hneg => hs ((hsign hq0).2 hneg)

/-- Gradual packing gives the nearest float. -/
theorem isNearestReal (h : x.StandsFor sticky r) (hlt : x.sig < 2 ^ 128)
    (hdiscard : sticky = true → x.exp < fmt.lastExp x.leadExp) :
    BinaryFloat.IsNearestReal r (BinaryFloat.roundPack .gradual x sticky : BinaryFloat fmt) := by
  by_cases hsig : x.sig = 0
  · rw [BinaryFloat.roundPack_of_sig_eq_zero _ hsig, h.eq_zero_iff.2 hsig]
    exact BinaryFloat.isNearestReal_zero x.sign
  have hr0 : r ≠ 0 := fun h0 => hsig (h.eq_zero_iff.1 h0)
  cases sticky with
  | false =>
    have hmagnitude := holdsReal_false.1 h.magnitude
    -- the number itself is rational
    obtain ⟨q, rfl⟩ : ∃ q : ℚ, (q : ℝ) = r := by
      rcases abs_choice r with habs | habs
      · exact ⟨x.sig * 2 ^ x.exp, by push_cast; rw [← hmagnitude, habs]⟩
      · exact ⟨-(x.sig * 2 ^ x.exp), by push_cast; rw [← hmagnitude, habs, neg_neg]⟩
    refine (isNearest_of_holds hsig hlt hdiscard (holdsReal_cast.1 ?_) ?_).isNearestReal
    · exact_mod_cast h.magnitude
    · exact_mod_cast h.sign
  | true =>
    -- around the number, all have its sign and the same unpacked number below them
    have hopen :
        IsOpen {t : ℝ | (x.sig * 2 ^ x.exp < |t| ∧ |t| < (x.sig + 1) * 2 ^ x.exp) ∧ 0 < r * t} :=
      ((isOpen_lt continuous_const continuous_abs).inter
        (isOpen_lt continuous_abs continuous_const)).inter
        (isOpen_lt continuous_const (continuous_const.mul continuous_id))
    refine BinaryFloat.isNearestReal_of_around hopen
      ⟨holdsReal_true.1 h.magnitude, mul_self_pos.2 hr0⟩ ?_
    rintro q ⟨hq, hsame⟩
    refine isNearest_of_holds hsig hlt hdiscard (holdsReal_cast.1 ?_) ?_
    · rw [Rat.cast_abs]
      exact holdsReal_true.2 hq
    · intro _
      rw [h.sign hr0]
      rcases pos_and_pos_or_neg_and_neg_of_mul_pos hsame with ⟨h1, h2⟩ | ⟨h1, h2⟩
      · have hq' : 0 < q := by exact_mod_cast h2
        exact iff_of_false h1.not_gt hq'.not_gt
      · have hq' : q < 0 := by exact_mod_cast h2
        exact iff_of_true h1 hq'

end StandsFor

end Unpacked

namespace BinaryFloat

variable {fmt : FloatFormat} {x : Unpacked} {sticky : Bool} {v r : ℝ}

/-- Rounding is correct: of a significand of at most 128 bits at any exponent, with bits to discard if
`sticky` is set, gradual packing gives the float nearest to every real number that these stand for, with
the given sign even if that is a zero. -/
theorem roundPack_nearest (hsig : x.sig ≠ 0) (hlt : x.sig < 2 ^ 128)
    (hdiscard : sticky = true → x.exp < fmt.lastExp x.leadExp)
    (hv : if sticky then x.sig * 2 ^ x.exp < v ∧ v < (x.sig + 1) * 2 ^ x.exp
      else v = x.sig * 2 ^ x.exp) :
    (roundPack .gradual x sticky : BinaryFloat fmt).sign = x.sign ∧
      IsNearestReal (if x.sign then -v else v) (roundPack .gradual x sticky : BinaryFloat fmt) :=
  ⟨roundPack_sign x sticky, (Unpacked.StandsFor.of_holdsReal hv hsig).isNearestReal hlt hdiscard⟩

/-- A number just over half the least one of double precision is not a tie: its significand says half,
its sticky flag that it is more. -/
theorem roundPack_nearest_past_half :
    (1 * 2 ^ (-1075 : ℤ) < √2 * 2 ^ (-1075 : ℤ) ∧
      √2 * 2 ^ (-1075 : ℤ) < (1 + 1) * (2 : ℝ) ^ (-1075 : ℤ)) ∧
    IsNearestReal (-(√2 * 2 ^ (-1075 : ℤ))) (-leastNonzero : BinaryFloat .binary64) := by
  have hlow : (1 : ℝ) < √2 := Real.one_lt_sqrt_two
  have hhigh : √2 < 1 + 1 := by
    have := Real.sqrt_two_lt_three_halves
    linarith
  have hunit : (0 : ℝ) < 2 ^ (-1075 : ℤ) := by positivity
  have hv := And.intro (mul_lt_mul_of_pos_right hlow hunit) (mul_lt_mul_of_pos_right hhigh hunit)
  have hword : (roundPack .gradual ⟨true, -1075, 1⟩ true : BinaryFloat .binary64) = -leastNonzero := by
    decide +kernel
  have h := (@roundPack_nearest .binary64 ⟨true, -1075, 1⟩ true (√2 * 2 ^ (-1075 : ℤ)) (by decide)
    (by decide) (fun _ => by decide +kernel) (by simpa using hv)).2
  rw [hword] at h
  exact ⟨hv, h⟩

/-! ## Flushing -/

/-- What a mode that flushes makes of an operation that gives `x` in the gradual mode and has the exact
result `r`, if there is one: below the least normal number it is a zero, before any rounding. -/
noncomputable def flushUnderflow (r? : Option ℝ) (x : BinaryFloat fmt) : BinaryFloat fmt :=
  match r? with
  | some r => if r ≠ 0 ∧ |r| < 2 ^ fmt.minLead then zero (decide (r < 0)) else x
  | none => x

end BinaryFloat

/-- Flushing packs as the gradual mode does what is not below the least normal number. -/
theorem Unpacked.StandsFor.roundPack_flushToZero {fmt : FloatFormat} {x : Unpacked} {sticky : Bool}
    {r : ℝ} (h : x.StandsFor sticky r) :
    (BinaryFloat.roundPack .flushToZero x sticky : BinaryFloat fmt) =
      BinaryFloat.flushUnderflow (some r) (BinaryFloat.roundPack .gradual x sticky) := by
  unfold BinaryFloat.flushUnderflow
  by_cases hsig : x.sig = 0
  · rw [BinaryFloat.roundPack_of_sig_eq_zero _ hsig, BinaryFloat.roundPack_of_sig_eq_zero _ hsig]
    simp only [h.eq_zero_iff.2 hsig, ne_eq, not_true, false_and, if_false]
  · have hr0 : r ≠ 0 := fun h0 => hsig (h.eq_zero_iff.1 h0)
    have hlead := h.magnitude.leadExp_lt_iff hsig fmt.minLead
    unfold BinaryFloat.roundPack
    simp only [hsig, if_false, true_and, hlead, hr0, ne_eq, not_false_eq_true, reduceCtorEq,
      false_and]
    by_cases hneg : r < 0
    · rw [(h.sign hr0).2 hneg, decide_eq_true hneg]
    · rw [Bool.eq_false_iff.2 fun hs => hneg ((h.sign hr0).1 hs), decide_eq_false hneg]

end MachineNumbers
