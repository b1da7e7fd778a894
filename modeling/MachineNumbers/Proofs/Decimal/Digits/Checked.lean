import Mathlib
import MachineNumbers.Decimal.Digits.Checked
import MachineNumbers.Proofs.Decimal.Digits.Shortest
import MachineNumbers.Proofs.MachineWord

/-!
# Digit generation in single words does not wrap

The amounts of digit generation stay below the interval or below one unit of the place before the point.
The interval holds the target with its unit, so that what is scaled with it fits as it does
(`Stop.Fits`); it grows tenfold only while it is within the fraction, which leaves four bits free.  So every
step of `CheckedDigits.fastDigits?` succeeds (`fastDigits?_eq`), with the power in use at a scaled exponent and
digits that neither begin nor end with a zero (`fast_digits_never_wrap`).
-/

namespace MachineNumbers

open MachineWord

/-! ## The last digit -/

namespace FastDigits

/-- Amounts that the last digit can be settled with: the target is within the interval by a unit on both
sides, and the rest is, while one weight more than the digits hold is not. -/
structure Stop.Fits (s : Stop) (last : ℕ) : Prop where
  weight_pos : 0 < s.weight
  unit_le : s.unit ≤ s.distance
  distance_le : s.distance + s.unit ≤ s.interval
  rest_le : s.rest ≤ s.interval
  interval_le : s.interval ≤ last * s.weight + s.rest
  interval_lt : s.interval < 2 ^ 64
  margin_lt : 4 * s.unit < 2 ^ 64

theorem Stop.lowers_bound {s : Stop} {rest goal : ℕ} (h : s.lowers rest goal = true)
    (hrest : rest ≤ s.interval) : rest + s.weight ≤ s.interval := by
  simp only [lowers, Bool.and_eq_true, decide_eq_true_eq] at h
  omega

theorem Stop.lowerLast_rest_le {s : Stop} {goal last rest : ℕ} (hrest : rest ≤ s.interval) :
    (s.lowerLast goal last rest).2 ≤ s.interval := by
  induction last generalizing rest with
  | zero => exact hrest
  | succ last ih =>
    rw [lowerLast]
    split
    · next h => exact ih (Stop.lowers_bound h hrest)
    · exact hrest

end FastDigits

namespace CheckedDigits

open FastDigits (Stop)

variable {s : Stop}

/-- The model's test, with or without ties. -/
theorem lowers?_eq {rest : ℕ} (ties : Bool) (goal : ℕ) (hrest : rest ≤ s.interval)
    (hlt : s.interval < 2 ^ 64) : lowers? s ties rest goal =
      some (if ties then s.lowers rest goal else s.lowersNearer rest goal) := by
  unfold lowers? Stop.lowers Stop.lowersNearer
  by_cases hgoal : rest < goal
  · rw [if_pos hgoal, bind_of_some (difference?_of_le hrest)]
    by_cases hweight : s.weight ≤ s.interval - rest
    · rw [if_pos hweight, bind_of_some (sum?_of_lt (by omega))]
      by_cases hnext : rest + s.weight < goal
      · rw [if_pos hnext]
        simp [hgoal, hweight, hnext]
      · rw [if_neg hnext, bind_of_some (difference?_of_le hgoal.le),
          bind_of_some (difference?_of_le (not_lt.1 hnext))]
        cases ties
        · simp [hgoal, hweight, hnext]
        · simp [hgoal, hweight, hnext, le_iff_lt_or_eq, Bool.decide_or, beq_eq_decide]
    · rw [if_neg hweight]
      simp [hweight]
  · rw [if_neg hgoal]
    simp [hgoal]

/-- A last digit of zero is not lowered: one weight more would take more than the interval off. -/
theorem lowerLast?_eq {goal last rest : ℕ} (hweight : 0 < s.weight) (hlt : s.interval < 2 ^ 64)
    (hrest : rest ≤ s.interval) (hle : s.interval ≤ last * s.weight + rest) :
    lowerLast? s goal last rest = some (s.lowerLast goal last rest) := by
  induction last generalizing rest with
  | zero =>
    have hstays : s.lowers rest goal = false := by
      rw [Bool.eq_false_iff]
      intro h
      have := Stop.lowers_bound h hrest
      omega
    rw [lowerLast?, bind_of_some (lowers?_eq true goal hrest hlt), if_pos rfl, hstays]
    rfl
  | succ last ih =>
    rw [lowerLast?, Stop.lowerLast, bind_of_some (lowers?_eq true goal hrest hlt), if_pos rfl]
    split
    · next h =>
      have hnext := Stop.lowers_bound h hrest
      rw [bind_of_some (sum?_of_lt (by omega))]
      refine ih hnext ?_
      rw [Nat.succ_mul] at hle
      omega
    · rfl

theorem settle?_eq {last : ℕ} (h : s.Fits last) (digits : List ℕ) :
    settle? s (last :: digits) = some (s.settle (last :: digits)) := by
  have hunit := h.unit_le
  have hdistance := h.distance_le
  have hlt := h.interval_lt
  have hmargin := h.margin_lt
  have hrest : (s.lowerLast (s.distance - s.unit) last s.rest).2 ≤ s.interval :=
    Stop.lowerLast_rest_le h.rest_le
  unfold settle? Stop.settle
  dsimp only
  rw [bind_of_some (difference?_of_le hunit), bind_of_some (sum?_of_lt (by omega)),
    bind_of_some (lowerLast?_eq h.weight_pos hlt h.rest_le h.interval_le)]
  generalize s.lowerLast (s.distance - s.unit) last s.rest = lowered at hrest
  obtain ⟨last', rest'⟩ := lowered
  dsimp only at hrest ⊢
  rw [bind_of_some (lowers?_eq false _ hrest hlt), if_neg Bool.false_ne_true]
  split
  · rfl
  · unfold safelyInside?
    rw [bind_of_some (product?_of_lt hmargin)]
    by_cases hinside : 4 * s.unit ≤ s.interval
    · rw [difference?_of_le hinside]
      dsimp only
      rw [bind_of_some (product?_of_lt (by omega))]
      simp [hinside]
    · have hnone : difference? s.interval (4 * s.unit) = none := if_neg hinside
      rw [hnone]
      simp [hinside]

/-! ## Generation -/

theorem digit?_of_lt {n : ℕ} (h : n < 10) : digit? n = some n := if_pos (Nat.le_of_lt_succ h)

/-- What the loops know of the interval in parts of `unit`: it holds the target with its unit, and no more
than a third of it is one unit. -/
structure IntervalFits (distance interval unit : ℕ) : Prop where
  unit_le : unit ≤ distance * unit
  distance_le : distance * unit + unit ≤ interval
  three_mul_le : 3 * unit ≤ interval

theorem IntervalFits.timesTen {distance interval unit : ℕ} (h : IntervalFits distance interval unit) :
    IntervalFits distance (interval * 10) (unit * 10) := by
  obtain ⟨hunit, hdistance, hthree⟩ := h
  rw [← Nat.add_one_mul] at hdistance
  refine ⟨?_, ?_, by omega⟩
  · rw [← Nat.mul_assoc]
    exact Nat.mul_le_mul_right 10 hunit
  · rw [← Nat.add_one_mul, ← Nat.mul_assoc]
    exact Nat.mul_le_mul_right 10 hdistance

/-- Below the point the interval is still within the fraction, which ten times over fits a word. -/
theorem fractionDigits?_eq {shift distance : ℕ} (hshift : shift ≤ 60) (more : ℕ)
    {fraction interval unit : ℕ} {exponent : ℤ} {digits : List ℕ}
    (h : IntervalFits distance interval unit) (hle : interval ≤ fraction) (hlt : fraction < 2 ^ shift)
    (hmore : 2 ^ shift ≤ interval * 10 ^ more) :
    fractionDigits? shift distance more fraction interval unit exponent digits =
      some (FastDigits.fractionDigits shift distance more fraction interval unit exponent digits) := by
  induction more generalizing fraction interval unit exponent digits with
  | zero =>
    rw [pow_zero, Nat.mul_one] at hmore
    omega
  | succ more ih =>
    have hpow : 2 ^ shift ≤ 2 ^ 60 := Nat.pow_le_pow_right (by decide) hshift
    have hten := h.timesTen
    have hunit := h.three_mul_le
    have hsplit := shiftRight_mul_add_mod (fraction * 10) shift
    have hdigit : (fraction * 10) >>> shift < 10 := by
      rw [Nat.shiftRight_eq_div_pow, Nat.div_lt_iff_lt_mul (Nat.two_pow_pos _)]
      omega
    have hdistance := hten.distance_le
    rw [fractionDigits?, FastDigits.fractionDigits, bind_of_some (product?_of_lt (by omega)),
      bind_of_some (product?_of_lt (by omega)), bind_of_some (product?_of_lt (by omega)),
      bind_of_some (cutAt?_of_lt (by omega) _)]
    dsimp only
    rw [bind_of_some (digit?_of_lt hdigit)]
    split
    · next hrest =>
      have hfits : Stop.Fits ⟨distance * (unit * 10), interval * 10, fraction * 10 % 2 ^ shift,
          2 ^ shift, unit * 10⟩ ((fraction * 10) >>> shift) := by
        refine ⟨Nat.two_pow_pos _, hten.unit_le, hdistance, Nat.le_of_lt hrest, ?_, ?_, ?_⟩
        all_goals
          dsimp only
          omega
      rw [bind_of_some (product?_of_lt (by omega)), bind_of_some (shiftLeft?_one (by omega)),
        bind_of_some (settle?_eq hfits digits)]
      simp only [Nat.pow_eq, hrest, if_true]
    · next hrest =>
      have hgoes : ¬fraction * 10 % Nat.pow 2 shift < interval * 10 := hrest
      rw [if_neg hgoes]
      refine ih hten (Nat.le_of_not_lt hrest) (Nat.mod_lt _ (Nat.two_pow_pos shift)) ?_
      calc 2 ^ shift ≤ interval * 10 ^ (more + 1) := hmore
        _ = interval * 10 * 10 ^ more := by ring

/-- Before the point all amounts are within the upper bound, which is a word. -/
theorem integralDigits?_eq {shift distance interval fraction : ℕ} (hshift : shift ≤ 60)
    (h : IntervalFits distance interval 1) (hfraction : fraction < 2 ^ shift) (count : ℕ)
    {divisor integral : ℕ} {digits : List ℕ} (hdivisor : count ≠ 0 → divisor = 10 ^ (count - 1))
    (hweight : 10 ^ (count - 1) * 2 ^ shift < 2 ^ 64) (hlt : integral < 10 ^ count)
    (hle : interval ≤ integral * 2 ^ shift + fraction) (htotal : integral * 2 ^ shift + fraction < 2 ^ 64) :
    integralDigits? shift distance interval fraction count divisor integral digits =
      some (FastDigits.integralDigits shift distance interval fraction count integral digits) := by
  have hthree := h.three_mul_le
  induction count generalizing divisor integral digits with
  | zero =>
    obtain rfl : integral = 0 := by
      rw [pow_zero] at hlt
      omega
    rw [Nat.zero_mul, Nat.zero_add] at hle
    exact fractionDigits?_eq hshift shift h hle hfraction
      (FastDigits.two_pow_le_mul_ten_pow (by omega) shift)
  | succ count ih =>
    obtain rfl : divisor = 10 ^ count := hdivisor (Nat.succ_ne_zero _)
    have hpos : 0 < 10 ^ count := by positivity
    have hdigit : integral / 10 ^ count < 10 := by
      rw [Nat.div_lt_iff_lt_mul hpos, ← pow_succ']
      exact hlt
    have hsplit := FastDigits.split_digit integral fraction count shift
    rw [Nat.add_sub_cancel] at hweight
    have hrestLt : integral % 10 ^ count * 2 ^ shift + fraction < 2 ^ 64 := by omega
    rw [integralDigits?, FastDigits.integralDigits, bind_of_some (quotient?_of_pos hpos _),
      bind_of_some (digit?_of_lt hdigit), bind_of_some (remainder?_of_pos hpos _),
      bind_of_some (shiftLeft?_of_lt (by omega) (by rw [Nat.shiftLeft_eq]; omega)), Nat.shiftLeft_eq,
      bind_of_some (sum?_of_lt hrestLt)]
    simp only [Nat.pow_eq, Nat.shiftLeft_eq]
    split
    · next hrest =>
      have hfits : Stop.Fits ⟨distance, interval, integral % 10 ^ count * 2 ^ shift + fraction,
          10 ^ count * 2 ^ shift, 1⟩ (integral / 10 ^ count) := by
        refine ⟨Nat.mul_pos hpos (Nat.two_pow_pos _), ?_, ?_, Nat.le_of_lt hrest, ?_, ?_, ?_⟩
        · simpa using h.unit_le
        · simpa using h.distance_le
        all_goals
          dsimp only
          omega
      rw [bind_of_some (shiftLeft?_of_lt (by omega) (by rwa [Nat.shiftLeft_eq])), Nat.shiftLeft_eq,
        bind_of_some (settle?_eq hfits digits)]
    · next hrest =>
      have hnext : count ≠ 0 → 10 ^ count / 10 = 10 ^ (count - 1) := fun h0 => by
        obtain ⟨c, rfl⟩ := Nat.exists_eq_succ_of_ne_zero h0
        rw [pow_succ, Nat.mul_div_cancel _ (by decide), Nat.succ_sub_one]
      have hfiner : 10 ^ (count - 1) * 2 ^ shift < 2 ^ 64 :=
        (Nat.mul_le_mul_right _ (Nat.pow_le_pow_right (by decide) (Nat.sub_le _ _))).trans_lt hweight
      rw [bind_of_some (quotient?_of_pos (by decide) _)]
      exact ih hnext hfiner (Nat.mod_lt _ hpos) (Nat.le_of_not_lt hrest) hrestLt

/-- The power in front of an integral part is no greater, and so fits with it. -/
theorem leadingPower?_eq {n : ℕ} (h : n < 2 ^ 32) :
    ∃ divisor count, leadingPower? n = some (divisor, count) ∧
      (if n = 0 then 0 else (Positional.digits 10 n).length) = count ∧
      (count ≠ 0 → divisor = 10 ^ (count - 1)) ∧ 10 ^ (count - 1) ≤ max n 1 ∧ n < 10 ^ count := by
  unfold leadingPower?
  split
  · next h0 => exact ⟨1, 0, rfl, rfl, fun hne => absurd rfl hne, le_max_right _ _, by simp [h0]⟩
  · next h0 =>
    obtain ⟨hfirst, hlast⟩ := Positional.pow_length_digits (by decide : 1 < 10) h0
    dsimp only
    rw [Nat.pow_eq, bind_of_some (unsigned?_of_lt (hfirst.trans_lt h))]
    exact ⟨_, _, rfl, rfl, fun _ => rfl, hfirst.trans (le_max_left _ _), hlast⟩

/-- Words in order, the bounds apart, of which the exponent leaves 32 bits for the integral part at most. -/
theorem generate?_eq {low target high : ScaledWord} (hlow : low.f ≤ target.f) (hhigh : target.f ≤ high.f)
    (hapart : low.f < high.f) (hword : high.f < 2 ^ 64) (hmin : ScaledWord.minScaled ≤ target.e)
    (hmax : target.e ≤ ScaledWord.maxScaled) :
    generate? low target high = some (FastDigits.generate low target high) := by
  unfold ScaledWord.minScaled at hmin
  unfold ScaledWord.maxScaled at hmax
  unfold generate? FastDigits.generate
  by_cases hwords : low.f = 0 ∨ 2 ^ 64 ≤ high.f + 1
  · rw [Nat.pow_eq, if_pos hwords]
    rcases hwords with h0 | hfull
    · have hnone : difference? low.f 1 = none := if_neg (by omega)
      rw [hnone]
    · have hnone : sum? 64 high.f 1 = none := unsigned?_of_ge hfull
      rw [hnone]
      cases difference? low.f 1 <;> rfl
  · rw [Nat.pow_eq, if_neg hwords, difference?_of_le (by omega), sum?_of_lt (by omega)]
    dsimp only
    generalize hs : target.e.natAbs = shift
    have hshift : 32 ≤ shift ∧ shift ≤ 60 := by omega
    have hintegral : (high.f + 1) >>> shift < 2 ^ 32 := by
      rw [Nat.shiftRight_eq_div_pow, Nat.div_lt_iff_lt_mul (Nat.two_pow_pos _), ← pow_add]
      exact (Nat.lt_of_not_le fun h => hwords (.inr h)).trans_le
        (Nat.pow_le_pow_right (by decide) (by omega))
    have hsplit := shiftRight_mul_add_mod (high.f + 1) shift
    have hpow : 2 ^ shift ≤ 2 ^ 60 := Nat.pow_le_pow_right (by decide) hshift.2
    obtain ⟨divisor, count, hpower, hcount, hdivisor, hfirst, hlast⟩ := leadingPower?_eq hintegral
    have hfits : IntervalFits (high.f + 1 - target.f) (high.f + 1 - (low.f - 1)) 1 :=
      ⟨by omega, by omega, by omega⟩
    have hweight : 10 ^ (count - 1) * 2 ^ shift < 2 ^ 64 := by
      refine (Nat.mul_le_mul_right _ hfirst).trans_lt ?_
      rcases le_total ((high.f + 1) >>> shift) 1 with hone | hone
      · rw [max_eq_right hone]
        omega
      · rw [max_eq_left hone]
        omega
    rw [bind_of_some (difference?_of_le (by omega)), bind_of_some (cutAt?_of_lt (by omega) _)]
    dsimp only
    rw [bind_of_some (unsigned?_of_lt hintegral), bind_of_some hpower,
      bind_of_some (difference?_of_le (by omega)), hcount]
    exact integralDigits?_eq hshift.2 hfits (Nat.mod_lt _ (Nat.two_pow_pos _)) count hdivisor hweight
      hlast (by omega) (by omega)

/-! ## Words of the target -/

theorem normalisedWord?_eq {x : ScaledWord} (h0 : 0 < x.f) (hlt : x.f < 2 ^ 64) :
    normalisedWord? x = some x.normalised := by
  have hlog : x.f.log2 < 64 := (Nat.log2_lt h0.ne').2 hlt
  have hshifted := (ScaledWord.normalised_bounds h0 hlt).2
  unfold normalisedWord?
  rw [if_neg h0.ne', bind_of_some (difference?_of_le (by omega)),
    bind_of_some (shiftLeft?_of_lt (by omega) hshifted)]
  rfl

theorem mulWord?_eq {x y : ScaledWord} (hx : x.f < 2 ^ 64) (hy : y.f < 2 ^ 64) :
    mulWord? x y = some (x.mul y) := by
  have hproduct : x.f * y.f < 2 ^ 128 := by
    calc x.f * y.f ≤ (2 ^ 64 - 1) * (2 ^ 64 - 1) :=
          Nat.mul_le_mul (Nat.le_sub_one_of_lt hx) (Nat.le_sub_one_of_lt hy)
      _ < 2 ^ 128 := by decide
  have hrounded : x.f * y.f / 2 ^ 64 + x.f * y.f / 2 ^ 63 % 2 < 2 ^ 64 := ScaledWord.mul_f_lt_word hx hy
  unfold mulWord? ScaledWord.mul
  rw [bind_of_some (product?_of_lt hproduct), bind_of_some (shiftRight?_of_lt (by decide) _),
    bind_of_some (shiftRight?_of_lt (by decide) _), Nat.and_one_is_mod, Nat.shiftRight_eq_div_pow,
    Nat.shiftRight_eq_div_pow, bind_of_some (sum?_of_lt hrounded)]
  rfl

variable {t : DigitTarget}

theorem upperBound?_eq (hlt : t.sig < 2 ^ 61) : upperBound? t = some t.upperBound := by
  have hdoubled : t.sig <<< 1 = 2 * t.sig := by rw [Nat.shiftLeft_eq, pow_one, Nat.mul_comm]
  unfold upperBound?
  rw [bind_of_some (shiftLeft?_of_bits hlt (by decide) (by decide)), hdoubled,
    bind_of_some (sum?_of_lt (by omega))]
  have hf : 2 * t.sig + 1 < 2 ^ 64 := by omega
  exact normalisedWord?_eq (Nat.succ_pos _) hf

/-- The lower bound by the places that its significand is ahead of the target's. -/
theorem lowerBound_eq (t : DigitTarget) : ∃ places : ℕ, places = (if t.lowerCloser then 2 else 1) ∧
    t.lowerBound = ⟨(t.sig <<< places - 1) <<< (t.exp - places - t.upperBound.e).toNat, t.upperBound.e⟩ := by
  refine ⟨_, rfl, ?_⟩
  unfold DigitTarget.lowerBound
  cases t.lowerCloser <;> simp [Nat.shiftLeft_eq, Nat.mul_comm]

theorem lowerBound?_eq (h0 : 0 < t.sig) (hlt : t.sig < 2 ^ 61) :
    lowerBound? t t.upperBound = some t.lowerBound := by
  obtain ⟨places, hplaces, hbound⟩ := lowerBound_eq t
  have hfew : 1 ≤ places ∧ places ≤ 2 := by
    rw [hplaces]
    split <;> decide
  have hbelow := (DigitTarget.upperBound_e h0 hlt).2
  have hexp : t.upperBound.e = t.exp - 1 - (63 - (2 * t.sig + 1).log2 : ℕ) := rfl
  have hword := (DigitTarget.lowerBound_f_lt h0 hlt).trans (DigitTarget.upperBound_bounds hlt).2
  have hpos : 1 ≤ t.sig <<< places := by
    rw [Nat.shiftLeft_eq]
    exact Nat.mul_pos h0 (Nat.two_pow_pos _)
  rw [hbound] at hword ⊢
  unfold lowerBound?
  dsimp only
  rw [← hplaces, bind_of_some (shiftLeft?_of_bits hlt (by decide) (by omega)),
    bind_of_some (difference?_of_le hpos), bind_of_some (Int.mem_toNat?.2 (Int.toNat_of_nonneg (by omega)).symm),
    bind_of_some (shiftLeft?_of_lt (by omega) hword)]

/-- Every step in machine words succeeds, and gives what exact arithmetic does. -/
theorem fastDigits?_eq (h0 : 0 < t.sig) (hlt : t.sig < 2 ^ 61) : fastDigits? t = some t.fastDigits? := by
  have hsig : t.sig < 2 ^ 64 := hlt.trans (by decide)
  have hword : normalisedWord? ⟨t.sig, t.exp⟩ = some t.word := normalisedWord?_eq h0 hsig
  have hbelow := DigitTarget.lowerBound_f_lt_word_f h0 hlt
  have habove := DigitTarget.word_f_lt_upperBound_f h0 hlt
  have hupper := (DigitTarget.upperBound_bounds hlt).2
  unfold fastDigits? DigitTarget.fastDigits?
  rw [bind_of_some hword, bind_of_some (upperBound?_eq hlt), bind_of_some (lowerBound?_eq h0 hlt)]
  dsimp only
  rw [show ScaledWord.normalised ⟨t.sig, t.exp⟩ = t.word from rfl]
  cases hpower : ScaledWord.powerFor? t.word.e with
  | none => rfl
  | some found =>
    obtain ⟨power, k⟩ := found
    obtain ⟨⟨htop, hfits, -⟩, hmin, hmax⟩ := ScaledWord.powerFor?_spec hpower
    have hgenerate := generate?_eq (ScaledWord.mul_f_mono hbelow.le power)
      (ScaledWord.mul_f_mono habove.le power)
      (ScaledWord.mul_f_strict (Nat.succ_le_of_lt (Nat.lt_of_le_of_lt hbelow habove)) htop)
      (ScaledWord.mul_f_lt_word hupper hfits) hmin hmax
    dsimp only
    rw [bind_of_some (mulWord?_eq (hbelow.trans (habove.trans hupper)) hfits),
      bind_of_some (mulWord?_eq (habove.trans hupper) hfits), bind_of_some (mulWord?_eq hupper hfits),
      bind_of_some hgenerate]
    cases FastDigits.generate (t.lowerBound.mul power) (t.word.mul power) (t.upperBound.mul power) <;> rfl

end CheckedDigits

namespace DigitTarget

/-- For a nonzero float of any format, either no power of ten is in use or the one in use scales the target
to an exponent in range; no step in machine words wraps, so the digits are those of exact arithmetic; and if
there are any, they are digits of which neither the first nor the last is zero. -/
theorem fast_digits_never_wrap {fmt : FloatFormat} (x : BinaryFloat fmt) (h0 : x.isZero = false) :
    (ScaledWord.powerFor? (ofFloat x).word.e = none ∨
      ∃ power k, ScaledWord.powerFor? (ofFloat x).word.e = some (power, k) ∧
        ScaledWord.minScaled ≤ ((ofFloat x).word.mul power).e ∧
        ((ofFloat x).word.mul power).e ≤ ScaledWord.maxScaled) ∧
    CheckedDigits.fastDigits? (ofFloat x) = some (ofFloat x).fastDigits? ∧
    ∀ s, CheckedDigits.fastDigits? (ofFloat x) = some (some s) →
      (∀ d ∈ s.digits, d ≤ 9) ∧
      (∃ d ds, s.digits = d :: ds ∧ d ≠ 0) ∧
      (∃ ds d, s.digits = ds ++ [d] ∧ d ≠ 0) := by
  have hsig := sig_ofFloat_pos ((BinaryFloat.isZero_eq_false_iff x).1 h0)
  have hlt := sig_ofFloat_lt x
  have hchecked := CheckedDigits.fastDigits?_eq hsig hlt
  refine ⟨?_, hchecked, fun s hs => ?_⟩
  · cases hpower : ScaledWord.powerFor? (ofFloat x).word.e with
    | none => exact Or.inl rfl
    | some found =>
      obtain ⟨-, hmin, hmax⟩ := ScaledWord.powerFor?_spec hpower
      exact Or.inr ⟨found.1, found.2, rfl, hmin, hmax⟩
  · have hshortest := fastDigits?_isShortestOf hsig hlt (Option.some.inj (hchecked.symm.trans hs))
    exact ⟨fun d hd => Nat.le_of_lt_succ (hshortest.normal.digits_lt d hd), hshortest.normal.head,
      hshortest.last⟩

/-- The digits of the least number of double precision. -/
theorem fast_digits_never_wrap_least :
    let x : BinaryFloat .binary64 := BinaryFloat.leastNonzero
    x.isZero = false ∧ CheckedDigits.fastDigits? (ofFloat x) = some (some ⟨[5], -323⟩) := by
  intro x
  have h0 : x.isZero = false := by decide +kernel
  have hfast : (ofFloat x).fastDigits? = some ⟨[5], -323⟩ := by decide +kernel
  obtain ⟨-, hchecked, -⟩ := fast_digits_never_wrap x h0
  exact ⟨h0, hchecked.trans (congrArg some hfast)⟩

end DigitTarget

end MachineNumbers
