import Mathlib
import MachineNumbers.Proofs.Decimal.Digits.Width

/-!
# The loops of digit generation end

Digit generation bounds its loops by numbers of rounds.  Here the same loops run without a bound: a loop is
the fixed point `PFun.fix` of one round, which gives a result or the state to go on from, and the fixed
point has a value only if some round gives a result.  Each loop has one, and it is what the bounded loop
gives.  On limbs the interval grows tenfold against the denominator with every round (`exactRun_eq`); on
single words it outgrows the fraction, and no round lowers a last digit that is zero (`fastRun_eq`).  The
digits that come of it are bounded by the precision (`digit_generation_bounded`).
-/

namespace MachineNumbers

/-! ## Rounds -/

section Rounds

variable {σ ρ : Type} {step : σ →. ρ ⊕ σ} {s s' : σ} {r : ρ}

theorem fix_of_result (h : step s = Part.some (.inl r)) : step.fix s = Part.some r :=
  Part.eq_some_iff.2 (PFun.fix_stop (h ▸ Part.mem_some _))

theorem fix_of_next (h : step s = Part.some (.inr s')) : step.fix s = step.fix s' :=
  PFun.fix_fwd_eq (h ▸ Part.mem_some _)

end Rounds

/-! ## Division -/

namespace Limbs

/-- Takes `d` off a remainder, while it fits, and counts. -/
def divisionRound (d : Limbs) : ℕ × Limbs →. (ℕ × Limbs) ⊕ (ℕ × Limbs) := fun (count, r) =>
  Part.some (if d.le r then .inr (count + 1, r.sub d) else .inl (count, r))

theorem Represents.fix_divisionRound {d : Limbs} {D : ℕ} (hd : d.Represents D) (hD : 0 < D) {times : ℕ}
    {r : Limbs} {R : ℕ} (hr : r.Represents R) (hq : R / D ≤ times) (count : ℕ) :
    (divisionRound d).fix (count, r) = Part.some (d.takeOff times count r) := by
  induction times generalizing count r R with
  | zero =>
    have hlt := (Nat.div_eq_zero_iff_lt hD).1 (Nat.le_zero.1 hq)
    refine fix_of_result ?_
    simp [divisionRound, Limbs.takeOff, hd.le hr, Nat.not_le.2 hlt]
  | succ times ih =>
    rw [Limbs.takeOff]
    by_cases hle : D ≤ R
    · have hfits : d.le r = true := by rw [hd.le hr, decide_eq_true hle]
      have hquot : R / D = (R - D) / D + 1 := Nat.div_eq_sub_div hD hle
      rw [if_pos hfits, ← ih (hr.sub hd hle) (by omega)]
      refine fix_of_next ?_
      simp [divisionRound, hfits]
    · have hfits : d.le r = false := by rw [hd.le hr, decide_eq_false hle]
      rw [hfits, if_neg (by simp)]
      refine fix_of_result ?_
      simp [divisionRound, hfits]

end Limbs

/-! ## Digits on limbs -/

namespace ScaledFraction

/-- A tenth of the fraction, if the upper bound has reached one. -/
def lowerRound (inclusive : Bool) : ScaledFraction →. ScaledFraction ⊕ ScaledFraction := fun x =>
  Part.some (if reaches inclusive (x.r.add x.plus) x.s then
    .inr { x with s := x.s.mul10, point := x.point + 1 } else .inl x)

def raiseRound (inclusive : Bool) : ScaledFraction →. ScaledFraction ⊕ ScaledFraction := fun x =>
  Part.some (if reaches inclusive (x.r.add x.plus).mul10 x.s then .inl x else .inr x.timesTen)

/-- Takes one digit off, by a division without a bound, and looks whether it is the last one. -/
def digitRound (inclusive : Bool) (point : ℤ) :
    ScaledFraction × List ℕ →. DigitString ⊕ (ScaledFraction × List ℕ) := fun (x, digits) =>
  ((Limbs.divisionRound x.timesTen.s).fix (0, x.timesTen.r)).map fun (digit, r) =>
    let x := { x.timesTen with r := r }
    let digits := digit :: digits
    match ending inclusive x with
    | .goesOn => .inr (x, digits)
    | .stands => .inl (finish digits point false)
    | .roundsUp => .inl (finish digits point true)

def scalingRun (t : DigitTarget) (guess : ℤ) : Part ScaledFraction := do
  let x ← (lowerRound (t.sig % 2 == 0)).fix ((ofTarget t).scaleBy guess)
  (raiseRound (t.sig % 2 == 0)).fix x

def exactRun (t : DigitTarget) : Part DigitString := do
  let inclusive := t.sig % 2 == 0
  let x ← (lowerRound inclusive).fix ((ofTarget t).scaleBy (estimate t))
  let x ← (raiseRound inclusive).fix x
  (digitRound inclusive x.point).fix (x, [])

variable {x : ScaledFraction} {t : DigitTarget} {n R S A B : ℕ} {point : ℤ} {digits : List ℕ}

theorem fix_lowerRound (steps : ℕ) (h : x.Tracks t 0 R S A B) (hsteps : R + B < S * 10 ^ steps) :
    (lowerRound (t.sig % 2 == 0)).fix x = Part.some (lowerToOne (t.sig % 2 == 0) steps x) := by
  induction steps generalizing x S with
  | zero =>
    have hreach := reaches_iff (t := t) (h.r.add h.plus) h.s
    refine fix_of_result ?_
    have hone : reaches (t.sig % 2 == 0) (x.r.add x.plus) x.s = false := by
      rw [Bool.eq_false_iff, ne_eq, hreach]
      intro hwithin
      have := hwithin.le
      omega
    simp [lowerRound, lowerToOne, hone]
  | succ steps ih =>
    rw [lowerToOne]
    cases hone : reaches (t.sig % 2 == 0) (x.r.add x.plus) x.s with
    | false =>
      refine fix_of_result ?_
      simp [lowerRound, hone]
    | true =>
      have hnext : lowerRound (t.sig % 2 == 0) x =
          Part.some (.inr { x with s := x.s.mul10, point := x.point + 1 }) := by
        simp [lowerRound, hone]
      rw [if_pos rfl, fix_of_next hnext]
      refine ih h.overTen ?_
      calc R + B < S * 10 ^ (steps + 1) := hsteps
        _ = 10 * S * 10 ^ steps := by ring

theorem fix_raiseRound (steps : ℕ) (h : x.Tracks t 0 R S A B) (hsteps : S < (R + B) * 10 ^ (steps + 1)) :
    (raiseRound (t.sig % 2 == 0)).fix x = Part.some (raiseToTenth (t.sig % 2 == 0) steps x) := by
  induction steps generalizing x R A B with
  | zero =>
    have hreach := reaches_iff (t := t) (h.r.add h.plus).mul10 h.s
    refine fix_of_result ?_
    have htenth : reaches (t.sig % 2 == 0) (x.r.add x.plus).mul10 x.s = true := by
      rw [hreach]
      refine within_of_lt ?_
      rwa [zero_add, pow_one, Nat.mul_comm] at hsteps
    simp [raiseRound, raiseToTenth, htenth]
  | succ steps ih =>
    rw [raiseToTenth]
    cases htenth : reaches (t.sig % 2 == 0) (x.r.add x.plus).mul10 x.s with
    | true =>
      refine fix_of_result ?_
      simp [raiseRound, htenth]
    | false =>
      have hnext : raiseRound (t.sig % 2 == 0) x = Part.some (.inr x.timesTen) := by
        simp [raiseRound, htenth]
      rw [if_neg (by simp), fix_of_next hnext]
      refine ih h.timesTen ?_
      calc S < (R + B) * 10 ^ (steps + 1 + 1) := hsteps
        _ = (10 * R + 10 * B) * 10 ^ (steps + 1) := by ring

/-- Both corrections of the scaling end, wherever they begin. -/
theorem fix_scaling (hlt : t.sig < 2 ^ 61) (guess : ℤ) : ∃ y : ScaledFraction,
    (lowerRound (t.sig % 2 == 0)).fix ((ofTarget t).scaleBy guess) = Part.some y ∧
      (raiseRound (t.sig % 2 == 0)).fix y = Part.some (scaledFrom t guess) := by
  obtain ⟨R, S, A, B, h⟩ := ofTarget_tracks hlt
  obtain ⟨R, S, A, B, h⟩ := h.scaleBy guess
  have hlower := fix_lowerRound _ h h.sum_lt
  obtain ⟨S, h, -⟩ := lowerToOne_spec _ h h.sum_lt
  exact ⟨_, hlower, fix_raiseRound _ h (h.s_lt h.sum_pos)⟩

theorem scalingRun_eq (hlt : t.sig < 2 ^ 61) (guess : ℤ) :
    scalingRun t guess = Part.some (scaledFrom t guess) := by
  obtain ⟨y, hlower, hraise⟩ := fix_scaling hlt guess
  unfold scalingRun
  simp only [Part.bind_eq_bind, hlower, Part.bind_some, hraise]

theorem Tracks.fix_divisionRound (h : x.Tracks t n R S A B) :
    (Limbs.divisionRound x.s).fix (0, x.r) = Part.some (x.r.divModSmall x.s) :=
  h.s.fix_divisionRound h.s_pos h.r (h.r.div_le h.s h.s_pos) 0

theorem fix_digitRound (htenth : t.Below (10 ^ (point - 1))) (steps : ℕ)
    (h : Pending t point x digits R S A B) (hsteps : S < A * 10 ^ steps) :
    (digitRound (t.sig % 2 == 0) point).fix (x, digits) =
      Part.some (digitsFrom (t.sig % 2 == 0) point steps x digits) := by
  induction steps generalizing x digits R A B with
  | zero =>
    rw [pow_zero, Nat.mul_one] at hsteps
    exact absurd (h.lt.trans hsteps) (not_lt.2 h.minus_le)
  | succ steps ih =>
    have htaken := h.taken
    have hdivision := h.tracks.timesTen.fix_divisionRound
    rw [digitsFrom]
    generalize x.timesTen.r.divModSmall x.timesTen.s = split at htaken hdivision ⊢
    obtain ⟨digit, r⟩ := split
    rcases htaken.tracks.ending_cases with ⟨hend, hlow, hhigh⟩ | ⟨hend, -, -⟩ | ⟨hend, -, -⟩
    · have hnext : digitRound (t.sig % 2 == 0) point (x, digits) =
          Part.some (.inr ({ x.timesTen with r := r }, digit :: digits)) := by
        simp [digitRound, hdivision, hend]
      rw [fix_of_next hnext]
      simp only [hend]
      refine ih (htaken.pending htenth hlow hhigh) ?_
      calc S < A * 10 ^ (steps + 1) := hsteps
        _ = 10 * A * 10 ^ steps := by ring
    · refine fix_of_result ?_
      simp [digitRound, hdivision, hend]
    · refine fix_of_result ?_
      simp [digitRound, hdivision, hend]

/-- On limbs every loop ends, and the bounds do not cut it short. -/
theorem exactRun_eq (h0 : 0 < t.sig) (hlt : t.sig < 2 ^ 61) : exactRun t = Part.some t.exactDigits := by
  obtain ⟨y, hlower, hraise⟩ := fix_scaling hlt (estimate t)
  obtain ⟨R, S, A, B, hpending, -, htenth, hsteps⟩ := DigitTarget.pending_scaled h0 hlt
  have hdigits := fix_digitRound htenth _ hpending hsteps
  unfold exactRun
  simp only [Part.bind_eq_bind, hlower, Part.bind_some, hraise]
  exact hdigits

end ScaledFraction

/-! ## Digits on single words -/

namespace FastDigits

/-- Lowers the last digit, if that brings it toward the goal. -/
def Stop.lowerRound (s : Stop) (goal : ℕ) : ℕ × ℕ →. (ℕ × ℕ) ⊕ (ℕ × ℕ) := fun (last, rest) =>
  Part.some (if s.lowers rest goal then .inr (last - 1, rest + s.weight) else .inl (last, rest))

/-- The digits with the last one settled, with no bound on how far it is lowered. -/
def Stop.settleRun (s : Stop) : List ℕ → Part (Option (List ℕ))
  | [] => Part.some none
  | last :: digits =>
    ((s.lowerRound (s.distance - s.unit)).fix (last, s.rest)).map fun (last, rest) =>
      if s.lowersNearer rest (s.distance + s.unit) then none
      else if 4 * s.unit ≤ s.interval && 2 * s.unit ≤ rest && rest ≤ s.interval - 4 * s.unit then
        some (last :: digits)
      else none

/-- Where the digits after the point have arrived. -/
structure FractionState where
  fraction : ℕ
  interval : ℕ
  unit : ℕ
  exponent : ℤ
  digits : List ℕ

/-- One more digit after the point. -/
def fractionRound (shift distance : ℕ) :
    FractionState →. Option (List ℕ × ℤ) ⊕ FractionState := fun x =>
  let fraction := x.fraction * 10
  let unit := x.unit * 10
  let interval := x.interval * 10
  let digits := fraction >>> shift :: x.digits
  let rest := fraction % 2 ^ shift
  let exponent := x.exponent - 1
  if rest < interval then
    (Stop.settleRun ⟨distance * unit, interval, rest, 2 ^ shift, unit⟩ digits).map fun found =>
      .inl (found.map (·, exponent))
  else Part.some (.inr ⟨rest, interval, unit, exponent, digits⟩)

def integralRound (shift distance interval fraction : ℕ) :
    ℕ × ℕ × List ℕ →. Option (List ℕ × ℤ) ⊕ (ℕ × ℕ × List ℕ)
  | (0, _, digits) => ((fractionRound shift distance).fix ⟨fraction, interval, 1, 0, digits⟩).map .inl
  | (count + 1, integral, digits) =>
    let divisor := 10 ^ count
    let digits := integral / divisor :: digits
    let integral := integral % divisor
    let rest := integral <<< shift + fraction
    if rest < interval then
      (Stop.settleRun ⟨distance, interval, rest, divisor <<< shift, 1⟩ digits).map fun found =>
        .inl (found.map (·, (count : ℤ)))
    else Part.some (.inr (count, integral, digits))

def generateRun (low target high : ScaledWord) : Part (Option (List ℕ × ℤ)) :=
  let upper := high.f + 1
  if low.f = 0 ∨ 2 ^ 64 ≤ upper then Part.some none
  else
    let interval := upper - (low.f - 1)
    let shift := target.e.natAbs
    let integral := upper >>> shift
    let count := if integral = 0 then 0 else (Positional.digits 10 integral).length
    (integralRound shift (upper - target.f) interval (upper % 2 ^ shift)).fix (count, integral, [])

/-- A last digit of zero is not lowered: one more would take more than the interval off. -/
theorem Stop.fix_lowerRound (s : Stop) (goal : ℕ) {last rest : ℕ} (hweight : 0 < s.weight)
    (hinterval : s.interval ≤ last * s.weight + rest) :
    (s.lowerRound goal).fix (last, rest) = Part.some (s.lowerLast goal last rest) := by
  induction last generalizing rest with
  | zero =>
    refine fix_of_result ?_
    have hlowers : s.lowers rest goal = false := by
      rw [Nat.zero_mul, Nat.zero_add] at hinterval
      simp only [lowers, Bool.and_eq_false_iff, decide_eq_false_iff_not]
      omega
    simp [lowerRound, lowerLast, hlowers]
  | succ last ih =>
    rw [lowerLast]
    cases hlowers : s.lowers rest goal with
    | false =>
      refine fix_of_result ?_
      simp [lowerRound, hlowers]
    | true =>
      have hnext : s.lowerRound goal (last + 1, rest) = Part.some (.inr (last, rest + s.weight)) := by
        simp [lowerRound, hlowers]
      rw [if_pos rfl, fix_of_next hnext]
      refine ih ?_
      rw [Nat.succ_mul] at hinterval
      omega

theorem Stop.settleRun_eq (s : Stop) {last : ℕ} (digits : List ℕ) (hweight : 0 < s.weight)
    (hinterval : s.interval ≤ last * s.weight + s.rest) :
    s.settleRun (last :: digits) = Part.some (s.settle (last :: digits)) := by
  rw [settleRun, s.fix_lowerRound _ hweight hinterval, Part.map_some]
  rfl

theorem fix_fractionRound {shift distance : ℕ} (more : ℕ) {fraction interval unit : ℕ} {exponent : ℤ}
    {digits : List ℕ} (hle : interval ≤ fraction) (hlt : fraction < 2 ^ shift)
    (hmore : 2 ^ shift ≤ interval * 10 ^ more) :
    (fractionRound shift distance).fix ⟨fraction, interval, unit, exponent, digits⟩ =
      Part.some (fractionDigits shift distance more fraction interval unit exponent digits) := by
  induction more generalizing fraction interval unit exponent digits with
  | zero =>
    rw [pow_zero, Nat.mul_one] at hmore
    omega
  | succ more ih =>
    have hsplit := shiftRight_mul_add_mod (fraction * 10) shift
    rw [fractionDigits]
    simp only [Nat.pow_eq]
    split
    · next hrest =>
      refine fix_of_result ?_
      have hinterval : interval * 10 ≤ (fraction * 10) >>> shift * 2 ^ shift + fraction * 10 % 2 ^ shift := by
        omega
      have hsettle := Stop.settleRun_eq
        ⟨distance * (unit * 10), interval * 10, fraction * 10 % 2 ^ shift, 2 ^ shift, unit * 10⟩ digits
        (Nat.two_pow_pos shift) hinterval
      simp only [fractionRound, hrest, if_true, hsettle, Part.map_some]
    · next hrest =>
      have hnext : fractionRound shift distance ⟨fraction, interval, unit, exponent, digits⟩ =
          Part.some (.inr ⟨fraction * 10 % 2 ^ shift, interval * 10, unit * 10, exponent - 1,
            (fraction * 10) >>> shift :: digits⟩) := by
        simp only [fractionRound, hrest, if_false]
      rw [fix_of_next hnext]
      refine ih (Nat.le_of_not_lt hrest) (Nat.mod_lt _ (Nat.two_pow_pos shift)) ?_
      calc 2 ^ shift ≤ interval * 10 ^ (more + 1) := hmore
        _ = interval * 10 * 10 ^ more := by ring

theorem fix_integralRound {shift distance interval fraction : ℕ} (hpos : 0 < interval)
    (hfraction : fraction < 2 ^ shift) (count : ℕ) {integral : ℕ} {digits : List ℕ}
    (hlt : integral < 10 ^ count) (hle : interval ≤ integral * 2 ^ shift + fraction) :
    (integralRound shift distance interval fraction).fix (count, integral, digits) =
      Part.some (integralDigits shift distance interval fraction count integral digits) := by
  induction count generalizing integral digits with
  | zero =>
    obtain rfl : integral = 0 := by
      rw [pow_zero] at hlt
      omega
    rw [Nat.zero_mul, Nat.zero_add] at hle
    have hfixed := @fix_fractionRound shift distance shift _ _ 1 0 digits hle hfraction
      (two_pow_le_mul_ten_pow hpos shift)
    refine fix_of_result ?_
    simp only [integralRound, integralDigits, hfixed, Part.map_some]
  | succ count ih =>
    have hdivisor : 0 < 10 ^ count := by positivity
    have hsplit := split_digit integral fraction count shift
    rw [integralDigits]
    simp only [Nat.pow_eq]
    split
    · next hrest =>
      refine fix_of_result ?_
      have hweight : 0 < 10 ^ count <<< shift := by
        rw [Nat.shiftLeft_eq]
        exact Nat.mul_pos hdivisor (Nat.two_pow_pos shift)
      have hinterval : interval ≤ integral / 10 ^ count * 10 ^ count <<< shift +
          ((integral % 10 ^ count) <<< shift + fraction) := by
        rw [Nat.shiftLeft_eq, Nat.shiftLeft_eq]
        omega
      have hsettle := Stop.settleRun_eq
        ⟨distance, interval, (integral % 10 ^ count) <<< shift + fraction, 10 ^ count <<< shift, 1⟩ digits
        hweight hinterval
      simp only [integralRound, hrest, if_true, hsettle, Part.map_some]
    · next hrest =>
      have hnext : integralRound shift distance interval fraction (count + 1, integral, digits) =
          Part.some (.inr (count, integral % 10 ^ count, integral / 10 ^ count :: digits)) := by
        simp only [integralRound, hrest, if_false]
      rw [fix_of_next hnext]
      rw [Nat.shiftLeft_eq] at hrest
      exact ih (Nat.mod_lt _ hdivisor) (Nat.le_of_not_lt hrest)

theorem generateRun_eq {low target high : ScaledWord} (h : low.f ≤ high.f + 1) :
    generateRun low target high = Part.some (generate low target high) := by
  unfold generateRun generate
  simp only [Nat.pow_eq]
  split
  · rfl
  · next hwords =>
    have hsplit := shiftRight_mul_add_mod (high.f + 1) target.e.natAbs
    refine fix_integralRound (by omega) (Nat.mod_lt _ (Nat.two_pow_pos _)) _ ?_ (by omega)
    split
    · next hzero =>
      rw [hzero]
      decide
    · next hpos => exact (Positional.pow_length_digits (by decide : 1 < 10) hpos).2

end FastDigits

namespace DigitTarget

open ScaledWord

variable {t : DigitTarget}

def fastRun (t : DigitTarget) : Part (Option DigitString) :=
  match powerFor? t.word.e with
  | none => Part.some none
  | some (power, k) =>
    (FastDigits.generateRun (t.lowerBound.mul power) (t.word.mul power) (t.upperBound.mul power)).map
      fun found => found.map fun (digits, exponent) => ⟨digits.reverse, digits.length - k + exponent⟩

/-- The words of the bounds are in order, but for their errors. -/
theorem lowerBound_mul_le (h0 : 0 < t.sig) (hlt : t.sig < 2 ^ 61) {power : ScaledWord} {k : ℤ}
    (hpower : power.IsPower k) : (t.lowerBound.mul power).f ≤ (t.upperBound.mul power).f + 1 := by
  rcases Nat.eq_zero_or_pos (t.lowerBound.mul power).f with hzero | hpos
  · omega
  · obtain ⟨a, hlow, -, hhigh, -⟩ := exists_approximation h0 hlt hpower hpos
    rw [hlow, hhigh]
    exact a.low_le_upper

/-- On single words every loop ends, and the bounds do not cut it short. -/
theorem fastRun_eq (h0 : 0 < t.sig) (hlt : t.sig < 2 ^ 61) : fastRun t = Part.some t.fastDigits? := by
  have hword : ScaledWord.normalised ⟨t.sig, t.exp⟩ = t.word := rfl
  unfold fastRun fastDigits?
  simp only [hword]
  cases hpower : powerFor? t.word.e with
  | none => rfl
  | some found =>
    obtain ⟨power, k⟩ := found
    obtain ⟨hnearest, -⟩ := powerFor?_spec hpower
    simp only [FastDigits.generateRun_eq (lowerBound_mul_le h0 hlt hnearest), Part.map_some]
    cases FastDigits.generate (t.lowerBound.mul power) (t.word.mul power)
      (t.upperBound.mul power) <;> rfl

/-! ## All of it -/

/-- All loops of digit generation end, on limbs and on single words, and a nonzero float gets one digit or at
most one more than the digits of `2^precision`, so at most 17 in any format. -/
theorem digit_generation_bounded {fmt : FloatFormat} (x : BinaryFloat fmt) (h0 : x.isZero = false) :
    ScaledFraction.exactRun (ofFloat x) = Part.some (ofFloat x).exactDigits ∧
    fastRun (ofFloat x) = Part.some (ofFloat x).fastDigits? ∧
    ((ofFloat x).shortest.digits.length = 1 ∨
      10 ^ ((ofFloat x).shortest.digits.length - 2) < 2 ^ fmt.precision) ∧
    (ofFloat x).shortest.digits.length ≤ 17 := by
  have hsig := sig_ofFloat_pos ((BinaryFloat.isZero_eq_false_iff x).1 h0)
  have hlt := sig_ofFloat_lt x
  have hpos := (shortest_isShortestOf hsig hlt).normal.length_pos
  refine ⟨ScaledFraction.exactRun_eq hsig hlt, fastRun_eq hsig hlt, ?_, length_shortest_le h0⟩
  rcases Nat.lt_or_ge 1 (ofFloat x).shortest.digits.length with hmany | hone
  · exact Or.inr (length_shortest_lt h0 hmany)
  · exact Or.inl (by omega)

/-- The greatest number of double precision has all 17 digits. -/
theorem digit_generation_bounded_greatest :
    let x : BinaryFloat .binary64 := BinaryFloat.greatestFinite
    x.isZero = false ∧ (ofFloat x).shortest.digits.length = 17 ∧
      10 ^ 15 < 2 ^ FloatFormat.binary64.precision := by
  intro x
  have h0 : x.isZero = false := by decide +kernel
  have hlength : (ofFloat x).shortest.digits.length = 17 := by decide +kernel
  obtain ⟨-, -, hcount, -⟩ := digit_generation_bounded x h0
  rw [hlength] at hcount
  exact ⟨h0, hlength, hcount.resolve_left (by decide)⟩

end DigitTarget

end MachineNumbers
