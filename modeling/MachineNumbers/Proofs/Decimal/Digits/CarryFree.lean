import Mathlib
import MachineNumbers.Proofs.Decimal.Digits.Loops
import MachineNumbers.Proofs.Limbs.Checked

/-!
# Exact digits never carry

Wherever the scaling begins, it ends at the one power of ten that has the upper bound between a tenth and
one (`scaledFrom_isScaled`, `point_scaledFrom`).  `Passes` are the fractions that generation then passes
through with the digits taken off so far.  At each of them either the digits are `Pending`, which bounds the
next one, or one digit less was.  Then no multiple of ten of the last place is covered, so that a last digit
that is counted up is no nine (`Taken.last_ne_nine`): nothing is carried, and the exponent stays.
-/

namespace MachineNumbers

namespace ScaledFraction

open DigitString (taken taken_cons)

variable {x : ScaledFraction} {t : DigitTarget} {n R S A B : ℕ} {point : ℤ} {digits : List ℕ}

/-! ## Scaling from any guess -/

/-- The upper bound of what is left of the target has not reached one, but ten times it has. -/
structure IsScaled (x : ScaledFraction) (t : DigitTarget) : Prop where
  tracks : x.Tracks t 0 x.r.toNat x.s.toNat x.minus.toNat x.plus.toNat
  below_one : ¬Within t x.s.toNat (x.r.toNat + x.plus.toNat)
  tenth : Within t x.s.toNat (10 * (x.r.toNat + x.plus.toNat))

theorem Tracks.toNat (h : x.Tracks t n R S A B) :
    x.Tracks t n x.r.toNat x.s.toNat x.minus.toNat x.plus.toNat := by
  rw [h.r.toNat_eq, h.s.toNat_eq, h.minus.toNat_eq, h.plus.toNat_eq]
  exact h

theorem scaledFrom_isScaled (hlt : t.sig < 2 ^ 61) (guess : ℤ) : (scaledFrom t guess).IsScaled t := by
  obtain ⟨R, S, A, B, h, hone, htenth⟩ := scaledFrom_spec hlt guess
  exact ⟨h.toNat, mt h.toNat.below_one_iff.2 hone, h.toNat.below_tenth_iff.1 htenth⟩

theorem point_le {p q : ℤ} (hone : ¬t.Below (10 ^ p)) (htenth : t.Below (10 ^ (q - 1))) : q ≤ p := by
  by_contra hlt
  exact hone (htenth.mono (zpow_le_zpow_right₀ (by norm_num) (by omega)))

/-- The guess does not matter. -/
theorem point_scaledFrom (hlt : t.sig < 2 ^ 61) (guess : ℤ) :
    (scaledFrom t guess).point = (scaled t).point := by
  obtain ⟨-, -, -, -, -, hone, htenth⟩ := scaledFrom_spec hlt guess
  obtain ⟨-, -, -, -, -, hone', htenth'⟩ := scaled_spec hlt
  exact le_antisymm (point_le hone' htenth) (point_le hone htenth')

/-! ## What generation passes through -/

/-- One more digit, and the fraction without it. -/
def takeOne (x : ScaledFraction) : ℕ × ScaledFraction :=
  let split := x.timesTen.r.divModSmall x.timesTen.s
  (split.1, { x.timesTen with r := split.2 })

/-- No digit yet, or none that ends the generation. -/
def GoesOn (t : DigitTarget) (x : ScaledFraction) (digits : List ℕ) : Prop :=
  digits ≠ [] → ending (t.sig % 2 == 0) x = .goesOn

/-- The fractions of a target with the digits taken off them, last digit first, as long as none of those
before has ended it. -/
inductive Passes (t : DigitTarget) : ScaledFraction → List ℕ → Prop
  | start : Passes t (scaled t) []
  | next {x : ScaledFraction} {digits : List ℕ} (h : Passes t x digits) (hnext : GoesOn t x digits) :
    Passes t x.takeOne.2 (x.takeOne.1 :: digits)

theorem Taken.pending_of_goesOn (h : Taken t point x digits R S A B) (htenth : t.Below (10 ^ (point - 1)))
    (hend : ending (t.sig % 2 == 0) x = .goesOn) : Pending t point x digits R S A B := by
  rcases h.tracks.ending_cases with ⟨-, hlow, hhigh⟩ | ⟨hstands, -⟩ | ⟨hup, -⟩
  · exact h.pending htenth hlow hhigh
  · cases hend.symm.trans hstands
  · cases hend.symm.trans hup

/-- Where generation goes on neither the digits so far nor the same counted up are covered. -/
theorem Passes.pending (h0 : 0 < t.sig) (hlt : t.sig < 2 ^ 61) (h : Passes t x digits)
    (hnext : GoesOn t x digits) : ∃ R S A B, Pending t (scaled t).point x digits R S A B := by
  induction h with
  | start =>
    obtain ⟨R, S, A, B, hpending, -⟩ := DigitTarget.pending_scaled h0 hlt
    exact ⟨R, S, A, B, hpending⟩
  | next _ hbefore ih =>
    obtain ⟨-, -, -, -, -, -, htenth⟩ := scaled_spec hlt
    obtain ⟨R, S, A, B, hpending⟩ := ih hbefore
    exact ⟨_, _, _, _, hpending.taken.pending_of_goesOn htenth (hnext (List.cons_ne_nil _ _))⟩

theorem Passes.taken {digit : ℕ} (h0 : 0 < t.sig) (hlt : t.sig < 2 ^ 61)
    (h : Passes t x (digit :: digits)) :
    ∃ R S A B, Taken t (scaled t).point x (digit :: digits) R S A B := by
  cases h with
  | next h hbefore =>
    obtain ⟨R, S, A, B, hpending⟩ := h.pending h0 hlt hbefore
    exact ⟨_, _, _, _, hpending.taken⟩

/-- What is left is less than one, so that ten times it has one digit before the point. -/
theorem Pending.digit_le (h : Pending t point x digits R S A B) :
    CheckedLimbs.divModSmall? x.timesTen.r x.timesTen.s =
        some (x.timesTen.r.divModSmall x.timesTen.s) ∧
      (x.timesTen.r.divModSmall x.timesTen.s).1 ≤ 9 := by
  have hscaled := h.tracks.timesTen
  have hdigit : 10 * R / S < 10 := by
    rw [Nat.div_lt_iff_lt_mul h.tracks.s_pos]
    exact Nat.mul_lt_mul_of_pos_left h.lt (by decide)
  refine ⟨CheckedLimbs.divModSmall?_eq hscaled.r hscaled.s hscaled.s_pos (hdigit.trans (by decide)), ?_⟩
  rw [(hscaled.r.divModSmall hscaled.s hscaled.s_pos).1]
  exact Nat.le_of_lt_succ hdigit

/-! ## The last digit -/

/-- Counted up, a nine would be a zero, and the decimal without it is covered one place before. -/
theorem Taken.last_ne_nine {digit : ℕ} (h : Taken t point x (digit :: digits) R S A B)
    (hend : ending (t.sig % 2 == 0) x = .roundsUp) : digit ≠ 9 := by
  rcases h.tracks.ending_cases with ⟨hgoesOn, -⟩ | ⟨hstands, -⟩ | ⟨-, hbelow, hup⟩
  · cases hend.symm.trans hgoesOn
  · cases hend.symm.trans hstands
  · have hlast := (h.roundsUp hbelow hup).mod_ten_ne_zero
    rw [taken_cons] at hlast
    omega

theorem finish_of_ne_nine {digit : ℕ} (h : digit ≠ 9) (digits : List ℕ) (point : ℤ) :
    finish (digit :: digits) point true = ⟨((digit + 1) :: digits).reverse, point⟩ := by
  simp [finish, countUp, h]

/-- Digits at the end of generation, as they are taken off or with the last one counted up by one, at the
exponent of the scaling. -/
def EndsWith (t : DigitTarget) (result : DigitString) : Prop :=
  ∃ x digit digits, Passes t x (digit :: digits) ∧
    ((ending (t.sig % 2 == 0) x = .stands ∧ result = ⟨(digit :: digits).reverse, (scaled t).point⟩) ∨
      (ending (t.sig % 2 == 0) x = .roundsUp ∧
        result = ⟨((digit + 1) :: digits).reverse, (scaled t).point⟩))

theorem digitsFrom_ends (hlt : t.sig < 2 ^ 61) (steps : ℕ) (hpasses : Passes t x digits)
    (hnext : GoesOn t x digits) (h : Pending t (scaled t).point x digits R S A B)
    (hsteps : S < A * 10 ^ steps) :
    EndsWith t (digitsFrom (t.sig % 2 == 0) (scaled t).point steps x digits) := by
  obtain ⟨-, -, -, -, -, -, htenth⟩ := scaled_spec hlt
  induction steps generalizing x digits R A B with
  | zero =>
    rw [pow_zero, Nat.mul_one] at hsteps
    exact absurd (h.lt.trans hsteps) (not_lt.2 h.minus_le)
  | succ steps ih =>
    have hone := hpasses.next hnext
    have htaken := h.taken
    rw [digitsFrom]
    unfold takeOne at hone
    dsimp only at hone
    generalize x.timesTen.r.divModSmall x.timesTen.s = split at hone htaken ⊢
    obtain ⟨digit, r⟩ := split
    dsimp only at hone htaken ⊢
    cases hend : ending (t.sig % 2 == 0) { x.timesTen with r := r } with
    | goesOn =>
      refine ih hone (fun _ => hend) (htaken.pending_of_goesOn htenth hend) ?_
      calc S < A * 10 ^ (steps + 1) := hsteps
        _ = 10 * A * 10 ^ steps := by ring
    | stands => exact ⟨_, digit, digits, hone, .inl ⟨hend, rfl⟩⟩
    | roundsUp =>
      exact ⟨_, digit, digits, hone, .inr ⟨hend, finish_of_ne_nine (htaken.last_ne_nine hend) _ _⟩⟩

end ScaledFraction

namespace DigitTarget

open ScaledFraction

variable {t : DigitTarget}

/-- What generation of the exact digits keeps to. -/
structure GeneratesSoundly (t : DigitTarget) : Prop where
  /-- From any guess both corrections end, at the same power of ten. -/
  scaling : ∀ guess : ℤ, scalingRun t guess = Part.some (scaledFrom t guess) ∧
    (scaledFrom t guess).IsScaled t ∧ (scaledFrom t guess).point = (scaled t).point
  started : (scaled t).IsScaled t
  /-- Each division gives one digit. -/
  digit_le : ∀ x digits, Passes t x digits → GoesOn t x digits →
    CheckedLimbs.divModSmall? x.timesTen.r x.timesTen.s =
        some (x.timesTen.r.divModSmall x.timesTen.s) ∧
      (x.timesTen.r.divModSmall x.timesTen.s).1 ≤ 9
  /-- A last digit that is counted up is no nine, let alone all of them. -/
  no_carry : ∀ x digit digits, Passes t x (digit :: digits) →
    ending (t.sig % 2 == 0) x = .roundsUp → digit ≠ 9 ∧ (digit :: digits).all (· == 9) = false
  /-- The exponent is that of the scaling. -/
  ends : EndsWith t t.exactDigits
  head_ne_zero : ∃ d ds, t.exactDigits.digits = d :: ds ∧ d ≠ 0
  last_ne_zero : ∃ ds d, t.exactDigits.digits = ds ++ [d] ∧ d ≠ 0
  nothing_stripped : t.exactDigits.normalised = t.exactDigits

/-- The exact digits of a float are generated without a carry or a zero at either end, at the exponent that
scaling has found from any guess. -/
theorem exact_digits_never_carry {fmt : FloatFormat} (x : BinaryFloat fmt) (h0 : x.isZero = false) :
    (ofFloat x).GeneratesSoundly := by
  have hsig := sig_ofFloat_pos ((BinaryFloat.isZero_eq_false_iff x).1 h0)
  have hlt := sig_ofFloat_lt x
  have hshortest := exactDigits_isShortestOf hsig hlt
  constructor
  case scaling =>
    exact fun guess => ⟨scalingRun_eq hlt guess, scaledFrom_isScaled hlt guess, point_scaledFrom hlt guess⟩
  case started => exact scaledFrom_isScaled hlt (estimate _)
  case digit_le =>
    intro y digits hpasses hnext
    obtain ⟨R, S, A, B, hpending⟩ := hpasses.pending hsig hlt hnext
    exact hpending.digit_le
  case no_carry =>
    intro y digit digits hpasses hend
    obtain ⟨R, S, A, B, htaken⟩ := hpasses.taken hsig hlt
    have hnine := htaken.last_ne_nine hend
    refine ⟨hnine, ?_⟩
    rw [List.all_cons, beq_eq_false_iff_ne.2 hnine, Bool.false_and]
  case ends =>
    obtain ⟨R, S, A, B, hpending, -, -, hsteps⟩ := pending_scaled hsig hlt
    exact digitsFrom_ends hlt _ .start (fun h => absurd rfl h) hpending hsteps
  case head_ne_zero => exact hshortest.normal.head
  case last_ne_zero => exact hshortest.last
  case nothing_stripped => exact hshortest.normalised

/-- The float nearest to `10^23` is below it, with a first digit of zero that is counted up; the guess is
six places too high. -/
theorem exact_digits_never_carry_ten_pow :
    let t := ofFloat (BinaryFloat.ofBits 0x44B52D02C7E14AF6 : BinaryFloat .binary64)
    t.exactDigits = ⟨[1], 24⟩ ∧ (scaledFrom t 30).point = 24 ∧ t.exactDigits.normalised = t.exactDigits := by
  intro t
  have h : t.GeneratesSoundly := exact_digits_never_carry _ (by decide +kernel)
  have hpoint : (scaled t).point = 24 := by decide +kernel
  exact ⟨by decide +kernel, (h.scaling 30).2.2.trans hpoint, h.nothing_stripped⟩

end DigitTarget

end MachineNumbers
