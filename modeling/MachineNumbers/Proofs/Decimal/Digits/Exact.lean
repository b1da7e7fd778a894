import Mathlib
import MachineNumbers.Decimal.Digits.Exact
import MachineNumbers.Proofs.Decimal.Digits.Target
import MachineNumbers.Proofs.Limbs

/-!
# The exact digits are the shortest

`ScaledFraction.Tracks` says what a fraction has to do with the target once some digits are taken off.
Scaling ends with the upper bound between a tenth and one (`scaled_spec`).  Before each digit neither
the digits so far nor the same counted up are covered (`Pending`), which taking a digit off keeps up
until one of them is (`Pending.taken`, `Taken.pending`), and then that one is the shortest decimal
(`Taken.stands`, `Taken.roundsUp`).  So `exactDigits` gives it (`exactDigits_isShortestOf`).
-/

namespace MachineNumbers

namespace ScaledFraction

open DigitString (taken taken_cons isShortestOf_reverse)

variable {x : ScaledFraction} {t : DigitTarget} {n R S A B : ℕ}

/-- What is left of the target after taking `n` off it, in units of `10^x.point`. -/
structure Tracks (x : ScaledFraction) (t : DigitTarget) (n R S A B : ℕ) : Prop where
  r : x.r.Represents R
  s : x.s.Represents S
  minus : x.minus.Represents A
  plus : x.plus.Represents B
  s_pos : 0 < S
  value : t.value = (n + R / S) * 10 ^ x.point
  low : t.low = (n + (R - A) / S) * 10 ^ x.point
  high : t.high = (n + (R + B) / S) * 10 ^ x.point

/-! ## Comparisons -/

/-- `a` is at most `b`, or less if the bounds do not belong to the target. -/
def Within (t : DigitTarget) (a b : ℕ) : Prop := if t.sig % 2 = 0 then a ≤ b else a < b

instance (t : DigitTarget) (a b : ℕ) : Decidable (Within t a b) :=
  inferInstanceAs (Decidable (if t.sig % 2 = 0 then a ≤ b else a < b))

theorem Within.le {a b : ℕ} (h : Within t a b) : a ≤ b := by
  unfold Within at h
  split at h
  · exact h
  · exact h.le

theorem within_of_lt {a b : ℕ} (h : a < b) : Within t a b := by
  unfold Within
  split
  · exact h.le
  · exact h

theorem Tracks.above_iff (h : x.Tracks t n R S A B) :
    t.Above (n * 10 ^ x.point) ↔ Within t R A := by
  have hpow : (0 : ℚ) < 10 ^ x.point := by positivity
  have hS : (0 : ℚ) < S := by exact_mod_cast h.s_pos
  unfold DigitTarget.Above Within
  rw [h.low]
  split
  · rw [mul_le_mul_iff_of_pos_right hpow, add_le_iff_nonpos_right, div_le_iff₀ hS, zero_mul,
      sub_nonpos, Nat.cast_le]
  · rw [mul_lt_mul_iff_of_pos_right hpow, add_lt_iff_neg_left, div_lt_iff₀ hS, zero_mul, sub_neg,
      Nat.cast_lt]

theorem Tracks.below_iff (h : x.Tracks t n R S A B) :
    t.Below ((n + 1) * 10 ^ x.point) ↔ Within t S (R + B) := by
  have hpow : (0 : ℚ) < 10 ^ x.point := by positivity
  have hS : (0 : ℚ) < S := by exact_mod_cast h.s_pos
  unfold DigitTarget.Below Within
  rw [h.high]
  split
  · rw [mul_le_mul_iff_of_pos_right hpow, add_le_add_iff_left, le_div_iff₀ hS, one_mul]
    norm_cast
  · rw [mul_lt_mul_iff_of_pos_right hpow, add_lt_add_iff_left, lt_div_iff₀ hS, one_mul]
    norm_cast

theorem reaches_iff {sum s : Limbs} {a b : ℕ} (ha : sum.Represents a) (hb : s.Represents b) :
    reaches (t.sig % 2 == 0) sum s = true ↔ Within t b a := by
  unfold reaches Within
  by_cases heven : t.sig % 2 = 0
  · simp [heven, hb.le ha]
  · simp [heven, hb.lt ha]

/-! ## Scaling -/

theorem Tracks.timesTen (h : x.Tracks t n R S A B) :
    x.timesTen.Tracks t (10 * n) (10 * R) S (10 * A) (10 * B) := by
  have hpoint : (10 : ℚ) ^ x.point = 10 * 10 ^ x.timesTen.point := by
    rw [← zpow_one_add₀ (by norm_num)]
    congr 1
    show x.point = 1 + (x.point - 1)
    omega
  refine ⟨h.r.mul10, h.s, h.minus.mul10, h.plus.mul10, h.s_pos, ?_, ?_, ?_⟩
  · rw [h.value, hpoint]
    push_cast
    ring
  · rw [h.low, hpoint]
    push_cast
    ring
  · rw [h.high, hpoint]
    push_cast
    ring

theorem Tracks.overTen (h : x.Tracks t 0 R S A B) :
    Tracks { x with s := x.s.mul10, point := x.point + 1 } t 0 R (10 * S) A B := by
  have hS : (S : ℚ) ≠ 0 := by exact_mod_cast h.s_pos.ne'
  have hscale : ∀ a : ℚ, ((0 : ℕ) + a / (10 * S : ℕ)) * 10 ^ (x.point + 1) =
      ((0 : ℕ) + a / S) * 10 ^ x.point := by
    intro a
    rw [Nat.cast_zero, zero_add, zero_add, zpow_add₀ (by norm_num), zpow_one]
    push_cast
    field_simp
  exact ⟨h.r, h.s.mul10, h.minus, h.plus, Nat.mul_pos (by decide) h.s_pos,
    h.value.trans (hscale _).symm, h.low.trans (hscale _).symm, h.high.trans (hscale _).symm⟩

theorem Tracks.below_one_iff (h : x.Tracks t 0 R S A B) :
    t.Below (10 ^ x.point) ↔ Within t S (R + B) := by
  simpa using h.below_iff

theorem Tracks.below_tenth_iff (h : x.Tracks t 0 R S A B) :
    t.Below (10 ^ (x.point - 1)) ↔ Within t S (10 * (R + B)) := by
  rw [Nat.mul_add]
  exact h.timesTen.below_one_iff

/-- Ten outgrows two, so the length of the upper bound is that of a power of ten beyond it. -/
theorem Tracks.sum_lt (h : x.Tracks t n R S A B) : R + B < S * 10 ^ (x.r.add x.plus).bitLength := by
  calc R + B < 2 ^ (R + B).size := Nat.lt_size_self _
    _ ≤ 10 ^ (x.r.add x.plus).bitLength := by
      rw [(h.r.add h.plus).bitLength]
      exact Nat.pow_le_pow_left (by decide) _
    _ ≤ S * 10 ^ (x.r.add x.plus).bitLength := Nat.le_mul_of_pos_left _ h.s_pos

theorem Tracks.s_lt (h : x.Tracks t n R S A B) {k : ℕ} (hk : 0 < k) :
    S < k * 10 ^ (x.s.bitLength + 1) := by
  calc S < 2 ^ S.size := Nat.lt_size_self _
    _ ≤ 10 ^ (x.s.bitLength + 1) := by
      rw [h.s.bitLength]
      exact (Nat.pow_le_pow_left (by decide) _).trans (Nat.pow_le_pow_right (by decide) (by omega))
    _ ≤ k * 10 ^ (x.s.bitLength + 1) := Nat.le_mul_of_pos_left _ hk

theorem Tracks.sum_pos (h : x.Tracks t 0 R S A B) : 0 < R + B := by
  refine Nat.pos_of_ne_zero fun h0 => t.high_pos.ne' ?_
  have hsum0 : (R : ℚ) + B = 0 := by exact_mod_cast h0
  rw [h.high, hsum0, zero_div, Nat.cast_zero, zero_add, zero_mul]

theorem lowerToOne_spec (steps : ℕ) (h : x.Tracks t 0 R S A B) (hsteps : R + B < S * 10 ^ steps) :
    ∃ S', (lowerToOne (t.sig % 2 == 0) steps x).Tracks t 0 R S' A B ∧
      ¬t.Below (10 ^ (lowerToOne (t.sig % 2 == 0) steps x).point) := by
  induction steps generalizing x S with
  | zero =>
    refine ⟨S, h, ?_⟩
    intro hbelow
    have := (h.below_one_iff.1 hbelow).le
    rw [pow_zero, Nat.mul_one] at hsteps
    omega
  | succ steps ih =>
    rw [lowerToOne]
    have hreach := reaches_iff (t := t) (h.r.add h.plus) h.s
    split
    · apply ih h.overTen
      calc R + B < S * 10 ^ (steps + 1) := hsteps
        _ = 10 * S * 10 ^ steps := by ring
    · next hone => exact ⟨S, h, fun hbelow => hone (hreach.2 (h.below_one_iff.1 hbelow))⟩

theorem raiseToTenth_spec (steps : ℕ) (h : x.Tracks t 0 R S A B) (hone : ¬t.Below (10 ^ x.point))
    (hsteps : S < (R + B) * 10 ^ (steps + 1)) :
    ∃ R' A' B', (raiseToTenth (t.sig % 2 == 0) steps x).Tracks t 0 R' S A' B' ∧
      ¬t.Below (10 ^ (raiseToTenth (t.sig % 2 == 0) steps x).point) ∧
      t.Below (10 ^ ((raiseToTenth (t.sig % 2 == 0) steps x).point - 1)) := by
  induction steps generalizing x R A B with
  | zero =>
    refine ⟨R, A, B, h, hone, h.below_tenth_iff.2 (within_of_lt ?_)⟩
    rwa [zero_add, pow_one, Nat.mul_comm] at hsteps
  | succ steps ih =>
    rw [raiseToTenth]
    have hreach := reaches_iff (t := t) (h.r.add h.plus).mul10 h.s
    rw [← h.below_tenth_iff] at hreach
    split
    · next hten => exact ⟨R, A, B, h, hone, hreach.1 hten⟩
    · next hten =>
      apply ih h.timesTen (fun hbelow => hten (hreach.2 hbelow))
      calc S < (R + B) * 10 ^ (steps + 1 + 1) := hsteps
        _ = (10 * R + 10 * B) * 10 ^ (steps + 1) := by ring

/-- A target in units of `2^exp` and bounds that are whole there. -/
theorem fraction_tracks {exp : ℤ} {sig minus plus : ℕ} (hsig : sig < 2 ^ 64) (hplus : plus < 2 ^ 64)
    (hminus : minus < 2 ^ 64) (hvalue : t.value = sig * 2 ^ exp)
    (hlow : t.low = (sig - minus) * 2 ^ exp) (hhigh : t.high = (sig + plus) * 2 ^ exp) :
    Tracks ⟨(Limbs.ofNat64 sig).mulPow2 exp.toNat, (Limbs.ofNat64 1).mulPow2 (-exp).toNat,
      (Limbs.ofNat64 minus).mulPow2 exp.toNat, (Limbs.ofNat64 plus).mulPow2 exp.toNat, 0⟩ t 0
      (2 ^ exp.toNat * sig) (2 ^ (-exp).toNat * 1) (2 ^ exp.toNat * minus)
      (2 ^ exp.toNat * plus) := by
  have hpow : (2 : ℚ) ^ (-exp).toNat ≠ 0 := by positivity
  have hscale : ∀ a : ℚ, ((0 : ℕ) + 2 ^ exp.toNat * a / (2 ^ (-exp).toNat * 1 : ℕ)) * 10 ^ (0 : ℤ) =
      a * 2 ^ exp := by
    intro a
    rw [Positional.pow_toNat (by norm_num) exp]
    push_cast
    field_simp
    ring
  refine ⟨(Limbs.ofNat64_represents hsig).mulPow2 _,
    (Limbs.ofNat64_represents (by decide : 1 < 2 ^ 64)).mulPow2 _,
    (Limbs.ofNat64_represents hminus).mulPow2 _, (Limbs.ofNat64_represents hplus).mulPow2 _,
    by positivity, ?_, ?_, ?_⟩
  · rw [hvalue, ← hscale]
    push_cast
    rfl
  · rw [hlow, ← hscale]
    push_cast
    rw [mul_sub]
  · rw [hhigh, ← hscale]
    push_cast
    rw [mul_add]

theorem ofTarget_tracks (hlt : t.sig < 2 ^ 61) : ∃ R S A B, (ofTarget t).Tracks t 0 R S A B := by
  cases hcloser : t.lowerCloser with
  | true =>
    simp only [ofTarget, hcloser, if_true]
    refine ⟨_, _, _, _, fraction_tracks (by omega) (by decide) (by decide) ?_ ?_ ?_⟩
    · rw [t.value_eq_quarter]
      push_cast
      rfl
    · unfold DigitTarget.low
      rw [if_pos hcloser]
      push_cast
      rfl
    · unfold DigitTarget.high
      rw [show t.exp - 1 = t.exp - 2 + 1 by ring, zpow_add₀ (by norm_num)]
      push_cast
      ring
  | false =>
    simp only [ofTarget, hcloser, Bool.false_eq_true, if_false]
    refine ⟨_, _, _, _, fraction_tracks (by omega) (by decide) (by decide) ?_ ?_ ?_⟩
    · rw [t.value_eq_half]
      push_cast
      rfl
    · unfold DigitTarget.low
      rw [hcloser]
      push_cast
      rfl
    · unfold DigitTarget.high
      push_cast
      rfl

theorem Tracks.scaleBy (h : x.Tracks t 0 R S A B) (k : ℤ) :
    ∃ R' S' A' B', (x.scaleBy k).Tracks t 0 R' S' A' B' := by
  have hS : (S : ℚ) ≠ 0 := by exact_mod_cast h.s_pos.ne'
  have hscale : ∀ a : ℚ, ((0 : ℕ) + 10 ^ (-k).toNat * a / (10 ^ k.toNat * S)) * 10 ^ (x.point + k) =
      ((0 : ℕ) + a / S) * 10 ^ x.point := by
    intro a
    rw [Nat.cast_zero, zero_add, zero_add, zpow_add₀ (by norm_num), Positional.pow_toNat (by norm_num) k]
    field_simp
  refine ⟨_, _, _, _, h.r.mulPow10 _, h.s.mulPow10 _, h.minus.mulPow10 _, h.plus.mulPow10 _,
    Nat.mul_pos (by positivity) h.s_pos, ?_, ?_, ?_⟩
  · rw [h.value, ← hscale]
    push_cast
    rfl
  · rw [h.low, ← hscale]
    push_cast
    rw [mul_sub]
    rfl
  · rw [h.high, ← hscale]
    push_cast
    rw [mul_add]
    rfl

/-- The fraction scaled from any guess of its decimal exponent, as `scaled` does from an estimate. -/
def scaledFrom (t : DigitTarget) (guess : ℤ) : ScaledFraction :=
  let inclusive := t.sig % 2 == 0
  let x := (ofTarget t).scaleBy guess
  let x := lowerToOne inclusive (x.r.add x.plus).bitLength x
  raiseToTenth inclusive x.s.bitLength x

/-- Scaled, the upper bound is between a tenth and one, wherever the corrections began. -/
theorem scaledFrom_spec (hlt : t.sig < 2 ^ 61) (guess : ℤ) :
    ∃ R S A B, (scaledFrom t guess).Tracks t 0 R S A B ∧ ¬t.Below (10 ^ (scaledFrom t guess).point) ∧
      t.Below (10 ^ ((scaledFrom t guess).point - 1)) := by
  obtain ⟨R, S, A, B, h⟩ := ofTarget_tracks hlt
  obtain ⟨R, S, A, B, h⟩ := h.scaleBy guess
  rw [scaledFrom]
  generalize (ofTarget t).scaleBy guess = x at h
  obtain ⟨S, h, hone⟩ := lowerToOne_spec _ h h.sum_lt
  generalize lowerToOne (t.sig % 2 == 0) (x.r.add x.plus).bitLength x = y at h hone
  obtain ⟨R, A, B, h, hone, htenth⟩ := raiseToTenth_spec y.s.bitLength h hone (h.s_lt h.sum_pos)
  exact ⟨R, S, A, B, h, hone, htenth⟩

theorem scaled_spec (hlt : t.sig < 2 ^ 61) : ∃ R S A B, (scaled t).Tracks t 0 R S A B ∧
    ¬t.Below (10 ^ (scaled t).point) ∧ t.Below (10 ^ ((scaled t).point - 1)) :=
  scaledFrom_spec hlt (estimate t)

/-! ## Endings -/

theorem Tracks.takeDigit (h : x.Tracks t n R S A B) : (x.r.divModSmall x.s).1 = R / S ∧
    Tracks { x with r := (x.r.divModSmall x.s).2 } t (n + R / S) (R % S) S A B := by
  have hS : (S : ℚ) ≠ 0 := by exact_mod_cast h.s_pos.ne'
  obtain ⟨hdigit, hrest⟩ := h.r.divModSmall h.s h.s_pos
  have hsplit : (R : ℚ) = S * (R / S : ℕ) + (R % S : ℕ) := by exact_mod_cast (Nat.div_add_mod R S).symm
  refine ⟨hdigit, hrest, h.s, h.minus, h.plus, h.s_pos, ?_, ?_, ?_⟩
  · rw [h.value]
    congr 1
    push_cast
    rw [hsplit]
    field_simp
    ring
  · rw [h.low]
    congr 1
    push_cast
    rw [hsplit]
    field_simp
    ring
  · rw [h.high]
    congr 1
    push_cast
    rw [hsplit]
    field_simp
    ring

/-- Which of the digits and the same counted up are covered, and the nearer of these. -/
theorem Tracks.ending_cases (h : x.Tracks t n R S A B) :
    (ending (t.sig % 2 == 0) x = .goesOn ∧
      ¬t.Above (n * 10 ^ x.point) ∧ ¬t.Below ((n + 1) * 10 ^ x.point)) ∨
    (ending (t.sig % 2 == 0) x = .stands ∧
      t.Above (n * 10 ^ x.point) ∧ (t.Below ((n + 1) * 10 ^ x.point) → 2 * R < S)) ∨
    (ending (t.sig % 2 == 0) x = .roundsUp ∧
      t.Below ((n + 1) * 10 ^ x.point) ∧ (t.Above (n * 10 ^ x.point) → S ≤ 2 * R)) := by
  have hlow : (if (t.sig % 2 == 0) = true then x.r.le x.minus else x.r.lt x.minus) =
      decide (Within t R A) := by
    by_cases heven : t.sig % 2 = 0
    · simp [heven, Within, h.r.le h.minus]
    · simp [heven, Within, h.r.lt h.minus]
  have hhigh : reaches (t.sig % 2 == 0) (x.r.add x.plus) x.s = decide (Within t S (R + B)) := by
    rw [Bool.eq_iff_iff, reaches_iff (h.r.add h.plus) h.s, decide_eq_true_iff]
  have htwice : x.s.le (x.r.mulPow2 1) = decide (S ≤ 2 * R) := h.s.le (h.r.mulPow2 1)
  unfold ending
  rw [h.above_iff, h.below_iff]
  simp only [hlow, hhigh, htwice]
  by_cases hA : Within t R A
  · by_cases hB : Within t S (R + B)
    · by_cases hR : S ≤ 2 * R
      · simp [hA, hB, hR]
      · simp [hA, hB, hR, Nat.lt_of_not_le hR]
    · simp [hA, hB]
  · by_cases hB : Within t S (R + B)
    · simp [hA, hB]
    · simp [hA, hB]

/-! ## Digits -/

/-- Some digits and what they leave of the target. -/
structure Leaves (t : DigitTarget) (point : ℤ) (x : ScaledFraction) (digits : List ℕ)
    (R S A B : ℕ) : Prop where
  tracks : x.Tracks t (taken digits) R S A B
  lt : R < S
  place : x.point = point - digits.length
  digits_lt : ∀ d ∈ digits, d < 10

/-- Neither the digits nor the same counted up are covered. -/
structure Pending (t : DigitTarget) (point : ℤ) (x : ScaledFraction) (digits : List ℕ)
    (R S A B : ℕ) : Prop extends Leaves t point x digits R S A B where
  head : digits ≠ [] → 10 ^ (digits.length - 1) ≤ taken digits
  not_above : ¬t.Above (taken digits * 10 ^ x.point)
  not_below : ¬t.Below ((taken digits + 1) * 10 ^ x.point)

/-- Decimals of one digit less are not covered. -/
structure Taken (t : DigitTarget) (point : ℤ) (x : ScaledFraction) (digits : List ℕ)
    (R S A B : ℕ) : Prop extends Leaves t point x digits R S A B where
  ne : digits ≠ []
  head : digits.length ≠ 1 → 10 ^ (digits.length - 1) ≤ taken digits
  coarser : ∀ m : ℕ, ¬t.Covers (m * 10 ^ (x.point + 1))

variable {point : ℤ} {digits : List ℕ}

/-- The lower bound is not within reach yet. -/
theorem Pending.minus_le (h : Pending t point x digits R S A B) : A ≤ R := by
  by_contra hlt
  exact h.not_above (h.tracks.above_iff.2 (within_of_lt (not_le.1 hlt)))

/-- One more digit is taken off. -/
theorem Pending.taken (h : Pending t point x digits R S A B) :
    Taken t point { x.timesTen with r := (x.timesTen.r.divModSmall x.timesTen.s).2 }
      ((x.timesTen.r.divModSmall x.timesTen.s).1 :: digits) (10 * R % S) S (10 * A) (10 * B) := by
  obtain ⟨hdigit, htracks⟩ := h.tracks.timesTen.takeDigit
  have hpos := h.tracks.s_pos
  have hlt : 10 * R / S < 10 := by
    rw [Nat.div_lt_iff_lt_mul hpos]
    have := h.lt
    omega
  have hplace := h.place
  rw [hdigit]
  refine ⟨⟨?_, Nat.mod_lt _ hpos, ?_, ?_⟩, by simp, ?_, ?_⟩
  · rw [taken_cons]
    exact htracks
  · show x.point - 1 = point - ((digits.length + 1 : ℕ) : ℤ)
    omega
  · intro d hd
    rcases List.mem_cons.1 hd with rfl | hd
    · exact hlt
    · exact h.digits_lt d hd
  · intro hlen
    have hne : digits ≠ [] := by
      rintro rfl
      exact hlen rfl
    have hhead := h.head hne
    have hlength := List.length_pos_iff.2 hne
    rw [taken_cons, List.length_cons, Nat.add_sub_cancel]
    calc 10 ^ digits.length = 10 * 10 ^ (digits.length - 1) := by
          rw [← pow_succ', Nat.sub_add_cancel hlength]
      _ ≤ 10 * DigitString.taken digits + 10 * R / S := by omega
  · show ∀ m : ℕ, ¬t.Covers (m * 10 ^ (x.point - 1 + 1))
    rw [sub_add_cancel]
    exact DigitTarget.not_covers_of_gap h.not_above h.not_below

theorem Leaves.value_eq (h : Leaves t point x digits R S A B) :
    t.value = (taken digits + R / S : ℚ) * 10 ^ x.point ∧ (0 : ℚ) ≤ R / S ∧ (R / S : ℚ) < 1 := by
  have hS : (0 : ℚ) < S := by exact_mod_cast h.tracks.s_pos
  refine ⟨h.tracks.value, by positivity, ?_⟩
  rw [div_lt_one hS]
  exact_mod_cast h.lt

/-- Digits that are covered, and no farther than the same counted up if these are too, are the
shortest. -/
theorem Taken.stands (h : Taken t point x digits R S A B)
    (habove : t.Above (taken digits * 10 ^ x.point))
    (hdown : t.Below ((taken digits + 1) * 10 ^ x.point) → 2 * R < S) :
    t.IsShortest (taken digits) x.point := by
  obtain ⟨hvalue, hrest0, hrest1⟩ := h.value_eq
  have hpow : (0 : ℚ) < 10 ^ x.point := by positivity
  have hS : (0 : ℚ) < S := by exact_mod_cast h.tracks.s_pos
  have hle : (taken digits * 10 ^ x.point : ℚ) ≤ t.value := by
    rw [hvalue]
    exact mul_le_mul_of_nonneg_right (by linarith) hpow.le
  refine .of_nearer hvalue ⟨habove, t.below_value.mono hle⟩ h.coarser fun m hne hm => Or.inl ?_
  rw [abs_sub_comm, abs_of_nonneg (by linarith)]
  rcases Nat.lt_or_gt_of_ne hne with hlt | hgt
  · have h1 : (m + 1 : ℚ) ≤ taken digits := by exact_mod_cast hlt
    rw [abs_sub_comm, abs_of_nonneg (by linarith)]
    linarith
  · have h1 : (taken digits + 1 : ℚ) ≤ m := by exact_mod_cast hgt
    have htwice := hdown (hm.2.mono (mul_le_mul_of_nonneg_right h1 hpow.le))
    have hhalf : (R / S : ℚ) < 1 / 2 := by
      rw [div_lt_div_iff₀ hS (by norm_num), one_mul, mul_comm]
      exact_mod_cast htwice
    rw [abs_of_nonneg (by linarith)]
    linarith

/-- Digits counted up that are covered, and no farther than the same as they are if these are too, are
the shortest. -/
theorem Taken.roundsUp (h : Taken t point x digits R S A B)
    (hbelow : t.Below ((taken digits + 1) * 10 ^ x.point))
    (hup : t.Above (taken digits * 10 ^ x.point) → S ≤ 2 * R) :
    t.IsShortest (taken digits + 1) x.point := by
  obtain ⟨hvalue, hrest0, hrest1⟩ := h.value_eq
  have hpow : (0 : ℚ) < 10 ^ x.point := by positivity
  have hS : (0 : ℚ) < S := by exact_mod_cast h.tracks.s_pos
  have hle : t.value ≤ ((taken digits + 1 : ℕ) : ℚ) * 10 ^ x.point := by
    rw [hvalue]
    push_cast
    exact mul_le_mul_of_nonneg_right (by linarith) hpow.le
  have hcovers : t.Covers ((taken digits + 1 : ℕ) * 10 ^ x.point) :=
    ⟨t.above_value.mono hle, by push_cast; exact hbelow⟩
  refine .of_nearer hvalue hcovers h.coarser ?_
  intro m hne hm
  push_cast
  rw [abs_of_nonneg (by linarith)]
  rcases Nat.lt_or_gt_of_ne hne with hlt | hgt
  · have h1 : (m : ℚ) ≤ taken digits := by exact_mod_cast Nat.lt_succ_iff.1 hlt
    have htwice := hup (hm.1.mono (mul_le_mul_of_nonneg_right h1 hpow.le))
    have hhalf : 1 / 2 ≤ (R / S : ℚ) := by
      rw [div_le_div_iff₀ (by norm_num) hS, one_mul, mul_comm]
      exact_mod_cast htwice
    rw [abs_sub_comm, abs_of_nonneg (by linarith)]
    -- half way between the two, the digits counted up are as near as the others
    rcases lt_or_eq_of_le (show (taken digits + 1 - (taken digits + R / S) : ℚ) ≤
      taken digits + R / S - m by linarith) with hnear | htie
    · exact Or.inl hnear
    · exact Or.inr ⟨htie, hlt⟩
  · have h1 : (taken digits + 1 + 1 : ℚ) ≤ m := by exact_mod_cast hgt
    left
    rw [abs_of_nonneg (by linarith)]
    linarith

/-- Digits of which the first, with the upper bound at a tenth or more, is not zero. -/
theorem Taken.pending (h : Taken t point x digits R S A B) (htenth : t.Below (10 ^ (point - 1)))
    (hlow : ¬t.Above (taken digits * 10 ^ x.point))
    (hhigh : ¬t.Below ((taken digits + 1) * 10 ^ x.point)) : Pending t point x digits R S A B := by
  refine ⟨h.toLeaves, ?_, hlow, hhigh⟩
  intro _
  by_cases hlen : digits.length = 1
  · have hplace := h.place
    rw [hlen] at hplace
    rw [hplace] at hhigh
    rw [hlen, Nat.sub_self, pow_zero]
    refine Nat.one_le_iff_ne_zero.2 fun h0 => hhigh ?_
    simpa [h0] using htenth
  · exact h.head hlen

/-! ## The last digit -/

theorem taken_nines {digits : List ℕ} (h : digits.all (· == 9) = true) :
    taken digits + 1 = 10 ^ digits.length := by
  induction digits with
  | nil => rfl
  | cons d digits ih =>
    simp only [List.all_cons, Bool.and_eq_true, beq_iff_eq] at h
    have := ih h.2
    rw [taken_cons, List.length_cons, pow_succ]
    omega

theorem countUp_spec {digits : List ℕ} (hlt : ∀ d ∈ digits, d < 10)
    (h : digits.all (· == 9) = false) : taken (countUp digits) = taken digits + 1 ∧
      (countUp digits).length = digits.length ∧ ∀ d ∈ countUp digits, d < 10 := by
  induction digits with
  | nil => simp at h
  | cons d digits ih =>
    have hd : d < 10 := hlt d (by simp)
    have hrest : ∀ d ∈ digits, d < 10 := fun x hx => hlt x (by simp [hx])
    rw [countUp]
    split
    · next hnine =>
      obtain ⟨hvalue, hlen, hdigits⟩ := ih hrest (by simpa [hnine] using h)
      refine ⟨?_, by simp [hlen], ?_⟩
      · rw [taken_cons, taken_cons, hvalue]
        omega
      · intro x hx
        rcases List.mem_cons.1 hx with rfl | hx
        · decide
        · exact hdigits x hx
    · refine ⟨?_, rfl, ?_⟩
      · rw [taken_cons, taken_cons]
        omega
      · intro x hx
        rcases List.mem_cons.1 hx with rfl | hx
        · omega
        · exact hrest x hx

theorem Taken.finish_stands (h : Taken t point x digits R S A B) (h0 : 0 < t.sig)
    (hshort : t.IsShortest (taken digits) x.point) :
    (finish digits point false).IsShortestOf t := by
  rw [h.place] at hshort
  refine isShortestOf_reverse h.digits_lt h.ne ?_ hshort
  by_cases hlen : digits.length = 1
  · rw [hlen]
    exact hshort.pos h0
  · exact h.head hlen

/-- The digits are not all nines, since counted up these would be the power of ten that the upper
bound has not reached. -/
theorem Taken.finish_roundsUp (h : Taken t point x digits R S A B) (hone : ¬t.Below (10 ^ point))
    (hshort : t.IsShortest (taken digits + 1) x.point) :
    (finish digits point true).IsShortestOf t := by
  rw [h.place] at hshort
  have hnines : digits.all (· == 9) = false := by
    rw [Bool.eq_false_iff]
    intro hall
    apply hone
    have := hshort.covers.2
    rw [taken_nines hall] at this
    push_cast at this
    rwa [← zpow_natCast, ← zpow_add₀ (by norm_num), add_sub_cancel] at this
  obtain ⟨hvalue, hlen, hlt⟩ := countUp_spec h.digits_lt hnines
  have hne : countUp digits ≠ [] := by
    rw [← List.length_pos_iff, hlen]
    exact List.length_pos_iff.2 h.ne
  rw [← hvalue, ← hlen] at hshort
  have hfinish : finish digits point true = ⟨(countUp digits).reverse, point⟩ := by
    unfold finish
    rw [if_neg (by simp), hnines]
    rfl
  rw [hfinish]
  refine isShortestOf_reverse hlt hne ?_ hshort
  rw [hlen, hvalue]
  by_cases hone : digits.length = 1
  · rw [hone]
    omega
  · exact (h.head hone).trans (Nat.le_succ _)

/-! ## Generation -/

/-- From where no digit ends it yet, generation gives the shortest digits; the lower bound comes within
reach before the steps run out. -/
theorem digitsFrom_isShortestOf (h0 : 0 < t.sig) (hone : ¬t.Below (10 ^ point))
    (htenth : t.Below (10 ^ (point - 1))) (steps : ℕ) (h : Pending t point x digits R S A B)
    (hsteps : S < A * 10 ^ steps) :
    (digitsFrom (t.sig % 2 == 0) point steps x digits).IsShortestOf t := by
  induction steps generalizing x digits R A B with
  | zero =>
    rw [pow_zero, Nat.mul_one] at hsteps
    exact absurd (h.lt.trans hsteps) (not_lt.2 h.minus_le)
  | succ steps ih =>
    have htaken := h.taken
    rw [digitsFrom]
    generalize x.timesTen.r.divModSmall x.timesTen.s = split at htaken ⊢
    obtain ⟨digit, r⟩ := split
    rcases htaken.tracks.ending_cases with ⟨hend, hlow, hhigh⟩ | ⟨hend, habove, hdown⟩ |
      ⟨hend, hbelow, hup⟩
    · simp only [hend]
      apply ih (htaken.pending htenth hlow hhigh)
      calc S < A * 10 ^ (steps + 1) := hsteps
        _ = 10 * A * 10 ^ steps := by ring
    · simp only [hend]
      exact htaken.finish_stands h0 (htaken.stands habove hdown)
    · simp only [hend]
      exact htaken.finish_roundsUp hone (htaken.roundsUp hbelow hup)

end ScaledFraction

namespace DigitTarget

open ScaledFraction DigitString

variable {t : DigitTarget}

/-- Before the first digit is taken off none is covered. -/
theorem pending_scaled (h0 : 0 < t.sig) (hlt : t.sig < 2 ^ 61) : ∃ R S A B,
    Pending t (scaled t).point (scaled t) [] R S A B ∧ ¬t.Below (10 ^ (scaled t).point) ∧
      t.Below (10 ^ ((scaled t).point - 1)) ∧ S < A * 10 ^ ((scaled t).s.bitLength + 1) := by
  obtain ⟨R, S, A, B, h, hone, htenth⟩ := scaled_spec hlt
  have hS : (0 : ℚ) < S := by exact_mod_cast h.s_pos
  have hpow : (0 : ℚ) < 10 ^ (scaled t).point := by positivity
  have hRS : R < S := by
    by_contra hge
    have h1 : (1 : ℚ) ≤ R / S := by
      rw [one_le_div hS]
      exact_mod_cast Nat.le_of_not_lt hge
    refine hone (t.below_value.mono ?_)
    rw [h.value, Nat.cast_zero, zero_add]
    exact le_mul_of_one_le_left hpow.le h1
  have hA : 0 < A := by
    refine Nat.pos_of_ne_zero fun hA0 => t.low_lt_value.ne ?_
    rw [h.low, h.value, hA0, Nat.cast_zero, sub_zero]
  refine ⟨R, S, A, B, ⟨⟨h, hRS, by simp, by simp⟩, by simp, ?_, fun hbelow => hone ?_⟩, hone, htenth,
    h.s_lt hA⟩
  · intro habove
    have := (low_pos h0).trans_le habove.low_le
    simp [taken, Positional.ofDigits_nil] at this
  · simpa [taken, Positional.ofDigits_nil] using hbelow

/-- The exact digits are the shortest. -/
theorem exactDigits_isShortestOf (h0 : 0 < t.sig) (hlt : t.sig < 2 ^ 61) :
    t.exactDigits.IsShortestOf t := by
  obtain ⟨R, S, A, B, h, hone, htenth, hsteps⟩ := pending_scaled h0 hlt
  exact digitsFrom_isShortestOf h0 hone htenth _ h hsteps

end DigitTarget

end MachineNumbers
