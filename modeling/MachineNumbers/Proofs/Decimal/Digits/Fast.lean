import Mathlib
import MachineNumbers.Decimal.Digits.Fast
import MachineNumbers.Proofs.Decimal.Digits.ScaledWord
import MachineNumbers.Proofs.Decimal.Digits.Target

/-!
# Digits from single words are the shortest

An `Approximation` holds the words of a target and of its bounds, each off by less than one.  Digits of
the upper bound, one unit up, split it into a multiple of the last place and a rest (`Split`); while the
rest is not within the interval no decimal of these places is covered (`Pending.not_covers`).  When it
is, and the last digit is lowered and accepted, the decimal is covered and nearer to the target than any
other of its places, for all that the words leave open (`Stop.settle_isShortest`).  So single words
give the shortest digits whenever they give any (`fastDigits?_isShortestOf`).
-/

namespace MachineNumbers

/-- Words of a target and of its bounds at one scale, each off by less than one. -/
structure Approximation (t : DigitTarget) where
  low : ℕ
  target : ℕ
  high : ℕ
  scale : ℚ
  scale_pos : 0 < scale
  low_pos : 0 < low
  dist_low : |low - t.low * scale| < 1
  dist_target : |target - t.value * scale| < 1
  dist_high : |high - t.high * scale| < 1

namespace Approximation

variable {t : DigitTarget}

/-- The upper bound, one unit up. -/
def upper (a : Approximation t) : ℕ := a.high + 1

/-- The width of the interval, with the units of both bounds. -/
def interval (a : Approximation t) : ℕ := a.upper - (a.low - 1)

def distance (a : Approximation t) : ℕ := a.upper - a.target

variable (a : Approximation t)

theorem low_scaled : (a.low - 1 : ℚ) < t.low * a.scale ∧ t.low * a.scale < a.low + 1 := by
  obtain ⟨h1, h2⟩ := abs_lt.1 a.dist_low
  exact ⟨by linarith, by linarith⟩

theorem target_scaled : (a.target - 1 : ℚ) < t.value * a.scale ∧ t.value * a.scale < a.target + 1 := by
  obtain ⟨h1, h2⟩ := abs_lt.1 a.dist_target
  exact ⟨by linarith, by linarith⟩

theorem high_scaled : (a.upper - 2 : ℚ) < t.high * a.scale ∧ t.high * a.scale < a.upper := by
  obtain ⟨h1, h2⟩ := abs_lt.1 a.dist_high
  unfold upper
  push_cast
  exact ⟨by linarith, by linarith⟩

theorem target_le_upper : a.target ≤ a.upper := by
  have h1 := a.target_scaled.1
  have h2 := a.high_scaled.2
  have h3 := mul_lt_mul_of_pos_right t.value_lt_high a.scale_pos
  have h4 : (a.target : ℚ) < a.upper + 1 := by linarith
  exact Nat.lt_succ_iff.1 (by exact_mod_cast h4)

theorem low_le_upper : a.low ≤ a.upper := by
  have h1 := a.low_scaled.1
  have h2 := a.high_scaled.2
  have h3 := mul_lt_mul_of_pos_right (t.low_lt_value.trans t.value_lt_high) a.scale_pos
  have h4 : (a.low : ℚ) < a.upper + 1 := by linarith
  exact Nat.lt_succ_iff.1 (by exact_mod_cast h4)

theorem cast_interval : (a.interval : ℚ) = a.upper - (a.low - 1) := by
  have h1 := a.low_le_upper
  have h2 := a.low_pos
  unfold interval
  rw [Nat.cast_sub (by omega), Nat.cast_sub h2, Nat.cast_one]

theorem cast_distance : (a.distance : ℚ) = a.upper - a.target := by
  unfold distance
  rw [Nat.cast_sub a.target_le_upper]

end Approximation

namespace FastDigits

open DigitString (taken taken_cons)

variable {t : DigitTarget} {a : Approximation t} {digits : List ℕ} {p : ℤ} {rest weight unit : ℕ}

/-! ## Digits of the upper bound -/

/-- Digits down to the place `10^p` and what they leave of the upper bound, in parts of `unit`. -/
structure Split (a : Approximation t) (digits : List ℕ) (p : ℤ) (rest weight unit : ℕ) : Prop where
  unit_pos : 0 < unit
  total : a.upper * unit = taken digits * weight + rest
  rest_lt : rest < weight
  weight_eq : (weight : ℚ) = 10 ^ p * (a.scale * unit)
  digits_lt : ∀ d ∈ digits, d < 10

/-- What is left is not within the interval. -/
structure Pending (a : Approximation t) (digits : List ℕ) (p : ℤ) (rest weight unit : ℕ) : Prop
    extends Split a digits p rest weight unit where
  le_rest : a.interval * unit ≤ rest
  head : if digits = [] then weight ≤ 10 * rest else 10 ^ (digits.length - 1) ≤ taken digits

/-- No decimal of one digit less is covered. -/
structure Taken (a : Approximation t) (digits : List ℕ) (p : ℤ) (rest weight unit : ℕ) : Prop
    extends Split a digits p rest weight unit where
  ne : digits ≠ []
  head : 10 ^ (digits.length - 1) ≤ taken digits
  coarser : ∀ m : ℕ, ¬t.Covers (m * 10 ^ (p + 1))

theorem Split.part_pos (h : Split a digits p rest weight unit) : (0 : ℚ) < a.scale * unit :=
  mul_pos a.scale_pos (by exact_mod_cast h.unit_pos)

/-- A multiple of the last place in parts. -/
theorem Split.scaled (h : Split a digits p rest weight unit) (m : ℚ) :
    m * 10 ^ p * (a.scale * unit) = m * weight := by
  rw [h.weight_eq, mul_assoc]

theorem Split.total_cast (h : Split a digits p rest weight unit) :
    (a.upper * unit : ℚ) = taken digits * weight + rest := by
  exact_mod_cast h.total

/-- With the rest beyond the interval both bounds are between two multiples. -/
theorem Pending.not_covers (h : Pending a digits p rest weight unit) (m : ℕ) :
    ¬t.Covers (m * 10 ^ p) := by
  have hpart := h.part_pos
  have hunit : (0 : ℚ) < unit := by exact_mod_cast h.unit_pos
  have htotal := h.total_cast
  have hle : (a.interval * unit : ℚ) ≤ rest := by exact_mod_cast h.le_rest
  have hlt : (rest : ℚ) < weight := by exact_mod_cast h.rest_lt
  rw [a.cast_interval] at hle
  refine DigitTarget.not_covers_of_gap (n := taken digits) ?_ ?_ m
  · intro habove
    have h1 := mul_le_mul_of_nonneg_right habove.low_le hpart.le
    have h2 := mul_lt_mul_of_pos_right a.low_scaled.1 hunit
    rw [h.scaled, ← mul_assoc] at h1
    linarith
  · intro hbelow
    have h1 := mul_le_mul_of_nonneg_right hbelow.le_high hpart.le
    have h2 := mul_lt_mul_of_pos_right a.high_scaled.2 hunit
    rw [h.scaled, ← mul_assoc] at h1
    linarith

/-- One more digit, of parts that are a `factor` smaller. -/
theorem Pending.taken (h : Pending a digits p rest weight unit) (factor digit rest' weight' : ℕ)
    (hfactor : 0 < factor) (hweight : factor * weight = 10 * weight')
    (hrest : factor * rest = digit * weight' + rest') (hlt : rest' < weight') :
    Taken a (digit :: digits) (p - 1) rest' weight' (unit * factor) := by
  have hdigit : digit < 10 := by
    have h1 : factor * rest < factor * weight := Nat.mul_lt_mul_of_pos_left h.rest_lt hfactor
    rw [hweight, hrest] at h1
    exact Nat.lt_of_mul_lt_mul_right (Nat.lt_of_le_of_lt (Nat.le_add_right _ _) h1)
  have hpow : (10 : ℚ) ^ p = 10 ^ (p - 1) * 10 := by
    rw [← zpow_add_one₀ (by norm_num), sub_add_cancel]
  refine ⟨⟨Nat.mul_pos h.unit_pos hfactor, ?_, hlt, ?_, ?_⟩, by simp, ?_, ?_⟩
  · rw [taken_cons, ← Nat.mul_assoc, h.total, Nat.add_mul, Nat.mul_comm rest, hrest, Nat.mul_assoc,
      Nat.mul_comm weight, hweight]
    ring
  · have h1 : (factor * weight : ℚ) = 10 * weight' := by exact_mod_cast hweight
    rw [h.weight_eq, hpow] at h1
    push_cast
    linarith
  · intro d hd
    rcases List.mem_cons.1 hd with rfl | hd
    · exact hdigit
    · exact h.digits_lt d hd
  · have hhead := h.head
    rw [List.length_cons, Nat.add_sub_cancel, taken_cons]
    split at hhead
    · next hnil =>
      have h1 := Nat.mul_le_mul_left factor hhead
      rw [hweight, Nat.mul_left_comm, hrest] at h1
      have hpos : digit ≠ 0 := by
        rintro rfl
        omega
      rw [hnil, List.length_nil, pow_zero]
      omega
    · next hne =>
      calc 10 ^ digits.length = 10 * 10 ^ (digits.length - 1) := by
            rw [← pow_succ', Nat.sub_add_cancel (List.length_pos_iff.2 hne)]
        _ ≤ 10 * DigitString.taken digits + digit := by omega
  · rw [sub_add_cancel]
    exact h.not_covers

theorem Taken.pending (h : Taken a digits p rest weight unit) (hle : a.interval * unit ≤ rest) :
    Pending a digits p rest weight unit :=
  ⟨h.toSplit, hle, by rw [if_neg h.ne]; exact h.head⟩

/-! ## The last digit -/

/-- From the upper bound down to the target, in parts of `unit`. -/
def depth (a : Approximation t) (unit : ℕ) : ℚ := (a.upper - t.value * a.scale) * unit

/-- The depth lies strictly between the two goals. -/
theorem depth_bounds (a : Approximation t) (hunit : 0 < unit) :
    ((a.distance * unit - unit : ℕ) : ℚ) < depth a unit ∧
      depth a unit < (a.distance * unit + unit : ℕ) := by
  have hu : (0 : ℚ) < unit := by exact_mod_cast hunit
  obtain ⟨hlow, hhigh⟩ := a.target_scaled
  have hupper := mul_lt_mul_of_pos_right t.value_lt_high a.scale_pos
  have hpos := a.high_scaled.2
  have hcast := a.cast_distance
  unfold depth
  constructor
  · rcases Nat.le_total (a.distance * unit) unit with h | h
    · rw [Nat.sub_eq_zero_of_le h, Nat.cast_zero]
      exact mul_pos (by linarith) hu
    · rw [Nat.cast_sub h, Nat.cast_mul, hcast, ← sub_one_mul]
      exact mul_lt_mul_of_pos_right (by linarith) hu
  · rw [Nat.cast_add, Nat.cast_mul, hcast, ← add_one_mul]
    exact mul_lt_mul_of_pos_right (by linarith) hu

/-- A decimal well inside the interval is covered. -/
theorem Split.covers {n rest' : ℕ} (h : Split a digits p rest weight unit)
    (htotal : a.upper * unit = n * weight + rest') (hlow : 2 * unit ≤ rest')
    (hhigh : rest' + 4 * unit ≤ a.interval * unit) : t.Covers (n * 10 ^ p) := by
  have hpart := h.part_pos
  have hu : (0 : ℚ) < unit := by exact_mod_cast h.unit_pos
  have htotal' : (a.upper * unit : ℚ) = n * weight + rest' := by exact_mod_cast htotal
  have hlow' : (2 * unit : ℚ) ≤ rest' := by exact_mod_cast hlow
  have hhigh' : (rest' + 4 * unit : ℚ) ≤ a.interval * unit := by exact_mod_cast hhigh
  rw [a.cast_interval] at hhigh'
  have hbound := mul_lt_mul_of_pos_right a.low_scaled.2 hu
  have hbound' := mul_lt_mul_of_pos_right a.high_scaled.1 hu
  constructor
  · refine DigitTarget.above_of_lt (lt_of_mul_lt_mul_right ?_ hpart.le)
    rw [h.scaled, ← mul_assoc]
    linarith
  · refine DigitTarget.below_of_lt (lt_of_mul_lt_mul_right ?_ hpart.le)
    rw [h.scaled, ← mul_assoc]
    linarith

/-- The distance to the target in parts, measured down from the upper bound. -/
theorem Split.dist_eq {n rest' : ℕ} (h : Split a digits p rest weight unit)
    (htotal : a.upper * unit = n * weight + rest') (m : ℚ) :
    |m - t.value / 10 ^ p| * weight = |rest' + (n - m) * weight - depth a unit| := by
  have hw : (0 : ℚ) < weight := by exact_mod_cast (Nat.zero_le _).trans_lt h.rest_lt
  have htotal' : (a.upper * unit : ℚ) = n * weight + rest' := by exact_mod_cast htotal
  have hvalue : t.value / 10 ^ p * weight = t.value * a.scale * unit := by
    rw [h.weight_eq]
    field_simp
  rw [← abs_of_pos hw, ← abs_mul, abs_of_pos hw, ← abs_neg, sub_mul, hvalue, depth]
  congr 1
  linarith

/-- A decimal well inside the interval whose neighbours are farther from the target or outside is the
shortest. -/
theorem isShortest_of_rest {n : ℕ} (h : Split a digits p rest weight unit) {rest' : ℕ}
    (htotal : a.upper * unit = n * weight + rest') (hlow : 2 * unit ≤ rest')
    (hhigh : rest' + 4 * unit ≤ a.interval * unit)
    (hup : rest' < weight ∨ |rest' - depth a unit| < depth a unit - (rest' - weight))
    (hdown : a.interval * unit < rest' + weight ∨
      |rest' - depth a unit| < rest' + weight - depth a unit)
    (hcoarser : ∀ m : ℕ, ¬t.Covers (m * 10 ^ (p + 1))) : t.IsShortest n p := by
  have hpart := h.part_pos
  have hu : (0 : ℚ) < unit := by exact_mod_cast h.unit_pos
  have hw : (0 : ℚ) < weight := by exact_mod_cast (Nat.zero_le _).trans_lt h.rest_lt
  have hpow : (0 : ℚ) < 10 ^ p := by positivity
  have htotal' : (a.upper * unit : ℚ) = n * weight + rest' := by exact_mod_cast htotal
  have hx : t.value = t.value / 10 ^ p * 10 ^ p := (div_mul_cancel₀ _ hpow.ne').symm
  have hself := h.dist_eq htotal n
  rw [sub_self, zero_mul, add_zero] at hself
  refine .of_nearer hx (h.covers htotal hlow hhigh) hcoarser fun m hne hm =>
    Or.inl (lt_of_mul_lt_mul_right ?_ hw.le)
  rw [hself, h.dist_eq htotal]
  have hmlow := mul_le_mul_of_nonneg_right hm.1.low_le hpart.le
  have hmhigh := mul_le_mul_of_nonneg_right hm.2.le_high hpart.le
  rw [h.scaled, ← mul_assoc] at hmlow hmhigh
  rcases Nat.lt_or_gt_of_ne hne with hlt | hgt
  · have h1 : (m + 1 : ℚ) ≤ n := by exact_mod_cast hlt
    have h2 := mul_le_mul_of_nonneg_right h1 hw.le
    have h3 := mul_lt_mul_of_pos_right a.low_scaled.1 hu
    rcases hdown with hout | hfar
    · have h4 : ((a.upper - (a.low - 1)) * unit : ℚ) < rest' + weight := by
        rw [← a.cast_interval]
        exact_mod_cast hout
      linarith
    · exact hfar.trans_le (le_trans (by linarith) (le_abs_self _))
  · have h1 : (n + 1 : ℚ) ≤ m := by exact_mod_cast hgt
    have h2 := mul_le_mul_of_nonneg_right h1 hw.le
    have h3 := mul_lt_mul_of_pos_right a.high_scaled.2 hu
    rcases hup with hout | hfar
    · have h4 : (rest' : ℚ) < weight := by exact_mod_cast hout
      linarith
    · exact hfar.trans_le (le_trans (by linarith) (neg_le_abs _))

/-- Lowering takes a weight a step, and the last step came no farther from the goal. -/
theorem Stop.lowerLast_spec (s : Stop) (goal last rest : ℕ) :
    (s.lowerLast goal last rest).1 ≤ last ∧
      (s.lowerLast goal last rest).2 + (s.lowerLast goal last rest).1 * s.weight =
        rest + last * s.weight ∧
      ((s.lowerLast goal last rest).2 = rest ∨
        ∃ before, (s.lowerLast goal last rest).2 = before + s.weight ∧
          (s.lowerLast goal last rest).2 + before ≤ 2 * goal) := by
  induction last generalizing rest with
  | zero => exact ⟨le_rfl, rfl, Or.inl rfl⟩
  | succ last ih =>
    unfold lowerLast
    split
    · next hlowers =>
      obtain ⟨hle, htotal, hback⟩ := ih (rest + s.weight)
      refine ⟨hle.trans (Nat.le_succ _), by rw [htotal, Nat.succ_mul]; omega, Or.inr ?_⟩
      rcases hback with hback | hback
      · refine ⟨rest, hback, ?_⟩
        simp only [lowers, Bool.and_eq_true, Bool.or_eq_true, decide_eq_true_eq] at hlowers
        omega
      · exact hback
    · exact ⟨le_rfl, rfl, Or.inl rfl⟩

/-- Where lowering once more would not come nearer to the goal, the lower neighbour is outside or at
least as far. -/
theorem Stop.not_lowersNearer {s : Stop} {rest goal : ℕ} (h : s.lowersNearer rest goal = false)
    (hrest : rest ≤ s.interval) :
    s.interval < rest + s.weight ∨ 2 * goal ≤ 2 * rest + s.weight := by
  simp only [lowersNearer, Bool.and_eq_false_iff, Bool.or_eq_false_iff, decide_eq_false_iff_not] at h
  omega

/-- Digits with the last one settled are the shortest. -/
theorem Stop.settle_isShortest {s : Stop} {last : ℕ} {tail digits' : List ℕ}
    (h : Taken a (last :: tail) p s.rest s.weight s.unit)
    (hdistance : s.distance = a.distance * s.unit) (hinterval : s.interval = a.interval * s.unit)
    (hs : s.settle (last :: tail) = some digits') :
    ∃ last', last' ≤ last ∧ digits' = last' :: tail ∧ t.IsShortest (taken digits') p := by
  have hweight : (0 : ℚ) < s.weight := by exact_mod_cast (Nat.zero_le _).trans_lt h.rest_lt
  obtain ⟨hlow, hhigh⟩ := depth_bounds a h.unit_pos
  rw [← hdistance] at hlow hhigh
  obtain ⟨hle, htotal, hback⟩ := s.lowerLast_spec (s.distance - s.unit) last s.rest
  rw [settle] at hs
  generalize s.lowerLast (s.distance - s.unit) last s.rest = result at hs hle htotal hback
  obtain ⟨last', rest'⟩ := result
  simp only at hs hle htotal hback
  split at hs
  · cases hs
  · next hnearer =>
    split at hs
    · next hsafe =>
      simp only [Bool.and_eq_true, decide_eq_true_eq] at hsafe
      have hdown := Stop.not_lowersNearer (Bool.eq_false_iff.2 hnearer) (by omega)
      obtain rfl := Option.some.inj hs
      refine ⟨last', hle, rfl, isShortest_of_rest h.toSplit ?_ hsafe.1.2 ?_ ?_ ?_ h.coarser⟩
      · have := h.total
        rw [taken_cons] at this ⊢
        rw [this, Nat.add_mul, Nat.add_mul]
        omega
      · rw [← hinterval]
        omega
      · rcases hback with hback | ⟨before, hback, hgoal⟩
        · exact Or.inl (hback ▸ h.rest_lt)
        · right
          have h1 : (rest' : ℚ) = before + s.weight := by exact_mod_cast hback
          have h2 : (rest' + before : ℚ) ≤ 2 * (s.distance - s.unit : ℕ) := by exact_mod_cast hgoal
          rw [abs_lt]
          constructor
          · linarith
          · linarith
      · rw [← hinterval]
        apply hdown.imp id
        intro hgoal
        have h1 : (2 * (s.distance + s.unit : ℕ) : ℚ) ≤ 2 * rest' + s.weight := by
          exact_mod_cast hgoal
        rw [abs_lt]
        constructor
        · linarith
        · linarith
    · cases hs

/-! ## Generation -/

/-- The digit in front of a place and what is left of the number behind it. -/
theorem split_digit (integral fraction count shift : ℕ) :
    integral / 10 ^ count * (10 ^ count * 2 ^ shift) + (integral % 10 ^ count * 2 ^ shift + fraction) =
      integral * 2 ^ shift + fraction := by
  conv_rhs => rw [← Nat.div_add_mod' integral (10 ^ count)]
  ring

/-- In as many rounds as the fraction has bits the interval outgrows it. -/
theorem two_pow_le_mul_ten_pow {interval : ℕ} (hpos : 0 < interval) (shift : ℕ) :
    2 ^ shift ≤ interval * 10 ^ shift :=
  (Nat.pow_le_pow_left (by decide) shift).trans (Nat.le_mul_of_pos_left _ hpos)

/-- Digits, last digit first, that are the shortest decimal down to the place `10^p`. -/
structure Found (t : DigitTarget) (digits : List ℕ) (p : ℤ) : Prop where
  digits_lt : ∀ d ∈ digits, d < 10
  ne : digits ≠ []
  head : 10 ^ (digits.length - 1) ≤ taken digits
  shortest : t.IsShortest (taken digits) p

theorem Stop.settle_found {s : Stop} {digits' : List ℕ} (h0 : 0 < t.sig)
    (h : Taken a digits p s.rest s.weight s.unit)
    (hdistance : s.distance = a.distance * s.unit) (hinterval : s.interval = a.interval * s.unit)
    (hs : s.settle digits = some digits') : Found t digits' p := by
  obtain ⟨last, tail, rfl⟩ := List.exists_cons_of_ne_nil h.ne
  obtain ⟨last', hle, rfl, hshort⟩ := Stop.settle_isShortest h hdistance hinterval hs
  have hlt := h.digits_lt
  have hhead := h.head
  have hpos := hshort.pos h0
  refine ⟨?_, by simp, ?_, hshort⟩
  · intro d hd
    rcases List.mem_cons.1 hd with rfl | hd
    · exact hle.trans_lt (hlt last (by simp))
    · exact hlt d (by simp [hd])
  · rw [List.length_cons, Nat.add_sub_cancel, taken_cons] at hhead ⊢
    cases tail with
    | nil =>
      rw [taken_cons] at hpos
      rw [List.length_nil, pow_zero]
      exact hpos
    | cons d tail =>
      have hlast := hlt last (by simp)
      rw [List.length_cons, pow_succ] at hhead ⊢
      omega

theorem fractionDigits_found (h0 : 0 < t.sig) {shift distance : ℕ} (hd : distance = a.distance) {k : ℤ}
    (more : ℕ) {fraction interval : ℕ} {exponent e : ℤ} {digits' : List ℕ}
    (h : Pending a digits (exponent - k) fraction (2 ^ shift) unit)
    (hinterval : interval = a.interval * unit)
    (hs : fractionDigits shift distance more fraction interval unit exponent digits =
      some (digits', e)) : Found t digits' (e - k) := by
  induction more generalizing fraction interval unit exponent digits with
  | zero => cases hs
  | succ more ih =>
    have htaken : Taken a ((fraction * 10) >>> shift :: digits) (exponent - 1 - k)
        (fraction * 10 % 2 ^ shift) (2 ^ shift) (unit * 10) := by
      have := h.taken 10 ((fraction * 10) >>> shift) (fraction * 10 % 2 ^ shift) (2 ^ shift)
        (by decide) rfl ?_ (Nat.mod_lt _ (Nat.two_pow_pos _))
      · rwa [sub_right_comm] at this
      · rw [Nat.mul_comm 10, shiftRight_mul_add_mod]
    rw [fractionDigits] at hs
    simp only [Nat.pow_eq] at hs
    have hinterval' : interval * 10 = a.interval * (unit * 10) := by rw [hinterval, Nat.mul_assoc]
    split at hs
    · obtain ⟨ds, hsettle, hds⟩ := Option.map_eq_some_iff.1 hs
      obtain ⟨rfl, rfl⟩ := Prod.mk.inj hds
      exact Stop.settle_found h0 htaken (by rw [hd]) hinterval' hsettle
    · next hrest =>
      refine ih (htaken.pending ?_) hinterval' hs
      rw [← hinterval']
      omega

theorem integralDigits_found (h0 : 0 < t.sig) {shift distance interval fraction : ℕ}
    (hd : distance = a.distance) (hinterval : interval = a.interval) (hf : fraction < 2 ^ shift) {k : ℤ}
    (count : ℕ) {integral : ℕ} {e : ℤ} {digits' : List ℕ}
    (h : Pending a digits (count - k) (integral * 2 ^ shift + fraction) (10 ^ count * 2 ^ shift) 1)
    (hs : integralDigits shift distance interval fraction count integral digits =
      some (digits', e)) : Found t digits' (e - k) := by
  induction count generalizing integral digits with
  | zero =>
    have hintegral : integral = 0 := by
      have hlt := h.rest_lt
      rw [pow_zero, Nat.one_mul] at hlt
      by_contra hne
      have := Nat.le_mul_of_pos_left (2 ^ shift) (Nat.pos_of_ne_zero hne)
      omega
    rw [hintegral, Nat.zero_mul, Nat.zero_add, pow_zero, Nat.one_mul] at h
    have hpending : Pending a digits ((0 : ℤ) - k) fraction (2 ^ shift) 1 := h
    exact fractionDigits_found h0 hd shift hpending (by rw [hinterval, Nat.mul_one]) hs
  | succ count ih =>
    have htaken : Taken a (integral / 10 ^ count :: digits) (count - k)
        (integral % 10 ^ count * 2 ^ shift + fraction) (10 ^ count * 2 ^ shift) 1 := by
      have := h.taken 1 (integral / 10 ^ count) (integral % 10 ^ count * 2 ^ shift + fraction)
        (10 ^ count * 2 ^ shift) (by decide) (by rw [pow_succ]; ring) ?_ ?_
      · rwa [Nat.one_mul, show ((count + 1 : ℕ) : ℤ) - k - 1 = count - k by push_cast; ring] at this
      · rw [Nat.one_mul, split_digit]
      · have hlt := Nat.mod_lt integral (by positivity : 0 < 10 ^ count)
        have := Nat.mul_le_mul_right (2 ^ shift) (Nat.succ_le_iff.2 hlt)
        rw [Nat.succ_mul] at this
        omega
    rw [integralDigits] at hs
    simp only [Nat.pow_eq, Nat.shiftLeft_eq] at hs
    split at hs
    · obtain ⟨ds, hsettle, hds⟩ := Option.map_eq_some_iff.1 hs
      obtain ⟨rfl, rfl⟩ := Prod.mk.inj hds
      exact Stop.settle_found h0 htaken (by rw [hd, Nat.mul_one]) (by rw [hinterval, Nat.mul_one])
        hsettle
    · next hrest =>
      refine ih (htaken.pending ?_) hs
      rw [← hinterval]
      omega

theorem generate_found (h0 : 0 < t.sig) {low target high : ScaledWord} {k e : ℤ} {digits' : List ℕ}
    (hlow : low.f = a.low) (htarget : target.f = a.target) (hhigh : high.f = a.high)
    (hneg : target.e ≤ 0) (hscale : a.scale = 10 ^ k / 2 ^ target.e)
    (hlarge : 2 ^ target.e.natAbs ≤ high.f) (hs : generate low target high = some (digits', e)) :
    Found t digits' (e - k) := by
  obtain ⟨shift, hshift⟩ : ∃ shift : ℕ, target.e = -(shift : ℤ) := ⟨target.e.natAbs, by omega⟩
  have hupper : high.f + 1 = a.upper := by rw [hhigh, Approximation.upper]
  unfold generate at hs
  simp only [Nat.pow_eq, hupper, hlow, htarget] at hs
  split at hs
  · cases hs
  · have habs : target.e.natAbs = shift := by omega
    rw [habs] at hs hlarge
    have hpos : a.upper >>> shift ≠ 0 := by
      rw [Nat.shiftRight_eq_div_pow]
      exact (Nat.div_pos (hlarge.trans (by omega)) (Nat.two_pow_pos _)).ne'
    rw [if_neg hpos] at hs
    obtain ⟨hfirst, hlast⟩ := Positional.pow_length_digits (by decide : 1 < 10) hpos
    generalize (Positional.digits 10 (a.upper >>> shift)).length = count at hs hfirst hlast
    have hsplit := shiftRight_mul_add_mod a.upper shift
    have hfraction : a.upper % 2 ^ shift < 2 ^ shift := Nat.mod_lt _ (Nat.two_pow_pos _)
    refine integralDigits_found h0 rfl rfl hfraction count (k := k) ⟨⟨one_pos, ?_, ?_, ?_, by simp⟩,
      ?_, ?_⟩ hs
    · rw [hsplit, DigitString.taken, List.reverse_nil, Positional.ofDigits_nil, Nat.zero_mul,
        Nat.zero_add, Nat.mul_one]
    · have := Nat.mul_le_mul_right (2 ^ shift) (Nat.succ_le_iff.2 hlast)
      rw [Nat.succ_mul] at this
      omega
    · rw [hscale, hshift, zpow_sub₀ (by norm_num), zpow_neg, zpow_natCast, zpow_natCast]
      push_cast
      field_simp
    · rw [hsplit, Nat.mul_one, Approximation.interval]
      exact Nat.sub_le _ _
    · rw [if_pos rfl]
      have hcount : 10 ^ count ≤ 10 * 10 ^ (count - 1) := by
        rw [← pow_succ']
        exact Nat.pow_le_pow_right (by decide) (by omega)
      have := Nat.mul_le_mul_right (2 ^ shift) (hcount.trans (Nat.mul_le_mul_left 10 hfirst))
      rw [Nat.mul_assoc] at this
      omega

end FastDigits

namespace DigitTarget

open ScaledWord

variable {t : DigitTarget}

/-! ## Words of the target -/

def word (t : DigitTarget) : ScaledWord := ScaledWord.normalised ⟨t.sig, t.exp⟩

theorem word_value (t : DigitTarget) : t.word.value = t.value := by
  unfold word
  rw [normalised_value]
  rfl

theorem upperBound_value (t : DigitTarget) : t.upperBound.value = t.high := by
  unfold upperBound
  rw [normalised_value, ScaledWord.value, high]
  push_cast
  rfl

theorem upperBound_e (h0 : 0 < t.sig) (hlt : t.sig < 2 ^ 61) :
    t.upperBound.e = t.word.e ∧ t.upperBound.e ≤ t.exp - 2 := by
  have hlog : t.sig.log2 < 61 := (Nat.log2_lt h0.ne').2 hlt
  simp only [upperBound, word, normalised, log2_two_mul_add_one h0]
  omega

theorem lowerBound_value (h0 : 0 < t.sig) (hlt : t.sig < 2 ^ 61) : t.lowerBound.value = t.low := by
  have he := (upperBound_e h0 hlt).2
  have hscale : ∀ (f : ℕ) {e : ℤ}, t.upperBound.e ≤ e →
      ScaledWord.value ⟨f <<< (e - t.upperBound.e).toNat, t.upperBound.e⟩ = f * 2 ^ e := by
    intro f e he
    unfold ScaledWord.value
    rw [← shiftLeft_mul_zpow f (e - t.upperBound.e).toNat e]
    congr 2
    show t.upperBound.e = e - (e - t.upperBound.e).toNat
    omega
  unfold lowerBound low
  cases t.lowerCloser with
  | true =>
    rw [if_pos rfl, if_pos rfl]
    rw [hscale _ he, Nat.cast_sub (by omega)]
    push_cast
    rfl
  | false =>
    rw [if_neg (by simp), if_neg (by simp)]
    rw [hscale _ (by omega), Nat.cast_sub (by omega)]
    push_cast
    rfl

theorem lowerBound_f_lt_word_f (h0 : 0 < t.sig) (hlt : t.sig < 2 ^ 61) : t.lowerBound.f < t.word.f := by
  have hvalue : t.lowerBound.value < t.word.value := by
    rw [lowerBound_value h0 hlt, word_value]
    exact t.low_lt_value
  exact f_lt_of_value (upperBound_e h0 hlt).1 hvalue

theorem word_f_lt_upperBound_f (h0 : 0 < t.sig) (hlt : t.sig < 2 ^ 61) : t.word.f < t.upperBound.f := by
  have hvalue : t.word.value < t.upperBound.value := by
    rw [upperBound_value, word_value]
    exact t.value_lt_high
  exact f_lt_of_value (upperBound_e h0 hlt).1.symm hvalue

theorem lowerBound_f_lt (h0 : 0 < t.sig) (hlt : t.sig < 2 ^ 61) : t.lowerBound.f < t.upperBound.f :=
  (lowerBound_f_lt_word_f h0 hlt).trans (word_f_lt_upperBound_f h0 hlt)

theorem upperBound_bounds (hlt : t.sig < 2 ^ 61) :
    2 ^ 63 ≤ t.upperBound.f ∧ t.upperBound.f < 2 ^ 64 := by
  have hf : 2 * t.sig + 1 < 2 ^ 64 := by omega
  exact normalised_bounds (Nat.succ_pos _) hf

theorem word_f_lt (h0 : 0 < t.sig) (hlt : t.sig < 2 ^ 61) : t.word.f < 2 ^ 64 := by
  have hf : t.sig < 2 ^ 64 := by omega
  exact (normalised_bounds h0 hf).2

/-- Products by a power of ten approximate the target and its bounds. -/
theorem exists_approximation (h0 : 0 < t.sig) (hlt : t.sig < 2 ^ 61) {power : ScaledWord} {k : ℤ}
    (hpower : power.IsPower k) (hlow : 0 < (t.lowerBound.mul power).f) :
    ∃ a : Approximation t, (t.lowerBound.mul power).f = a.low ∧
      (t.word.mul power).f = a.target ∧ (t.upperBound.mul power).f = a.high ∧
      a.scale = 10 ^ k / 2 ^ (t.word.mul power).e := by
  have he := (upperBound_e h0 hlt).1
  have hupper := (upperBound_bounds hlt).2
  have hscaled : ∀ {x : ScaledWord}, x.f < 2 ^ 64 → x.e = t.word.e →
      |((x.mul power).f : ℚ) - x.value * (10 ^ k / 2 ^ (t.word.mul power).e)| < 1 := by
    intro x hx hxe
    have hmul : (t.word.mul power).e = (x.mul power).e := by
      rw [mul, mul, hxe]
    rw [hmul, ← mul_div_assoc]
    exact dist_mul_lt hx hpower
  refine ⟨⟨_, _, _, _, by positivity, hlow, ?_, ?_, ?_⟩, rfl, rfl, rfl, rfl⟩
  · rw [← lowerBound_value h0 hlt]
    exact hscaled ((lowerBound_f_lt h0 hlt).trans hupper) he
  · rw [← word_value]
    exact hscaled (word_f_lt h0 hlt) rfl
  · rw [← upperBound_value]
    exact hscaled hupper he

/-- The product of two words with the top bit set is a word of 63 bits at least. -/
theorem le_mul_f {x y : ScaledWord} (hx : 2 ^ 63 ≤ x.f) (hy : 2 ^ 63 ≤ y.f) : 2 ^ 62 ≤ (x.mul y).f := by
  have hprod : 2 ^ 63 * 2 ^ 63 ≤ x.f * y.f := Nat.mul_le_mul hx hy
  rw [mul_f_eq]
  omega

theorem fastDigits?_eq_some {s : DigitString} (hs : t.fastDigits? = some s) :
    ∃ power k digits exponent, powerFor? t.word.e = some (power, k) ∧
      FastDigits.generate (t.lowerBound.mul power) (t.word.mul power) (t.upperBound.mul power) =
        some (digits, exponent) ∧
      s = ⟨digits.reverse, digits.length - k + exponent⟩ := by
  have hword : ScaledWord.normalised ⟨t.sig, t.exp⟩ = t.word := rfl
  unfold fastDigits? at hs
  cases hpower : powerFor? t.word.e with
  | none =>
    simp only [hword, hpower] at hs
    cases hs
  | some found =>
    obtain ⟨power, k⟩ := found
    simp only [hword, hpower] at hs
    cases hgenerate : FastDigits.generate (t.lowerBound.mul power) (t.word.mul power)
      (t.upperBound.mul power) with
    | none =>
      simp only [hgenerate] at hs
      cases hs
    | some result =>
      simp only [hgenerate] at hs
      exact ⟨power, k, result.1, result.2, rfl, hgenerate, (Option.some.inj hs).symm⟩

/-- Digits that single words give are the shortest. -/
theorem fastDigits?_isShortestOf (h0 : 0 < t.sig) (hlt : t.sig < 2 ^ 61) {s : DigitString}
    (hs : t.fastDigits? = some s) : s.IsShortestOf t := by
  obtain ⟨power, k, digits, exponent, hpower, hgenerate, rfl⟩ := fastDigits?_eq_some hs
  obtain ⟨hnearest, hmin, hmax⟩ := powerFor?_spec hpower
  have hlow : 0 < (t.lowerBound.mul power).f := by
    apply Nat.pos_of_ne_zero
    intro hzero
    unfold FastDigits.generate at hgenerate
    rw [if_pos (Or.inl hzero)] at hgenerate
    cases hgenerate
  obtain ⟨a, halow, hatarget, hahigh, hascale⟩ := exists_approximation h0 hlt hnearest hlow
  have he : (t.word.mul power).e = t.word.e + power.e + 64 := rfl
  simp only [minScaled, maxScaled] at hmin hmax
  have hlarge : 2 ^ (t.word.mul power).e.natAbs ≤ (t.upperBound.mul power).f := by
    refine le_trans ?_ (le_mul_f (upperBound_bounds hlt).1 hnearest.top_le)
    exact Nat.pow_le_pow_right (by decide) (by omega)
  have hfound := FastDigits.generate_found h0 halow hatarget hahigh (by omega) hascale hlarge
    hgenerate
  apply DigitString.isShortestOf_reverse hfound.digits_lt hfound.ne hfound.head
  rw [show (digits.length : ℤ) - k + exponent - digits.length = exponent - k by ring]
  exact hfound.shortest

end DigitTarget

end MachineNumbers
