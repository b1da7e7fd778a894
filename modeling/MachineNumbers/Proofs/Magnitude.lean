import Mathlib
import MachineNumbers.BinaryFloat.Basic

/-!
# Magnitudes of words and the nearest word

`FloatFormat.magnitude` is the number that a word encodes, on a range of exponents without end, so that
the word of infinity stands for the power of two after the greatest finite number.  Magnitudes are
whole numbers of steps of `2^minExp` (`magnitude_eq_steps`), and each word's is greater than the last
(`magnitude_lt_iff`).  `FloatFormat.IsNearestWord` says which word is nearest to a number, ties to even,
and `FloatFormat.RoundsTo` cuts it at infinity; there is one only (`RoundsTo.unique`).
-/

namespace MachineNumbers.FloatFormat

variable (fmt : FloatFormat)

/-- The number that a word encodes: fraction and hidden bit at the exponent of the binade. -/
def magnitude (word : Nat) : ℚ :=
  let exponent := word / fmt.hiddenBit
  let fraction := word % fmt.hiddenBit
  if exponent = 0 then fraction * 2 ^ fmt.minExp
  else (fmt.hiddenBit + fraction : ℕ) * 2 ^ (fmt.minExp + exponent - 1)

/-- The magnitude of a word in steps of `2^minExp`. -/
def steps (word : Nat) : Nat :=
  if word / fmt.hiddenBit = 0 then word
  else (fmt.hiddenBit + word % fmt.hiddenBit) * 2 ^ (word / fmt.hiddenBit - 1)

/-- Half way from the magnitude of a word to the next. -/
def midpoint (word : Nat) : ℚ := (fmt.magnitude word + fmt.magnitude (word + 1)) / 2

/-- `word` encodes the magnitude nearest to `v`, and the even one of two. -/
structure IsNearestWord (v : ℚ) (word : Nat) : Prop where
  lower : 0 < word → fmt.midpoint (word - 1) < v ∨ (fmt.midpoint (word - 1) = v ∧ word % 2 = 0)
  upper : v < fmt.midpoint word ∨ (v = fmt.midpoint word ∧ word % 2 = 0)

/-- `word` encodes the magnitude nearest to `v`, or infinity if that lies beyond all numbers. -/
def RoundsTo (v : ℚ) (word : Nat) : Prop :=
  ∃ w, fmt.IsNearestWord v w ∧ word = min w fmt.infinityWord

/-! ## Format constants -/

theorem hiddenBit_eq : fmt.hiddenBit = 2 ^ fmt.fractionBits := rfl

theorem hiddenBit_pos : 0 < fmt.hiddenBit := Nat.two_pow_pos _

theorem hiddenBit_even : fmt.hiddenBit % 2 = 0 := by
  have := fmt.one_le_fractionBits
  obtain ⟨k, hk⟩ := Nat.exists_eq_add_of_le this
  rw [hiddenBit_eq, hk, Nat.pow_add]
  omega

theorem two_le_hiddenBit : 2 ≤ fmt.hiddenBit := by
  have := fmt.hiddenBit_even
  have := fmt.hiddenBit_pos
  omega

theorem two_pow_precision : 2 ^ fmt.precision = 2 * fmt.hiddenBit := pow_succ' ..

/-- The halves of the exponent range: `2^(exponentBits - 1)` is `bias + 1`. -/
theorem two_pow_exponentBits_pred : 2 ^ (fmt.exponentBits - 1) = fmt.bias + 1 := by
  have := Nat.two_pow_pos (fmt.exponentBits - 1)
  simp only [bias, Nat.pow_eq]
  omega

/-- The exponent field of infinity in terms of the bias. -/
theorem exponentMask_eq : fmt.exponentMask = 2 * fmt.bias + 1 := by
  have h : 2 ^ fmt.exponentBits = 2 * 2 ^ (fmt.exponentBits - 1) := by
    have := fmt.two_le_exponentBits
    rw [← pow_succ']
    congr 1
    omega
  have := fmt.two_pow_exponentBits_pred
  simp only [exponentMask, Nat.pow_eq]
  omega

theorem one_le_bias : 1 ≤ fmt.bias := by
  have h := fmt.two_le_exponentBits
  have h2 : 2 ^ 1 ≤ 2 ^ (fmt.exponentBits - 1) := Nat.pow_le_pow_right (by decide) (by omega)
  have := fmt.two_pow_exponentBits_pred
  omega

/-- The bias of the widest exponent field that is supported. -/
theorem bias_lt : fmt.bias < 16384 := by
  have h := fmt.exponentBits_le
  have h2 : 2 ^ (fmt.exponentBits - 1) ≤ 2 ^ 14 := Nat.pow_le_pow_right (by decide) (by omega)
  have := fmt.two_pow_exponentBits_pred
  omega

/-- The encodings of a sign are the binades of `hiddenBit` numbers each, up to infinity. -/
theorem infinityWord_eq : fmt.infinityWord = (2 * fmt.bias + 1) * fmt.hiddenBit := by
  unfold infinityWord
  rw [exponentMask_eq, hiddenBit]

theorem infinityWord_pos : 0 < fmt.infinityWord := by
  rw [infinityWord_eq]
  exact Nat.mul_pos (by omega) fmt.hiddenBit_pos

theorem infinityWord_even : fmt.infinityWord % 2 = 0 := by
  rw [infinityWord_eq, Nat.mul_mod, hiddenBit_even]
  simp

/-- The words of a sign: those of numbers, the one of infinity and those of NaNs. -/
theorem signWeight_eq : fmt.signWeight = fmt.infinityWord + fmt.hiddenBit := by
  have h : fmt.signWeight = 2 ^ fmt.exponentBits * fmt.hiddenBit := by
    unfold signWeight
    rw [hiddenBit_eq, Nat.pow_eq, pow_add]
  have h2 : 2 ^ fmt.exponentBits = fmt.exponentMask + 1 := by
    have := Nat.two_pow_pos fmt.exponentBits
    simp only [exponentMask, Nat.pow_eq]
    omega
  rw [h, h2, infinityWord, hiddenBit, Nat.add_mul, Nat.one_mul]

/-- The sign bit lies above a word. -/
theorem signWeight_add_eq_or {word : Nat} (h : word < fmt.signWeight) :
    fmt.signWeight + word = fmt.signWeight ||| word := by
  simpa [signWeight] using Nat.two_pow_add_eq_or_of_lt h 1

theorem infinityWord_lt_signWeight : fmt.infinityWord < fmt.signWeight := by
  have := fmt.hiddenBit_pos
  rw [signWeight_eq]
  omega

theorem minExp_eq : fmt.minExp = 1 - fmt.bias - fmt.fractionBits := rfl

/-- The last bit of a subnormal number is never above the point. -/
theorem minExp_nonpos : fmt.minExp ≤ 0 := by
  have := fmt.one_le_bias
  rw [minExp_eq]
  omega

theorem minExp_le_minLead : fmt.minExp ≤ fmt.minLead := sub_le_self _ (Int.natCast_nonneg _)

/-! ## Magnitudes in steps -/

/-- Subnormal numbers are evenly spaced from zero. -/
theorem steps_of_lt {word : Nat} (h : word < fmt.hiddenBit) : fmt.steps word = word := by
  unfold steps
  rw [Nat.div_eq_of_lt h, if_pos rfl]

/-- A significand at the exponent of its binade; the top one is the bottom of the next binade. -/
theorem steps_binade {e k : Nat} (hlow : e = 0 ∨ fmt.hiddenBit ≤ k) (hhigh : k ≤ 2 * fmt.hiddenBit) :
    fmt.steps (e * fmt.hiddenBit + k) = k * 2 ^ e := by
  have hpos := fmt.hiddenBit_pos
  rcases Nat.lt_or_ge k fmt.hiddenBit with hk | hk
  · have he : e = 0 := hlow.resolve_right (by omega)
    rw [he, Nat.zero_mul, Nat.zero_add, steps_of_lt _ hk, pow_zero, Nat.mul_one]
  rcases Nat.lt_or_eq_of_le hhigh with hk2 | hk2
  · have hword : e * fmt.hiddenBit + k = (k - fmt.hiddenBit) + fmt.hiddenBit * (e + 1) := by
      rw [Nat.mul_add, Nat.mul_comm]
      omega
    have hr : k - fmt.hiddenBit < fmt.hiddenBit := by omega
    rw [steps, hword, Nat.add_mul_div_left _ _ hpos, Nat.add_mul_mod_self_left,
      Nat.div_eq_of_lt hr, Nat.mod_eq_of_lt hr, if_neg (by omega)]
    congr 2 <;> omega
  · have hword : e * fmt.hiddenBit + k = 0 + fmt.hiddenBit * (e + 2) := by
      rw [hk2, Nat.mul_add, Nat.mul_comm]
      omega
    rw [steps, hword, Nat.add_mul_div_left _ _ hpos, Nat.add_mul_mod_self_left, Nat.zero_div,
      Nat.zero_mod, if_neg (by omega), hk2, show 0 + (e + 2) - 1 = e + 1 by omega, pow_succ]
    ring

/-- Every word is a significand at the exponent of its binade. -/
theorem exists_binade (word : Nat) :
    ∃ e k, word = e * fmt.hiddenBit + k ∧ (e = 0 ∨ fmt.hiddenBit ≤ k) ∧ k < 2 * fmt.hiddenBit := by
  have hpos := fmt.hiddenBit_pos
  have hdiv := Nat.div_add_mod word fmt.hiddenBit
  have hmod := Nat.mod_lt word hpos
  rcases Nat.eq_zero_or_pos (word / fmt.hiddenBit) with h0 | h0
  · refine ⟨0, word, by omega, Or.inl rfl, ?_⟩
    rw [h0] at hdiv
    omega
  · refine ⟨word / fmt.hiddenBit - 1, fmt.hiddenBit + word % fmt.hiddenBit, ?_, Or.inr (by omega),
      by omega⟩
    obtain ⟨e, he⟩ := Nat.exists_eq_add_of_le h0
    rw [he] at hdiv ⊢
    rw [Nat.mul_add] at hdiv
    rw [show 1 + e - 1 = e by omega, Nat.mul_comm e]
    omega

theorem steps_lt_succ (word : Nat) : fmt.steps word < fmt.steps (word + 1) := by
  obtain ⟨e, k, rfl, hlow, hhigh⟩ := fmt.exists_binade word
  rw [Nat.add_assoc, fmt.steps_binade hlow (by omega), fmt.steps_binade (by omega) (by omega)]
  exact Nat.mul_lt_mul_of_pos_right (by omega) (Nat.two_pow_pos e)

theorem two_zpow_pos (e : ℤ) : (0 : ℚ) < 2 ^ e := by positivity

/-- Every number is a multiple of the least one. -/
theorem magnitude_eq_steps (word : Nat) :
    fmt.magnitude word = fmt.steps word * 2 ^ fmt.minExp := by
  rw [magnitude, steps]
  split
  · next h0 =>
    have := Nat.div_add_mod word fmt.hiddenBit
    rw [h0, Nat.mul_zero, Nat.zero_add] at this
    rw [this]
  · next h0 =>
    obtain ⟨e, he⟩ := Nat.exists_eq_succ_of_ne_zero h0
    rw [he, Nat.succ_sub_one, show fmt.minExp + (e.succ : ℕ) - 1 = e + fmt.minExp by omega,
      zpow_add₀ (by norm_num), zpow_natCast]
    push_cast
    ring

/-- A significand at the exponent of its binade, as a number. -/
theorem magnitude_binade {e k : Nat} (hlow : e = 0 ∨ fmt.hiddenBit ≤ k)
    (hhigh : k ≤ 2 * fmt.hiddenBit) :
    fmt.magnitude (e * fmt.hiddenBit + k) = k * 2 ^ (fmt.minExp + e) := by
  rw [magnitude_eq_steps, fmt.steps_binade hlow hhigh, zpow_add₀ (by norm_num), zpow_natCast]
  push_cast
  ring

/-- Encodings of one sign are ordered as their magnitudes, which is what all of rounding rests on. -/
theorem magnitude_strictMono : StrictMono fmt.magnitude := by
  apply strictMono_nat_of_lt_succ
  intro word
  rw [magnitude_eq_steps, magnitude_eq_steps]
  exact mul_lt_mul_of_pos_right (by exact_mod_cast fmt.steps_lt_succ word) (two_zpow_pos _)

theorem magnitude_lt_iff {a b : Nat} : fmt.magnitude a < fmt.magnitude b ↔ a < b :=
  fmt.magnitude_strictMono.lt_iff_lt

theorem magnitude_le_iff {a b : Nat} : fmt.magnitude a ≤ fmt.magnitude b ↔ a ≤ b :=
  fmt.magnitude_strictMono.le_iff_le

theorem magnitude_injective : Function.Injective fmt.magnitude := fmt.magnitude_strictMono.injective

theorem magnitude_zero : fmt.magnitude 0 = 0 := by
  rw [magnitude_eq_steps, steps_of_lt _ fmt.hiddenBit_pos, Nat.cast_zero, zero_mul]

theorem magnitude_one : fmt.magnitude 1 = 2 ^ fmt.minExp := by
  rw [magnitude_eq_steps, steps_of_lt _ fmt.two_le_hiddenBit, Nat.cast_one, one_mul]

theorem magnitude_pos_iff {word : Nat} : 0 < fmt.magnitude word ↔ 0 < word := by
  rw [← fmt.magnitude_lt_iff, fmt.magnitude_zero]

theorem magnitude_nonneg (word : Nat) : 0 ≤ fmt.magnitude word := by
  rw [← fmt.magnitude_zero]
  exact fmt.magnitude_le_iff.2 (Nat.zero_le _)

/-- The bottom of a binade is a power of two. -/
theorem magnitude_bottom (e : Nat) :
    fmt.magnitude (e * fmt.hiddenBit + fmt.hiddenBit) = 2 ^ (fmt.minLead + e) := by
  rw [fmt.magnitude_binade (Or.inr le_rfl) (by omega), hiddenBit_eq, Nat.cast_pow, ← zpow_natCast,
    Nat.cast_ofNat, ← zpow_add₀ (by norm_num)]
  congr 1
  unfold minExp
  ring

/-- The word of infinity stands for the power of two after the greatest finite number. -/
theorem magnitude_infinityWord : fmt.magnitude fmt.infinityWord = 2 ^ (fmt.maxLead + 1) := by
  have hword : fmt.infinityWord = (2 * fmt.bias) * fmt.hiddenBit + fmt.hiddenBit := by
    rw [infinityWord_eq]
    ring
  rw [hword, magnitude_bottom]
  congr 1
  unfold minLead maxLead
  push_cast
  ring

/-! ## Powers of two -/

/-- A power of two in the normal range has an empty fraction field. -/
theorem powerOfTwoWord_eq {e : ℤ} (he : fmt.minLead ≤ e) :
    fmt.powerOfTwoWord e = (e - fmt.minLead).toNat * fmt.hiddenBit + fmt.hiddenBit := by
  unfold powerOfTwoWord
  rw [if_pos he, ← Nat.succ_mul]
  congr 1
  unfold minLead at he ⊢
  omega

/-- A fraction beside the hidden bit, at the exponent of the power. -/
theorem magnitude_powerOfTwoWord_add {e : ℤ} (he : fmt.minLead ≤ e) {k : Nat} (hk : k ≤ fmt.hiddenBit) :
    fmt.magnitude (fmt.powerOfTwoWord e + k) =
      (fmt.hiddenBit + k : ℕ) * 2 ^ (e - fmt.fractionBits) := by
  rw [fmt.powerOfTwoWord_eq he, Nat.add_assoc, fmt.magnitude_binade (Or.inr (by omega)) (by omega)]
  congr 2
  unfold minExp
  omega

/-- The encoding of a power of two, subnormal ones included. -/
theorem magnitude_powerOfTwoWord {e : ℤ} (he : fmt.minExp ≤ e) :
    fmt.magnitude (fmt.powerOfTwoWord e) = 2 ^ e := by
  rcases lt_or_ge e fmt.minLead with hlow | hnormal
  · obtain ⟨d, hd⟩ := Int.eq_ofNat_of_zero_le (sub_nonneg.2 he)
    have hword : fmt.powerOfTwoWord e = 2 ^ d := by
      unfold powerOfTwoWord
      rw [if_neg hlow.not_ge, hd]
      rfl
    have hlt : 2 ^ d < fmt.hiddenBit := by
      rw [hiddenBit_eq]
      refine Nat.pow_lt_pow_right (by decide) ?_
      unfold minExp at hd
      omega
    rw [hword, magnitude_eq_steps, steps_of_lt _ hlt, show e = d + fmt.minExp by omega,
      zpow_add₀ (by norm_num), zpow_natCast]
    push_cast
    rfl
  · have h := fmt.magnitude_powerOfTwoWord_add hnormal (Nat.zero_le _)
    rw [Nat.add_zero, Nat.add_zero, hiddenBit_eq, Nat.cast_pow, Nat.cast_ofNat, ← zpow_natCast,
      ← zpow_add₀ (by norm_num), add_sub_cancel] at h
    exact h

theorem hiddenBit_le_powerOfTwoWord {e : ℤ} (he : fmt.minLead ≤ e) :
    fmt.hiddenBit ≤ fmt.powerOfTwoWord e := by
  rw [fmt.powerOfTwoWord_eq he]
  exact Nat.le_add_left ..

theorem powerOfTwoWord_lt {e : ℤ} (hlow : fmt.minExp ≤ e) (hhigh : e ≤ fmt.maxLead) :
    fmt.powerOfTwoWord e < fmt.infinityWord := by
  rw [← fmt.magnitude_lt_iff, fmt.magnitude_powerOfTwoWord hlow, magnitude_infinityWord]
  exact zpow_lt_zpow_right₀ (by norm_num) (by omega)

/-! ## Midpoints and the nearest word -/

/-- Half way lies strictly between a number and the next. -/
theorem magnitude_lt_midpoint (word : Nat) : fmt.magnitude word < fmt.midpoint word := by
  have := fmt.magnitude_lt_iff.2 (Nat.lt_succ_self word)
  unfold midpoint
  linarith

theorem midpoint_lt_magnitude (word : Nat) : fmt.midpoint word < fmt.magnitude (word + 1) := by
  have := fmt.magnitude_lt_iff.2 (Nat.lt_succ_self word)
  unfold midpoint
  linarith

/-- Half way up from a significand at the exponent of its binade. -/
theorem midpoint_binade {e k : Nat} (hlow : e = 0 ∨ fmt.hiddenBit ≤ k)
    (hhigh : k < 2 * fmt.hiddenBit) :
    fmt.midpoint (e * fmt.hiddenBit + k) = (k + 1 / 2) * 2 ^ (fmt.minExp + e) := by
  unfold midpoint
  rw [Nat.add_assoc, fmt.magnitude_binade hlow hhigh.le, fmt.magnitude_binade (by omega) (by omega)]
  push_cast
  ring

theorem midpoint_nonneg (word : Nat) : 0 ≤ fmt.midpoint word :=
  (fmt.magnitude_nonneg word).trans (fmt.magnitude_lt_midpoint word).le

theorem midpoint_strictMono : StrictMono fmt.midpoint :=
  strictMono_nat_of_lt_succ fun word =>
    (fmt.midpoint_lt_magnitude word).trans (fmt.magnitude_lt_midpoint (word + 1))

variable {fmt} {v : ℚ} {a b : Nat}

/-- Past the midpoint the upper neighbour is no further away. -/
theorem dist_succ_le_iff :
    |fmt.magnitude (a + 1) - v| ≤ |fmt.magnitude a - v| ↔ fmt.midpoint a ≤ v := by
  have hlt : fmt.magnitude a < fmt.magnitude (a + 1) := fmt.magnitude_lt_iff.2 (by omega)
  unfold midpoint
  constructor
  · intro h
    by_contra hcon
    have hlower : |fmt.magnitude a - v| < fmt.magnitude (a + 1) - v :=
      abs_lt.2 ⟨by linarith, by linarith⟩
    exact absurd (hlower.trans_le (le_abs_self _)) (not_lt.2 h)
  · intro h
    rw [abs_of_nonpos (show fmt.magnitude a - v ≤ 0 by linarith)]
    exact abs_le.2 ⟨by linarith, by linarith⟩

theorem dist_le_succ_iff :
    |fmt.magnitude a - v| ≤ |fmt.magnitude (a + 1) - v| ↔ v ≤ fmt.midpoint a := by
  have hlt : fmt.magnitude a < fmt.magnitude (a + 1) := fmt.magnitude_lt_iff.2 (by omega)
  unfold midpoint
  constructor
  · intro h
    by_contra hcon
    have hupper : |fmt.magnitude (a + 1) - v| < -(fmt.magnitude a - v) :=
      abs_lt.2 ⟨by linarith, by linarith⟩
    exact absurd (hupper.trans_le (neg_le_abs _)) (not_lt.2 h)
  · intro h
    rw [abs_of_nonneg (show 0 ≤ fmt.magnitude (a + 1) - v by linarith)]
    exact abs_le.2 ⟨by linarith, by linarith⟩

namespace IsNearestWord

/-- A nearest encoding lies past every midpoint below it. -/
theorem midpoint_le (h : fmt.IsNearestWord v a) {u : Nat} (hu : u < a) : fmt.midpoint u ≤ v := by
  have hmono : fmt.midpoint u ≤ fmt.midpoint (a - 1) :=
    fmt.midpoint_strictMono.monotone (by omega)
  rcases h.lower (by omega) with hlt | ⟨heq, -⟩
  · exact hmono.trans hlt.le
  · exact hmono.trans heq.le

theorem le_midpoint (h : fmt.IsNearestWord v a) : v ≤ fmt.midpoint a := by
  rcases h.upper with hlt | ⟨heq, -⟩
  · exact hlt.le
  · exact heq.le

theorem not_lt (ha : fmt.IsNearestWord v a) (hb : fmt.IsNearestWord v b) : ¬ a < b := by
  intro hab
  -- the midpoint above `a` is `v`, and so is the one below `b`: both are even, and adjacent
  have h1 : fmt.midpoint a ≤ v := hb.midpoint_le hab
  have h2 : v = fmt.midpoint a := le_antisymm ha.le_midpoint h1
  have hpar : a % 2 = 0 := (ha.upper.resolve_left (by linarith)).2
  have hb1 : b = a + 1 := by
    by_contra hne
    have : fmt.midpoint (a + 1) ≤ v := hb.midpoint_le (by omega)
    have := fmt.midpoint_strictMono (Nat.lt_succ_self a)
    linarith
  subst hb1
  have hpar' := (hb.lower (by omega)).resolve_left (by rw [Nat.add_sub_cancel]; linarith)
  omega

/-- Ties to even leave one nearest encoding. -/
theorem unique (ha : fmt.IsNearestWord v a) (hb : fmt.IsNearestWord v b) : a = b :=
  Nat.le_antisymm (Nat.not_lt.1 (hb.not_lt ha)) (Nat.not_lt.1 (ha.not_lt hb))

/-- A magnitude is nearest to itself. -/
theorem of_magnitude (word : Nat) : fmt.IsNearestWord (fmt.magnitude word) word where
  lower h := by
    have := fmt.midpoint_lt_magnitude (word - 1)
    rw [Nat.sub_add_cancel h] at this
    exact Or.inl this
  upper := Or.inl (fmt.magnitude_lt_midpoint word)

/-- Every number has a nearest word. -/
theorem exists_isNearestWord (v : ℚ) : ∃ w, fmt.IsNearestWord v w := by
  have hex : ∃ w, v < fmt.midpoint w ∨ (v = fmt.midpoint w ∧ w % 2 = 0) := by
    obtain ⟨n, hn⟩ := exists_nat_gt (v / 2 ^ fmt.minExp)
    rw [div_lt_iff₀ (two_zpow_pos _)] at hn
    refine ⟨n, Or.inl (hn.trans ((le_trans ?_ (fmt.magnitude_eq_steps n).ge).trans_lt
      (fmt.magnitude_lt_midpoint n)))⟩
    have hsteps : n ≤ fmt.steps n := (strictMono_nat_of_lt_succ fmt.steps_lt_succ).le_apply
    exact mul_le_mul_of_nonneg_right (by exact_mod_cast hsteps) (two_zpow_pos _).le
  classical
  refine ⟨Nat.find hex, ⟨?_, Nat.find_spec hex⟩⟩
  intro hpos
  -- the word before fails the test, so its midpoint does not lie above
  have hmin := Nat.find_min hex (m := Nat.find hex - 1) (by omega)
  push Not at hmin
  rcases hmin.1.lt_or_eq with h | h
  · exact Or.inl h
  · have := hmin.2 h.symm
    exact Or.inr ⟨h, by omega⟩

/-- An even encoding takes all from the midpoint below it, the tie included. -/
theorem le_iff (h : fmt.IsNearestWord v a) {u : Nat} (hu : u % 2 = 0) (hpos : 0 < u) :
    u ≤ a ↔ fmt.midpoint (u - 1) ≤ v := by
  constructor
  · intro hle
    exact h.midpoint_le (by omega)
  · intro hmid
    by_contra hlt
    rcases Nat.lt_or_ge a (u - 1) with h1 | h1
    · have := fmt.midpoint_strictMono h1
      have := h.le_midpoint
      linarith
    · have ha : a = u - 1 := by omega
      rcases h.upper with h2 | ⟨-, h2⟩
      · rw [ha] at h2
        linarith
      · omega

/-- No other word's magnitude is nearer, and as near only if this word is even. -/
theorem dist_le (h : fmt.IsNearestWord v a) {u : Nat} (hu : u ≠ a) :
    |fmt.magnitude a - v| ≤ |fmt.magnitude u - v| ∧
      (|fmt.magnitude a - v| = |fmt.magnitude u - v| → a % 2 = 0) := by
  rcases Nat.lt_or_gt_of_ne hu with hlt | hgt
  · have hmag : fmt.magnitude u ≤ fmt.magnitude (a - 1) := fmt.magnitude_le_iff.2 (by omega)
    have hmag' : fmt.magnitude (a - 1) < fmt.magnitude a := fmt.magnitude_lt_iff.2 (by omega)
    have hmid : fmt.midpoint (a - 1) = (fmt.magnitude (a - 1) + fmt.magnitude a) / 2 := by
      unfold midpoint
      rw [Nat.sub_add_cancel (by omega)]
    have hle := h.midpoint_le (u := a - 1) (by omega)
    rw [abs_of_nonpos (show fmt.magnitude u - v ≤ 0 by linarith)]
    constructor
    · exact abs_le.2 ⟨by linarith, by linarith⟩
    · intro heq
      refine ((h.lower (by omega)).resolve_left ?_).2
      intro hstrict
      have : |fmt.magnitude a - v| < -(fmt.magnitude u - v) :=
        abs_lt.2 ⟨by linarith, by linarith⟩
      linarith
  · have hmag : fmt.magnitude (a + 1) ≤ fmt.magnitude u := fmt.magnitude_le_iff.2 hgt
    have hmag' : fmt.magnitude a < fmt.magnitude (a + 1) := fmt.magnitude_lt_iff.2 (by omega)
    have hmid : fmt.midpoint a = (fmt.magnitude a + fmt.magnitude (a + 1)) / 2 := rfl
    have hle := h.le_midpoint
    rw [abs_of_nonneg (show 0 ≤ fmt.magnitude u - v by linarith)]
    constructor
    · exact abs_le.2 ⟨by linarith, by linarith⟩
    · intro heq
      refine (h.upper.resolve_left ?_).2
      intro hstrict
      have : |fmt.magnitude a - v| < fmt.magnitude u - v :=
        abs_lt.2 ⟨by linarith, by linarith⟩
      linarith

end IsNearestWord

theorem RoundsTo.unique (ha : fmt.RoundsTo v a) (hb : fmt.RoundsTo v b) : a = b := by
  obtain ⟨w, hw, rfl⟩ := ha
  obtain ⟨u, hu, rfl⟩ := hb
  rw [hw.unique hu]

/-- From the place of infinity on, everything rounds to it. -/
theorem RoundsTo.of_infinite (h : fmt.magnitude fmt.infinityWord ≤ v) :
    fmt.RoundsTo v fmt.infinityWord := by
  obtain ⟨w, hw⟩ := @IsNearestWord.exists_isNearestWord fmt v
  have hmid := fmt.midpoint_lt_magnitude (fmt.infinityWord - 1)
  rw [Nat.sub_add_cancel fmt.infinityWord_pos] at hmid
  have := (hw.le_iff fmt.infinityWord_even fmt.infinityWord_pos).2 (hmid.le.trans h)
  exact ⟨w, hw, (Nat.min_eq_right this).symm⟩

/-- Less than half of the least number rounds to zero. -/
theorem RoundsTo.of_tiny (h : v < fmt.midpoint 0) : fmt.RoundsTo v 0 :=
  ⟨0, ⟨fun h0 => absurd h0 (by decide), Or.inl h⟩, (Nat.zero_min _).symm⟩

theorem RoundsTo.of_magnitude (word : Nat) :
    fmt.RoundsTo (fmt.magnitude word) (min word fmt.infinityWord) :=
  ⟨word, .of_magnitude word, rfl⟩

end MachineNumbers.FloatFormat
