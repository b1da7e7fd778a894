import Mathlib
import MachineNumbers.Decimal.Digits.Basic
import MachineNumbers.Proofs.Positional
import MachineNumbers.Proofs.Rounding

/-!
# Shortest decimals of a target

A target covers the numbers between its bounds, which are half way to the neighbours and belong to it
if the significand is even: for a float these are the numbers that round to it
(`covers_ofFloat_iff`).  `DigitTarget.IsShortest` says that `n × 10^p` is covered, that no multiple of
the next power of ten is, and that of the multiples of this one it is the nearest.  There is one only
(`IsShortest.unique`), and no decimal of fewer digits is covered (`IsShortest.not_covers`).
-/

namespace MachineNumbers

namespace DigitTarget

/-- The number whose digits are wanted. -/
def value (t : DigitTarget) : ℚ := t.sig * 2 ^ t.exp

/-- Half way to the number below. -/
def low (t : DigitTarget) : ℚ :=
  if t.lowerCloser then (4 * t.sig - 1) * 2 ^ (t.exp - 2) else (2 * t.sig - 1) * 2 ^ (t.exp - 1)

/-- Half way to the number above. -/
def high (t : DigitTarget) : ℚ := (2 * t.sig + 1) * 2 ^ (t.exp - 1)

/-- Above the lower bound, or at it if it belongs to the target. -/
def Above (t : DigitTarget) (c : ℚ) : Prop := if t.sig % 2 = 0 then t.low ≤ c else t.low < c

def Below (t : DigitTarget) (c : ℚ) : Prop := if t.sig % 2 = 0 then c ≤ t.high else c < t.high

/-- The number rounds to the target. -/
def Covers (t : DigitTarget) (c : ℚ) : Prop := t.Above c ∧ t.Below c

/-- `n × 10^p` is the shortest decimal that rounds to the target, and the nearest of these, the upper
one if there are two. -/
structure IsShortest (t : DigitTarget) (n : ℕ) (p : ℤ) : Prop where
  covers : t.Covers (n * 10 ^ p)
  coarser : ∀ m : ℕ, ¬t.Covers (m * 10 ^ (p + 1))
  nearest : ∀ m : ℕ, t.Covers (m * 10 ^ p) → |n * 10 ^ p - t.value| ≤ |m * 10 ^ p - t.value|
  upper_of_tie : ∀ m : ℕ, t.Covers (m * 10 ^ p) →
    |n * 10 ^ p - t.value| = |m * 10 ^ p - t.value| → m ≤ n

variable {t : DigitTarget}

/-! ## Bounds -/

theorem low_pos (h : 0 < t.sig) : 0 < t.low := by
  have h1 : (1 : ℚ) ≤ t.sig := by exact_mod_cast h
  unfold low
  split
  · exact mul_pos (by linarith) (by positivity)
  · exact mul_pos (by linarith) (by positivity)

theorem high_pos (t : DigitTarget) : 0 < t.high := by
  rw [high]
  positivity

/-- The value on the scale of its half gaps. -/
theorem value_eq_half (t : DigitTarget) : t.value = 2 * t.sig * 2 ^ (t.exp - 1) := by
  unfold value
  rw [zpow_sub₀ (by norm_num), zpow_one]
  ring

/-- The value on the scale where the narrow gap below a power of two is whole. -/
theorem value_eq_quarter (t : DigitTarget) : t.value = 4 * t.sig * 2 ^ (t.exp - 2) := by
  unfold value
  rw [zpow_sub₀ (by norm_num)]
  norm_num
  ring

theorem low_lt_value (t : DigitTarget) : t.low < t.value := by
  have hpow : (0 : ℚ) < 2 ^ (t.exp - 1) := by positivity
  have hpow' : (0 : ℚ) < 2 ^ (t.exp - 2) := by positivity
  unfold low
  split
  · rw [value_eq_quarter]
    exact mul_lt_mul_of_pos_right (by linarith) hpow'
  · rw [value_eq_half]
    exact mul_lt_mul_of_pos_right (by linarith) hpow

theorem value_lt_high (t : DigitTarget) : t.value < t.high := by
  rw [value_eq_half, high]
  exact mul_lt_mul_of_pos_right (by linarith) (by positivity)

/-- What lies above the lower end stays there when it grows. -/
theorem Above.mono {a b : ℚ} (h : t.Above a) (hab : a ≤ b) : t.Above b := by
  unfold Above at h ⊢
  split
  · rw [if_pos ‹_›] at h
    exact h.trans hab
  · rw [if_neg ‹_›] at h
    exact h.trans_le hab

theorem Below.mono {a b : ℚ} (h : t.Below b) (hab : a ≤ b) : t.Below a := by
  unfold Below at h ⊢
  split
  · rw [if_pos ‹_›] at h
    exact hab.trans h
  · rw [if_neg ‹_›] at h
    exact hab.trans_lt h

/-- Strictly inside, no end has to be covered. -/
theorem above_of_lt {c : ℚ} (h : t.low < c) : t.Above c := by
  unfold Above
  split
  · exact h.le
  · exact h

theorem below_of_lt {c : ℚ} (h : c < t.high) : t.Below c := by
  unfold Below
  split
  · exact h.le
  · exact h

theorem Above.low_le {c : ℚ} (h : t.Above c) : t.low ≤ c := by
  unfold Above at h
  split at h
  · exact h
  · exact h.le

theorem Below.le_high {c : ℚ} (h : t.Below c) : c ≤ t.high := by
  unfold Below at h
  split at h
  · exact h
  · exact h.le

theorem above_value (t : DigitTarget) : t.Above t.value := above_of_lt t.low_lt_value

theorem below_value (t : DigitTarget) : t.Below t.value := below_of_lt t.value_lt_high

/-- Digits of a nonzero number are not all zero. -/
theorem Covers.pos (h : 0 < t.sig) {c : ℚ} (hc : t.Covers c) : 0 < c :=
  (low_pos h).trans_le hc.1.low_le

/-- With a gap between two multiples that reaches over both bounds no multiple is covered. -/
theorem not_covers_of_gap {n : ℕ} {p : ℤ} (hlow : ¬t.Above (n * 10 ^ p))
    (hhigh : ¬t.Below ((n + 1) * 10 ^ p)) (m : ℕ) : ¬t.Covers (m * 10 ^ p) := by
  have hpow : (0 : ℚ) ≤ 10 ^ p := by positivity
  rintro ⟨habove, hbelow⟩
  rcases Nat.lt_or_ge n m with h | h
  · have h1 : (n + 1 : ℚ) ≤ m := by exact_mod_cast h
    exact hhigh (hbelow.mono (mul_le_mul_of_nonneg_right h1 hpow))
  · have h1 : (m : ℚ) ≤ n := by exact_mod_cast h
    exact hlow (habove.mono (mul_le_mul_of_nonneg_right h1 hpow))

/-! ## Shortest decimals -/

/-- A multiple is the shortest decimal if it is nearer than every other one that is covered. -/
theorem IsShortest.of_nearer {n : ℕ} {p : ℤ} {x : ℚ} (hx : t.value = x * 10 ^ p)
    (hcovers : t.Covers (n * 10 ^ p)) (hcoarser : ∀ m : ℕ, ¬t.Covers (m * 10 ^ (p + 1)))
    (h : ∀ m : ℕ, m ≠ n → t.Covers (m * 10 ^ p) →
      |n - x| < |m - x| ∨ (|n - x| = |m - x| ∧ m < n)) : t.IsShortest n p := by
  have hpow : (0 : ℚ) < 10 ^ p := by positivity
  have hdist : ∀ m : ℕ, |m * 10 ^ p - t.value| = |m - x| * 10 ^ p := by
    intro m
    rw [hx, ← sub_mul, abs_mul, abs_of_pos hpow]
  refine ⟨hcovers, hcoarser, ?_, ?_⟩
  · intro m hm
    rw [hdist, hdist]
    refine mul_le_mul_of_nonneg_right ?_ hpow.le
    rcases eq_or_ne m n with rfl | hne
    · exact le_rfl
    · rcases h m hne hm with hlt | ⟨heq, -⟩
      · exact hlt.le
      · exact heq.le
  · intro m hm htie
    rw [hdist, hdist, mul_left_inj' hpow.ne'] at htie
    rcases eq_or_ne m n with rfl | hne
    · exact le_rfl
    · rcases h m hne hm with hlt | ⟨-, hlt⟩
      · exact absurd htie hlt.ne
      · exact hlt.le

/-- Multiples of a higher power of ten are multiples of a lower one. -/
theorem coarser_eq {p q : ℤ} (h : p ≤ q) (n : ℕ) :
    ∃ m : ℕ, (n : ℚ) * 10 ^ q = m * 10 ^ p := by
  obtain ⟨k, hk⟩ := Int.eq_ofNat_of_zero_le (Int.sub_nonneg.2 h)
  refine ⟨n * 10 ^ k, ?_⟩
  rw [show q = p + k by omega, zpow_add₀ (by norm_num), zpow_natCast]
  push_cast
  ring

/-- No covered decimal has a larger exponent than a shortest one. -/
theorem IsShortest.le_exp {n m : ℕ} {p q : ℤ} (hn : t.IsShortest n p) (hm : t.Covers (m * 10 ^ q)) :
    q ≤ p := by
  by_contra hlt
  obtain ⟨k, hk⟩ := coarser_eq (by omega : p + 1 ≤ q) m
  exact hn.coarser k (hk ▸ hm)

/-- There is one shortest decimal, since ties go to the upper one. -/
theorem IsShortest.unique {n m : ℕ} {p q : ℤ} (hn : t.IsShortest n p) (hm : t.IsShortest m q) :
    n = m ∧ p = q := by
  have hp := hm.le_exp hn.covers
  have hq := hn.le_exp hm.covers
  obtain rfl : p = q := by omega
  have htie := le_antisymm (hn.nearest m hm.covers) (hm.nearest n hn.covers)
  have h1 := hn.upper_of_tie m hm.covers htie
  have h2 := hm.upper_of_tie n hn.covers htie.symm
  exact ⟨by omega, rfl⟩

theorem IsShortest.pos (h : 0 < t.sig) {n : ℕ} {p : ℤ} (hn : t.IsShortest n p) : 0 < n := by
  apply Nat.pos_of_ne_zero
  intro h0
  have := hn.covers.pos h
  rw [h0, Nat.cast_zero, zero_mul] at this
  exact lt_irrefl _ this

/-- A shortest decimal ends in a digit that is not zero; it would be shorter without it. -/
theorem IsShortest.mod_ten_ne_zero {n : ℕ} {p : ℤ} (hn : t.IsShortest n p) : n % 10 ≠ 0 := by
  intro h0
  obtain ⟨k, rfl⟩ := Nat.dvd_of_mod_eq_zero h0
  apply hn.coarser k
  have := hn.covers
  rwa [zpow_add₀ (by norm_num), zpow_one, show (k : ℚ) * (10 ^ p * 10) = (10 * k : ℕ) * 10 ^ p by
    push_cast; ring]

/-- No decimal of fewer digits is covered, whatever its exponent. -/
theorem IsShortest.not_covers (h : 0 < t.sig) {n len : ℕ} {p : ℤ} (hn : t.IsShortest n p)
    (hlen : 10 ^ len ≤ n) {c : ℕ} (hc : c < 10 ^ len) (q : ℤ) : ¬t.Covers (c * 10 ^ q) := by
  intro hcov
  have hqp := hn.le_exp hcov
  rcases Nat.eq_zero_or_pos len with rfl | hpos
  · have := hcov.pos h
    rw [Nat.lt_one_iff.1 hc, Nat.cast_zero, zero_mul] at this
    exact lt_irrefl _ this
  -- the power of ten between the two decimals is covered too, and it is coarser
  · have hmid : t.Covers ((10 ^ len : ℕ) * 10 ^ p) := by
      constructor
      · apply hcov.1.mono
        calc (c : ℚ) * 10 ^ q ≤ c * 10 ^ p :=
              mul_le_mul_of_nonneg_left (zpow_le_zpow_right₀ (by norm_num) hqp) (by positivity)
          _ ≤ (10 ^ len : ℕ) * 10 ^ p :=
              mul_le_mul_of_nonneg_right (by exact_mod_cast hc.le) (by positivity)
      · exact hn.covers.2.mono (mul_le_mul_of_nonneg_right (by exact_mod_cast hlen) (by positivity))
    apply hn.coarser (10 ^ (len - 1))
    have hsplit : (10 : ℕ) ^ len = 10 ^ (len - 1) * 10 := by
      rw [← pow_succ, Nat.sub_add_cancel hpos]
    rw [hsplit] at hmid
    rw [zpow_add₀ (by norm_num), zpow_one]
    push_cast at hmid ⊢
    rwa [mul_right_comm, mul_assoc] at hmid

/-! ## Targets of floats -/

variable {fmt : FloatFormat}

/-- The binade of a float, where the magnitude below is nearer only at the bottom of one above the first. -/
theorem ofFloat_binade (x : BinaryFloat fmt) : ∃ e : ℕ, (ofFloat x).exp = fmt.minExp + e ∧
    x.word = e * fmt.hiddenBit + (ofFloat x).sig ∧ (e = 0 ∨ fmt.hiddenBit ≤ (ofFloat x).sig) ∧
    (ofFloat x).sig < 2 * fmt.hiddenBit ∧
    ((ofFloat x).lowerCloser = true ↔ e ≠ 0 ∧ (ofFloat x).sig = fmt.hiddenBit) := by
  obtain ⟨e, hexp, hword, hlow⟩ := BinaryFloat.unpack_binade x
  have hlt := BinaryFloat.unpack_sig_lt x
  refine ⟨e, hexp, hword, hlow, hlt, ?_⟩
  have hcloser : (ofFloat x).lowerCloser = true ↔
      x.word % fmt.hiddenBit = 0 ∧ 1 < x.word / fmt.hiddenBit := by
    unfold ofFloat
    rw [Bool.and_eq_true, beq_iff_eq, decide_eq_true_eq]
    rfl
  rw [hcloser, hword]
  show _ ↔ e ≠ 0 ∧ (x.unpack .gradual).sig = fmt.hiddenBit
  generalize (x.unpack .gradual).sig = sig at hlow hlt
  have hpos := fmt.hiddenBit_pos
  rw [Nat.add_comm, Nat.add_mul_mod_self_right, Nat.add_mul_div_right _ _ hpos]
  rcases Nat.lt_or_ge sig fmt.hiddenBit with hsub | hnormal
  · rw [Nat.mod_eq_of_lt hsub, Nat.div_eq_of_lt hsub]
    omega
  · obtain ⟨r, rfl⟩ := Nat.exists_eq_add_of_le hnormal
    have hr : r < fmt.hiddenBit := by omega
    rw [Nat.add_mod_left, Nat.mod_eq_of_lt hr, Nat.add_div_left _ hpos, Nat.div_eq_of_lt hr]
    omega

theorem value_ofFloat (x : BinaryFloat fmt) : (ofFloat x).value = fmt.magnitude x.word :=
  (BinaryFloat.magnitude_unpack x).symm

theorem sig_ofFloat_pos {x : BinaryFloat fmt} (h0 : x.word ≠ 0) : 0 < (ofFloat x).sig :=
  Nat.pos_of_ne_zero fun h => h0 ((BinaryFloat.unpack_sig_eq_zero_iff x).1 h)

/-- The upper end is the midpoint with the next number. -/
theorem high_ofFloat (x : BinaryFloat fmt) : (ofFloat x).high = fmt.midpoint x.word := by
  have hnext : fmt.magnitude (x.word + 1) = ((ofFloat x).sig + 1) * 2 ^ (ofFloat x).exp :=
    BinaryFloat.magnitude_succ_word x
  unfold FloatFormat.midpoint
  rw [hnext, ← value_ofFloat, value, high, zpow_sub₀ (by norm_num), zpow_one]
  ring

/-- The lower end is the midpoint with the number before. -/
theorem low_ofFloat {x : BinaryFloat fmt} (h0 : x.word ≠ 0) :
    (ofFloat x).low = fmt.midpoint (x.word - 1) := by
  have hpos := sig_ofFloat_pos h0
  obtain ⟨e, hexp, hword, hlow, hlt, hcloser⟩ := ofFloat_binade x
  unfold FloatFormat.midpoint
  rw [Nat.sub_add_cancel (Nat.pos_of_ne_zero h0), ← value_ofFloat, low]
  split
  · next hlc =>
    -- the word below is the last one of the binade below
    obtain ⟨he, hsig⟩ := hcloser.1 hlc
    obtain ⟨e, rfl⟩ := Nat.exists_eq_succ_of_ne_zero he
    have hbelow : x.word - 1 = e * fmt.hiddenBit + (2 * fmt.hiddenBit - 1) := by
      rw [hword, hsig, Nat.succ_mul]
      omega
    have hmag : fmt.magnitude (x.word - 1) =
        (2 * (ofFloat x).sig - 1) * 2 ^ ((ofFloat x).exp - 1) := by
      rw [hbelow, fmt.magnitude_binade (Or.inr (by omega)) (by omega), hexp, hsig,
        Nat.cast_sub (by omega), show fmt.minExp + (e.succ : ℤ) - 1 = fmt.minExp + e by
          push_cast; ring]
      push_cast
      rfl
    rw [hmag, value_eq_half, show (ofFloat x).exp - 1 = (ofFloat x).exp - 2 + 1 by ring,
      zpow_add₀ (by norm_num), zpow_one]
    ring
  · next hlc =>
    have hbelow : x.word - 1 = e * fmt.hiddenBit + ((ofFloat x).sig - 1) := by omega
    have hkept : e = 0 ∨ fmt.hiddenBit ≤ (ofFloat x).sig - 1 := by
      rcases Nat.eq_zero_or_pos e with he | he
      · exact Or.inl he
      · right
        have hne : (ofFloat x).sig ≠ fmt.hiddenBit := fun h => hlc (hcloser.2 ⟨by omega, h⟩)
        omega
    have hmag : fmt.magnitude (x.word - 1) = ((ofFloat x).sig - 1) * 2 ^ (ofFloat x).exp := by
      rw [hbelow, fmt.magnitude_binade hkept (by omega), hexp, Nat.cast_sub hpos]
      push_cast
      rfl
    rw [hmag, value, zpow_sub₀ (by norm_num), zpow_one]
    ring

/-- The target of a float covers what rounds to the float. -/
theorem covers_ofFloat_iff {x : BinaryFloat fmt} (h0 : x.word ≠ 0) (c : ℚ) :
    (ofFloat x).Covers c ↔ fmt.IsNearestWord c x.word := by
  have hparity : x.word % 2 = (ofFloat x).sig % 2 := by
    obtain ⟨e, -, hword, -⟩ := ofFloat_binade x
    rw [hword, Nat.add_mod, Nat.mul_mod, fmt.hiddenBit_even, Nat.mul_zero, Nat.zero_mod,
      Nat.zero_add, Nat.mod_mod]
  have hpos := Nat.pos_of_ne_zero h0
  unfold Covers Above Below
  rw [low_ofFloat h0, high_ofFloat, ← hparity]
  constructor
  · rintro ⟨hlow, hhigh⟩
    split at hlow
    · next heven =>
      rw [if_pos heven] at hhigh
      exact ⟨fun _ => hlow.lt_or_eq.imp id fun h => ⟨h, heven⟩,
        hhigh.lt_or_eq.imp id fun h => ⟨h, heven⟩⟩
    · next hodd =>
      rw [if_neg hodd] at hhigh
      exact ⟨fun _ => Or.inl hlow, Or.inl hhigh⟩
  · intro h
    have hlow := h.lower hpos
    have hhigh := h.upper
    split
    · exact ⟨hlow.elim le_of_lt fun h => h.1.le, hhigh.elim le_of_lt fun h => h.1.le⟩
    · next hodd =>
      exact ⟨hlow.resolve_right fun h => hodd h.2, hhigh.resolve_right fun h => hodd h.2⟩

end DigitTarget

/-! ## Digit strings -/

namespace DigitString

def mantissa (s : DigitString) : ℕ := Positional.ofDigits 10 s.digits

def lastExp (s : DigitString) : ℤ := s.point - s.digits.length

/-- The number `0.d₁d₂…dₙ × 10^point`. -/
def value (s : DigitString) : ℚ := s.mantissa * 10 ^ s.lastExp

theorem value_nonneg (s : DigitString) : 0 ≤ s.value := by
  unfold value
  positivity

/-- Digits below ten of which the first is not zero. -/
structure Normal (s : DigitString) : Prop where
  digits_lt : ∀ d ∈ s.digits, d < 10
  head : ∃ d ds, s.digits = d :: ds ∧ d ≠ 0

variable {s s' : DigitString}

theorem Normal.mantissa_bounds (h : s.Normal) :
    10 ^ (s.digits.length - 1) ≤ s.mantissa ∧ s.mantissa < 10 ^ s.digits.length := by
  refine ⟨?_, Positional.ofDigits_lt h.digits_lt⟩
  obtain ⟨d, ds, hds, hd⟩ := h.head
  unfold mantissa
  rw [hds, List.length_cons, Nat.add_sub_cancel]
  exact Positional.pow_le_ofDigits hd ds

theorem Normal.length_pos (h : s.Normal) : 0 < s.digits.length := by
  obtain ⟨d, ds, hds, -⟩ := h.head
  simp [hds]

/-- Digits of a number that fills its places have no leading zero. -/
theorem normal_of_le (hlt : ∀ d ∈ s.digits, d < 10) (hne : s.digits ≠ [])
    (hle : 10 ^ (s.digits.length - 1) ≤ s.mantissa) : s.Normal := by
  refine ⟨hlt, ?_⟩
  obtain ⟨d, ds, hds⟩ := List.exists_cons_of_ne_nil hne
  refine ⟨d, ds, hds, ?_⟩
  rintro rfl
  have hrest : ∀ d ∈ ds, d < 10 := fun d hd => hlt d (by simp [hds, hd])
  have := Positional.ofDigits_lt hrest
  rw [mantissa, hds, Positional.ofDigits_cons, Nat.zero_mul, Nat.zero_add, List.length_cons,
    Nat.add_sub_cancel] at hle
  omega

/-- Normal digits are known by the number they spell and the place of the last of them. -/
theorem Normal.eq_of_mantissa (h : s.Normal) (h' : s'.Normal) (hm : s.mantissa = s'.mantissa)
    (hp : s.lastExp = s'.lastExp) : s = s' := by
  have hb := h.mantissa_bounds
  have hb' := h'.mantissa_bounds
  have hpos := h.length_pos
  have hpos' := h'.length_pos
  rw [← hm] at hb'
  have h1 := (Nat.pow_lt_pow_iff_right (by decide : 1 < 10)).1 (hb.1.trans_lt hb'.2)
  have h2 := (Nat.pow_lt_pow_iff_right (by decide : 1 < 10)).1 (hb'.1.trans_lt hb.2)
  have hlen : s.digits.length = s'.digits.length := by omega
  have hdigits := Positional.ofDigits_injective h.digits_lt h'.digits_lt hlen hm
  have hpoint : s.point = s'.point := by
    simp only [lastExp] at hp
    omega
  cases s
  cases s'
  simp_all

/-- The digits are those of the shortest decimal of the target. -/
structure IsShortestOf (s : DigitString) (t : DigitTarget) : Prop where
  normal : s.Normal
  shortest : t.IsShortest s.mantissa s.lastExp

theorem IsShortestOf.unique {t : DigitTarget} (h : s.IsShortestOf t) (h' : s'.IsShortestOf t) :
    s = s' := by
  obtain ⟨hm, hp⟩ := h.shortest.unique h'.shortest
  exact h.normal.eq_of_mantissa h'.normal hm hp

/-! ## Digits taken off one after the other -/

/-- The digits taken off, last digit first, as a number. -/
def taken (digits : List ℕ) : ℕ := Positional.ofDigits 10 digits.reverse

theorem taken_cons (d : ℕ) (digits : List ℕ) : taken (d :: digits) = 10 * taken digits + d := by
  rw [taken, List.reverse_cons, Positional.ofDigits_append_singleton, Nat.mul_comm, taken]

/-- Digits, last digit first, that fill their places and are the shortest decimal. -/
theorem isShortestOf_reverse {t : DigitTarget} {digits : List ℕ} {point : ℤ}
    (hlt : ∀ d ∈ digits, d < 10) (hne : digits ≠ []) (hle : 10 ^ (digits.length - 1) ≤ taken digits)
    (hshort : t.IsShortest (taken digits) (point - digits.length)) :
    IsShortestOf ⟨digits.reverse, point⟩ t := by
  refine ⟨normal_of_le (fun d hd => hlt d (List.mem_reverse.1 hd)) (by simpa using hne) ?_,
    ?_⟩
  · rw [List.length_reverse]
    exact hle
  · unfold lastExp
    rw [List.length_reverse]
    exact hshort

end DigitString

end MachineNumbers
