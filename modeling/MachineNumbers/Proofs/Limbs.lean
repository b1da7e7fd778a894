import Mathlib
import MachineNumbers.Limbs

/-!
# Limbs compute on numbers

`Limbs.Represents x n` says that `x` are the trimmed limbs of `n`.  Every operation takes
representations to representations of the result (`Represents.mulAddSmall`, `Represents.mulPow2`,
`Represents.add`, `Represents.sub`, …), comparisons are those of the numbers (`Represents.le`,
`Represents.lt`), and `bitLength`, `splitAtBit` and `divModSmall` are what their names say.
-/

namespace MachineNumbers.Limbs

/-- The trimmed limbs of a number. -/
structure Represents (x : Limbs) (n : Nat) : Prop where
  trimmed : x.Trimmed
  toNat_eq : x.toNat = n

/-! ## Values of words -/

theorem base_eq : base = 2 ^ 32 := rfl

theorem wordsToNat_nil : wordsToNat [] = 0 := rfl

theorem wordsToNat_cons (w : UInt32) (ws : List UInt32) :
    wordsToNat (w :: ws) = w.toNat + base * wordsToNat ws := rfl

theorem wordsToNat_append (xs ys : List UInt32) :
    wordsToNat (xs ++ ys) = wordsToNat xs + base ^ xs.length * wordsToNat ys := by
  induction xs with
  | nil => simp [wordsToNat]
  | cons x xs ih =>
    simp only [List.cons_append, wordsToNat_cons, ih, List.length_cons, pow_succ]
    ring

theorem wordsToNat_replicate_zero (k : Nat) : wordsToNat (List.replicate k 0) = 0 := by
  induction k with
  | zero => rfl
  | succ k ih => simp [List.replicate_succ, wordsToNat_cons, ih]

theorem toNat_lt_base (w : UInt32) : w.toNat < base := w.toNat_lt

theorem toNat_ofNat (n : Nat) : (UInt32.ofNat n).toNat = n % base := by
  simp [base]

/-- What `k` limbs can hold. -/
theorem wordsToNat_lt (ws : List UInt32) : wordsToNat ws < base ^ ws.length := by
  induction ws with
  | nil => simp [wordsToNat]
  | cons w ws ih =>
    have hw := toNat_lt_base w
    have hs : base * (wordsToNat ws + 1) ≤ base * base ^ ws.length := Nat.mul_le_mul_left _ ih
    rw [wordsToNat_cons, List.length_cons, pow_succ, Nat.mul_comm (base ^ _)]
    rw [Nat.mul_add] at hs
    omega

theorem wordsToNat_take (k : Nat) (ws : List UInt32) :
    wordsToNat (ws.take k) = wordsToNat ws % base ^ k := by
  induction k generalizing ws with
  | zero => simp [wordsToNat, Nat.mod_one]
  | succ k ih =>
    cases ws with
    | nil => simp [wordsToNat]
    | cons w ws =>
      have hw := toNat_lt_base w
      rw [List.take_succ_cons, wordsToNat_cons, wordsToNat_cons, ih, pow_succ, Nat.mul_comm _ base,
        Nat.mod_mul, Nat.add_mul_mod_self_left, Nat.mod_eq_of_lt hw,
        Nat.add_mul_div_left _ _ (by decide : 0 < base), Nat.div_eq_of_lt hw, Nat.zero_add]

theorem wordsToNat_drop (k : Nat) (ws : List UInt32) :
    wordsToNat (ws.drop k) = wordsToNat ws / base ^ k := by
  induction k generalizing ws with
  | zero => simp
  | succ k ih =>
    cases ws with
    | nil => simp [wordsToNat]
    | cons w ws =>
      have hw := toNat_lt_base w
      rw [List.drop_succ_cons, ih, wordsToNat_cons, pow_succ, Nat.mul_comm _ base,
        ← Nat.div_div_eq_div_mul, Nat.add_mul_div_left _ _ (by decide : 0 < base),
        Nat.div_eq_of_lt hw, Nat.zero_add]

/-! ## Trimmed words -/

/-- All that is needed of the top limb: of words that are not empty it is not zero. -/
theorem getLast?_cons_ne_zero {w : UInt32} {ws : List UInt32} :
    (w :: ws).getLast? ≠ some 0 ↔ (ws = [] → w ≠ 0) ∧ ws.getLast? ≠ some 0 := by
  cases ws with
  | nil => simp
  | cons v vs => simp [List.getLast?_cons_cons]

/-- A number without leading zero limbs is zero only when it has no limbs. -/
theorem wordsToNat_pos {ws : List UInt32} (h : ws.getLast? ≠ some 0) (hne : ws ≠ []) :
    0 < wordsToNat ws := by
  induction ws with
  | nil => exact absurd rfl hne
  | cons w ws ih =>
    obtain ⟨hw, hws⟩ := getLast?_cons_ne_zero.1 h
    rw [wordsToNat_cons]
    by_cases he : ws = []
    · have h0 : w.toNat ≠ 0 := fun h0 => hw he (UInt32.toNat_inj.1 h0)
      omega
    · have := Nat.mul_pos (by decide : 0 < base) (ih hws he)
      omega

/-- Leading zero limbs carry no value. -/
theorem wordsToNat_trimWords (ws : List UInt32) : wordsToNat (trimWords ws) = wordsToNat ws := by
  induction ws with
  | nil => rfl
  | cons w ws ih =>
    rw [trimWords, wordsToNat_cons, ← ih]
    split
    · next h =>
      rw [h, wordsToNat_nil]
      split
      · next h0 => simp [h0, wordsToNat]
      · rfl
    · next h => rw [wordsToNat_cons]

theorem trimWords_trimmed (ws : List UInt32) : (trimWords ws).getLast? ≠ some 0 := by
  induction ws with
  | nil => simp [trimWords]
  | cons w ws ih =>
    rw [trimWords]
    split
    · split
      · simp
      · next h0 => simpa using h0
    · exact getLast?_cons_ne_zero.2 ⟨fun he => absurd he ‹_›, ih⟩

/-- Trimming restores the normal form that the comparison and the bit length rely on. -/
theorem trim_represents {x : Limbs} {n : Nat} (h : x.toNat = n) : x.trim.Represents n :=
  ⟨trimWords_trimmed _, (wordsToNat_trimWords _).trans h⟩

theorem Represents.words_eq_nil_iff {x : Limbs} {n : Nat} (h : x.Represents n) :
    x.words = [] ↔ n = 0 := by
  rw [← h.toNat_eq, toNat]
  constructor
  · intro he
    rw [he, wordsToNat_nil]
  · intro h0
    by_contra hne
    have := wordsToNat_pos h.trimmed hne
    omega

theorem Represents.isZero {x : Limbs} {n : Nat} (h : x.Represents n) :
    x.isZero = decide (n = 0) := by
  unfold Limbs.isZero
  rw [← Bool.coe_iff_coe, List.isEmpty_iff, decide_eq_true_iff, h.words_eq_nil_iff]

theorem represents_nil : Represents ⟨[]⟩ 0 := ⟨by simp [Trimmed], rfl⟩

theorem ofNat64_represents {n : Nat} (h : n < 2 ^ 64) : (ofNat64 n).Represents n := by
  apply trim_represents
  have hd : n / base < base := by rw [base_eq]; omega
  simp only [toNat, wordsToNat, toNat_ofNat, Nat.mod_eq_of_lt hd]
  have := Nat.mod_add_div n base
  omega

/-! ## Multiplication -/

/-- A product of limbs and a carry leave a carry of one limb. -/
theorem mul_add_div_base_lt {w factor carry : Nat} (hw : w < base) (hf : factor < base)
    (hc : carry < base) : (w * factor + carry) / base < base := by
  rw [Nat.div_lt_iff_lt_mul (by decide : 0 < base)]
  have h : w * factor ≤ (base - 1) * (base - 1) := Nat.mul_le_mul (by omega) (by omega)
  simp only [base_eq] at *
  omega

/-- One pass of the schoolbook product: every limb times the factor, with the carry handed upwards. -/
theorem wordsToNat_mulAddWords {factor : Nat} (hf : factor < base) {carry : Nat}
    (hc : carry < base) (ws : List UInt32) :
    wordsToNat (mulAddWords factor carry ws) = wordsToNat ws * factor + carry := by
  induction ws generalizing carry with
  | nil =>
    rw [mulAddWords]
    split
    · next h0 => simp [wordsToNat, h0]
    · simp only [wordsToNat, toNat_ofNat, Nat.mod_eq_of_lt hc]
      omega
  | cons w ws ih =>
    have hd := mul_add_div_base_lt (toNat_lt_base w) hf hc
    simp only [mulAddWords, wordsToNat_cons, toNat_ofNat, ih hd]
    calc (w.toNat * factor + carry) % base
          + base * (wordsToNat ws * factor + (w.toNat * factor + carry) / base)
        = ((w.toNat * factor + carry) % base + base * ((w.toNat * factor + carry) / base))
          + base * (wordsToNat ws * factor) := by ring
      _ = (w.toNat + base * wordsToNat ws) * factor + carry := by rw [Nat.mod_add_div]; ring

/-- A nonzero factor makes no leading zero limb, so a product needs no trimming. -/
theorem mulAddWords_trimmed {factor : Nat} (hf : factor < base) (hf0 : 0 < factor) {carry : Nat}
    (hc : carry < base) {ws : List UInt32} (h : ws.getLast? ≠ some 0) :
    (mulAddWords factor carry ws).getLast? ≠ some 0 := by
  induction ws generalizing carry with
  | nil =>
    rw [mulAddWords]
    split
    · simp
    · next h0 =>
      have : UInt32.ofNat carry ≠ 0 := fun he => by
        have := congrArg UInt32.toNat he
        rw [toNat_ofNat, Nat.mod_eq_of_lt hc] at this
        exact h0 this
      simpa using this
  | cons w ws ih =>
    obtain ⟨hw, hws⟩ := getLast?_cons_ne_zero.1 h
    have hd := mul_add_div_base_lt (toNat_lt_base w) hf hc
    rw [mulAddWords]
    refine getLast?_cons_ne_zero.2 ⟨fun he => ?_, ih hd hws⟩
    -- no limb above: the top limb is the old one times the factor, with nothing carried out
    have hval := wordsToNat_mulAddWords hf hd ws
    rw [he, wordsToNat_nil] at hval
    obtain ⟨hprod, hcarry⟩ := Nat.add_eq_zero_iff.1 hval.symm
    have hws0 : ws = [] := by
      by_contra hne
      exact Nat.ne_of_gt (Nat.mul_pos (wordsToNat_pos hws hne) hf0) hprod
    have hlt : w.toNat * factor + carry < base :=
      (Nat.div_eq_zero_iff_lt (by decide)).1 hcarry
    have hw0 : 0 < w.toNat := Nat.pos_of_ne_zero fun h0 => hw hws0 (UInt32.toNat_inj.1 h0)
    intro h0
    have h1 := congrArg UInt32.toNat h0
    rw [toNat_ofNat, Nat.mod_eq_of_lt hlt] at h1
    have := Nat.mul_pos hw0 hf0
    have h2 : (0 : UInt32).toNat = 0 := rfl
    omega

theorem Represents.mulAddSmall {x : Limbs} {n : Nat} (h : x.Represents n) (factor addend : UInt32) :
    (x.mulAddSmall factor addend).Represents (n * factor.toNat + addend.toNat) := by
  apply trim_represents
  rw [← h.toNat_eq]
  exact wordsToNat_mulAddWords (toNat_lt_base factor) (toNat_lt_base addend) _

theorem Represents.mul10 {x : Limbs} {n : Nat} (h : x.Represents n) :
    x.mul10.Represents (10 * n) := by
  have := h.mulAddSmall 10 0
  rwa [show n * (10 : UInt32).toNat + (0 : UInt32).toNat = 10 * n from by
    rw [Nat.mul_comm]; rfl] at this

theorem Represents.repeat_mulAddSmall {x : Limbs} {n : Nat} (h : x.Represents n)
    (factor : UInt32) (k : Nat) :
    (Nat.repeat (·.mulAddSmall factor 0) k x).Represents (factor.toNat ^ k * n) := by
  induction k with
  | zero => simpa [Nat.repeat] using h
  | succ k ih =>
    have := ih.mulAddSmall factor 0
    rwa [show factor.toNat ^ k * n * factor.toNat + (0 : UInt32).toNat
      = factor.toNat ^ (k + 1) * n from by rw [pow_succ]; simp; ring] at this

/-- Powers of ten go in by chunks of nine digits, the largest power that a limb holds. -/
theorem Represents.mulPow10 {x : Limbs} {n : Nat} (h : x.Represents n) (k : Nat) :
    (x.mulPow10 k).Represents (10 ^ k * n) := by
  have hhigh := h.repeat_mulAddSmall 1000000000 (k / 9)
  rw [show (1000000000 : UInt32).toNat = 10 ^ 9 from rfl, ← pow_mul] at hhigh
  have hk := Nat.div_add_mod k 9
  unfold Limbs.mulPow10
  split
  · next h0 =>
    rwa [show 9 * (k / 9) = k from by omega] at hhigh
  · have hlt : 10 ^ (k % 9) < 2 ^ 32 :=
      calc 10 ^ (k % 9) ≤ 10 ^ 8 := Nat.pow_le_pow_right (by decide) (by omega)
        _ < 2 ^ 32 := by decide
    have := hhigh.mulAddSmall (UInt32.ofNat (Nat.pow 10 (k % 9))) 0
    rwa [toNat_ofNat, Nat.pow_eq, base_eq, Nat.mod_eq_of_lt hlt,
      show 10 ^ (9 * (k / 9)) * n * 10 ^ (k % 9) + (0 : UInt32).toNat = 10 ^ k * n from by
        conv_rhs => rw [← hk, pow_add]
        simp; ring] at this

/-- A shift by whole limbs and one product for the bits that are left. -/
theorem Represents.mulPow2 {x : Limbs} {n : Nat} (h : x.Represents n) (k : Nat) :
    (x.mulPow2 k).Represents (2 ^ k * n) := by
  unfold Limbs.mulPow2
  rw [h.isZero]
  by_cases h0 : n = 0
  · simpa [h0] using h
  have hne : x.words ≠ [] := fun he => h0 (h.words_eq_nil_iff.1 he)
  have hf : Nat.pow 2 (k % 32) < base := by
    rw [base_eq]
    exact Nat.pow_lt_pow_right (by decide) (Nat.mod_lt _ (by decide))
  have hval := wordsToNat_mulAddWords hf (by decide : 0 < base) x.words
  simp only [h0, decide_false, Bool.false_eq_true, if_false]
  constructor
  · have htop := mulAddWords_trimmed hf (Nat.two_pow_pos _) (by decide : 0 < base) h.trimmed
    have hpos : 0 < wordsToNat x.words := wordsToNat_pos h.trimmed hne
    have hne' : mulAddWords (Nat.pow 2 (k % 32)) 0 x.words ≠ [] := by
      intro he
      rw [he, wordsToNat_nil] at hval
      have := Nat.mul_pos hpos (Nat.two_pow_pos (k % 32))
      simp only [Nat.pow_eq] at hval
      omega
    unfold Trimmed
    rw [List.getLast?_append]
    cases hl : (mulAddWords (Nat.pow 2 (k % 32)) 0 x.words).getLast? with
    | none => exact absurd (List.getLast?_eq_none_iff.1 hl) hne'
    | some top =>
      rw [hl] at htop
      simpa using htop
  · rw [toNat, wordsToNat_append, wordsToNat_replicate_zero, hval, List.length_replicate, base_eq,
      ← pow_mul, ← h.toNat_eq, toNat, Nat.pow_eq]
    conv_rhs => rw [← Nat.div_add_mod k 32, pow_add]
    ring

/-! ## Addition and subtraction -/

theorem lt_base_of_le_one {carry : Nat} (h : carry ≤ 1) : carry < base :=
  Nat.lt_of_le_of_lt h (by decide)

/-- The carry of a sum is zero or one, and counts once. -/
theorem wordsToNat_addWords {carry : Nat} (hc : carry ≤ 1) (xs ys : List UInt32) :
    wordsToNat (addWords carry xs ys) = wordsToNat xs + wordsToNat ys + carry := by
  induction xs generalizing carry ys with
  | nil =>
    rw [addWords, wordsToNat_mulAddWords (by decide) (lt_base_of_le_one hc)]
    simp [wordsToNat]
  | cons x xs ih =>
    have hx := toNat_lt_base x
    cases ys with
    | nil =>
      rw [addWords, wordsToNat_mulAddWords (by decide) (lt_base_of_le_one hc)]
      simp [wordsToNat]
    | cons y ys =>
      have hy := toNat_lt_base y
      have hd : (x.toNat + y.toNat + carry) / base ≤ 1 := by simp only [base_eq] at *; omega
      simp only [addWords, wordsToNat_cons, toNat_ofNat, ih hd]
      have := Nat.mod_add_div (x.toNat + y.toNat + carry) base
      simp only [base_eq] at *
      omega

theorem addWords_trimmed {carry : Nat} (hc : carry ≤ 1) {xs ys : List UInt32}
    (hx : xs.getLast? ≠ some 0) (hy : ys.getLast? ≠ some 0) :
    (addWords carry xs ys).getLast? ≠ some 0 := by
  induction xs generalizing carry ys with
  | nil =>
    rw [addWords]
    exact mulAddWords_trimmed (by decide) (by decide) (lt_base_of_le_one hc) hy
  | cons x xs ih =>
    cases ys with
    | nil =>
      rw [addWords]
      exact mulAddWords_trimmed (by decide) (by decide) (lt_base_of_le_one hc) hx
    | cons y ys =>
      have hxlt := toNat_lt_base x
      have hylt := toNat_lt_base y
      obtain ⟨hx0, hxs⟩ := getLast?_cons_ne_zero.1 hx
      obtain ⟨hy0, hys⟩ := getLast?_cons_ne_zero.1 hy
      have hd : (x.toNat + y.toNat + carry) / base ≤ 1 := by simp only [base_eq] at *; omega
      rw [addWords]
      refine getLast?_cons_ne_zero.2 ⟨fun he => ?_, ih hd hxs hys⟩
      have hval := wordsToNat_addWords hd xs ys
      rw [he, wordsToNat_nil] at hval
      obtain ⟨hsum, hcarry⟩ := Nat.add_eq_zero_iff.1 hval.symm
      have hxs0 : xs = [] := by
        by_contra hne
        have := wordsToNat_pos hxs hne
        omega
      have hpos : x.toNat ≠ 0 := fun h0 => hx0 hxs0 (UInt32.toNat_inj.1 h0)
      have hlt : x.toNat + y.toNat + carry < base :=
        (Nat.div_eq_zero_iff_lt (by decide)).1 hcarry
      intro h0
      have h1 := congrArg UInt32.toNat h0
      rw [toNat_ofNat, Nat.mod_eq_of_lt hlt] at h1
      have h2 : (0 : UInt32).toNat = 0 := rfl
      omega

theorem Represents.add {x y : Limbs} {m n : Nat} (hx : x.Represents m) (hy : y.Represents n) :
    (x.add y).Represents (m + n) := by
  refine ⟨addWords_trimmed (by decide) hx.trimmed hy.trimmed, ?_⟩
  rw [← hx.toNat_eq, ← hy.toNat_eq]
  exact wordsToNat_addWords (by decide) _ _

/-- A difference that does not go below zero hands no borrow past its last limb. -/
theorem wordsToNat_subWords {borrow : Nat} (hb1 : borrow ≤ 1) (xs ys : List UInt32)
    (h : wordsToNat ys + borrow ≤ wordsToNat xs) :
    wordsToNat (subWords borrow xs ys) = wordsToNat xs - (wordsToNat ys + borrow) := by
  induction xs generalizing borrow ys with
  | nil => simp [subWords, wordsToNat]
  | cons x xs ih =>
    have hx := toNat_lt_base x
    have hy := toNat_lt_base (ys.headD 0)
    have hys : wordsToNat ys = (ys.headD 0).toNat + base * wordsToNat ys.tail := by
      cases ys <;> simp [wordsToNat]
    rw [wordsToNat_cons, hys] at h
    rw [subWords, wordsToNat_cons, hys]
    split
    · next hle =>
      rw [wordsToNat_cons, ih (by decide) _ (by simp only [base_eq] at *; omega), toNat_ofNat,
        Nat.mod_eq_of_lt (by omega)]
      simp only [base_eq] at *
      omega
    · next hgt =>
      rw [wordsToNat_cons, ih (by decide) _ (by simp only [base_eq] at *; omega), toNat_ofNat,
        Nat.mod_eq_of_lt (by simp only [base_eq] at *; omega)]
      simp only [base_eq] at *
      omega

theorem Represents.sub {x y : Limbs} {m n : Nat} (hx : x.Represents m) (hy : y.Represents n)
    (h : n ≤ m) : (x.sub y).Represents (m - n) := by
  apply trim_represents
  have hx' := hx.toNat_eq
  have hy' := hy.toNat_eq
  unfold toNat at hx' hy'
  unfold toNat
  rw [wordsToNat_subWords (by decide) _ _ (by omega), hx', hy', Nat.add_zero]

/-! ## Order -/

/-- Trimmed numbers compare by length first, then from the leading limb down. -/
theorem compareWords_eq {xs ys : List UInt32} (hx : xs.getLast? ≠ some 0)
    (hy : ys.getLast? ≠ some 0) :
    compareWords xs ys = Ord.compare (wordsToNat xs) (wordsToNat ys) := by
  induction xs generalizing ys with
  | nil =>
    cases ys with
    | nil => rfl
    | cons y ys =>
      have := wordsToNat_pos hy (by simp)
      exact (Nat.compare_eq_lt.2 (by simpa [wordsToNat_nil] using this)).symm
  | cons x xs ih =>
    cases ys with
    | nil =>
      have := wordsToNat_pos hx (by simp)
      exact (Nat.compare_eq_gt.2 (by simpa [wordsToNat_nil] using this)).symm
    | cons y ys =>
      have hxlt := toNat_lt_base x
      have hylt := toNat_lt_base y
      rw [compareWords, ih (getLast?_cons_ne_zero.1 hx).2 (getLast?_cons_ne_zero.1 hy).2,
        wordsToNat_cons, wordsToNat_cons]
      rcases Nat.lt_trichotomy (wordsToNat xs) (wordsToNat ys) with hlt | heq | hgt
      · have h : x.toNat + base * wordsToNat xs < y.toNat + base * wordsToNat ys := by
          simp only [base_eq] at *
          omega
        rw [Nat.compare_eq_lt.2 hlt, Nat.compare_eq_lt.2 h]
        rfl
      · rw [heq, Nat.compare_eq_eq.2 rfl, Nat.compare_eq_ite_lt, Nat.compare_eq_ite_lt]
        simp
      · have h : y.toNat + base * wordsToNat ys < x.toNat + base * wordsToNat xs := by
          simp only [base_eq] at *
          omega
        rw [Nat.compare_eq_gt.2 hgt, Nat.compare_eq_gt.2 h]
        rfl

theorem Represents.compare {x y : Limbs} {m n : Nat} (hx : x.Represents m) (hy : y.Represents n) :
    x.compare y = Ord.compare m n := by
  unfold Limbs.compare
  rw [compareWords_eq hx.trimmed hy.trimmed, ← hx.toNat_eq, ← hy.toNat_eq]
  rfl

theorem Represents.le {x y : Limbs} {m n : Nat} (hx : x.Represents m) (hy : y.Represents n) :
    x.le y = decide (m ≤ n) := by
  unfold Limbs.le
  rw [hx.compare hy, Nat.compare_eq_ite_lt]
  grind

theorem Represents.lt {x y : Limbs} {m n : Nat} (hx : x.Represents m) (hy : y.Represents n) :
    x.lt y = decide (m < n) := by
  unfold Limbs.lt
  rw [hx.compare hy, Nat.compare_eq_ite_lt]
  grind

/-! ## Length and bits -/

/-- The bits of a number from its leading limb and how many limbs are below. -/
theorem size_wordsToNat {ws : List UInt32} {top : UInt32} (h : ws.getLast? = some top)
    (h0 : top ≠ 0) :
    Nat.size (wordsToNat ws) = 32 * (ws.length - 1) + top.toNat.log2 + 1 := by
  obtain ⟨low, rfl⟩ := List.getLast?_eq_some_iff.1 h
  have htop : top.toNat ≠ 0 := fun he => h0 (UInt32.toNat_inj.1 he)
  have hlow := wordsToNat_lt low
  have hval : wordsToNat (low ++ [top]) = wordsToNat low + 2 ^ (32 * low.length) * top.toNat := by
    rw [wordsToNat_append, wordsToNat_cons, wordsToNat_nil, base_eq, ← pow_mul, Nat.mul_zero,
      Nat.add_zero]
  rw [base_eq, ← pow_mul] at hlow
  rw [List.length_append, List.length_singleton, Nat.add_sub_cancel, hval]
  apply Nat.le_antisymm
  · rw [Nat.size_le, Nat.add_assoc, pow_add]
    have : top.toNat + 1 ≤ 2 ^ (top.toNat.log2 + 1) := Nat.lt_log2_self
    have := Nat.mul_le_mul_left (2 ^ (32 * low.length)) this
    rw [Nat.mul_add] at this
    omega
  · rw [Nat.succ_le_iff, Nat.lt_size, pow_add]
    have := Nat.mul_le_mul_left (2 ^ (32 * low.length)) (Nat.log2_self_le htop)
    omega

theorem Represents.bitLength {x : Limbs} {n : Nat} (h : x.Represents n) :
    x.bitLength = Nat.size n := by
  unfold Limbs.bitLength
  rw [← h.toNat_eq, toNat]
  cases hl : x.words.getLast? with
  | none => simp [List.getLast?_eq_none_iff.1 hl, wordsToNat]
  | some top =>
    have htop : top ≠ 0 := fun h0 => h.trimmed (by rw [hl, h0])
    exact (size_wordsToNat hl htop).symm

/-- The leading bit is in the top limb. -/
theorem length_le_bitLength (x : Limbs) : 32 * x.words.length ≤ x.bitLength + 31 := by
  unfold Limbs.bitLength
  cases hlast : x.words.getLast? with
  | none =>
    rw [List.getLast?_eq_none_iff.1 hlast]
    exact Nat.zero_le _
  | some top =>
    dsimp only
    omega

theorem any_ne_zero (ws : List UInt32) : ws.any (· != 0) = decide (wordsToNat ws ≠ 0) := by
  induction ws with
  | nil => rfl
  | cons w ws ih =>
    have hw : (w = 0) ↔ w.toNat = 0 := ⟨fun h => by rw [h]; rfl, fun h => UInt32.toNat_inj.1 h⟩
    rw [List.any_cons, ih, wordsToNat_cons, ← Bool.coe_iff_coe]
    simp only [Bool.or_eq_true, bne_iff_ne, decide_eq_true_eq, ne_eq, hw, Nat.add_eq_zero_iff,
      Nat.mul_eq_zero, (by decide : base ≠ 0), false_or]
    omega

theorem headD_toNat (ws : List UInt32) : (ws.headD 0).toNat = wordsToNat ws % base := by
  cases ws with
  | nil => rfl
  | cons w ws =>
    rw [wordsToNat_cons, Nat.add_mul_mod_self_left, Nat.mod_eq_of_lt (toNat_lt_base w)]
    rfl

/-- The quotient by a power of two, and whether a bit below the cut is set. -/
theorem splitAtBit_eq {x : Limbs} {n : Nat} (h : x.toNat = n) (shift : Nat) :
    x.splitAtBit shift = (n / 2 ^ shift, n % 2 ^ shift != 0) := by
  have hshift := Nat.div_add_mod shift 32
  have hpow : base ^ (shift / 32) = 2 ^ (32 * (shift / 32)) := by rw [base_eq, ← pow_mul]
  have hsplit : 2 ^ shift = 2 ^ (32 * (shift / 32)) * 2 ^ (shift % 32) := by
    rw [← pow_add, hshift]
  have hdvd : 2 ^ (shift % 32) ∣ base := by
    rw [base_eq]
    exact Nat.pow_dvd_pow 2 (Nat.le_of_lt (Nat.mod_lt _ (by decide)))
  unfold toNat at h
  simp only [splitAtBit, any_ne_zero, wordsToNat_take, wordsToNat_drop, headD_toNat, h, hpow,
    Nat.shiftRight_eq_div_pow, Nat.div_div_eq_div_mul, ← hsplit, Nat.mod_mod_of_dvd _ hdvd,
    Nat.pow_eq]
  congr 1
  rw [hsplit, Nat.mod_mul, ← Bool.coe_iff_coe]
  have hpos := Nat.two_pow_pos (32 * (shift / 32))
  simp only [Bool.or_eq_true, decide_eq_true_eq, bne_iff_ne, ne_eq, Nat.add_eq_zero_iff,
    Nat.mul_eq_zero]
  omega

/-! ## Small quotients -/

/-- Taking the divisor off until the rest is smaller, with enough rounds, counts the quotient. -/
theorem Represents.takeOff {d : Limbs} {D : Nat} (hd : d.Represents D) (hD : 0 < D) {times : Nat}
    {r : Limbs} {R : Nat} (hr : r.Represents R) (hq : R / D ≤ times) (count : Nat) :
    (d.takeOff times count r).1 = count + R / D ∧ (d.takeOff times count r).2.Represents (R % D) := by
  induction times generalizing count r R with
  | zero =>
    have hq0 : R / D = 0 := Nat.le_zero.1 hq
    have hlt := (Nat.div_eq_zero_iff_lt hD).1 hq0
    rw [Limbs.takeOff, hq0, Nat.mod_eq_of_lt hlt]
    exact ⟨rfl, hr⟩
  | succ times ih =>
    rw [Limbs.takeOff, hd.le hr]
    by_cases hle : D ≤ R
    · have hstep : R / D = (R - D) / D + 1 := Nat.div_eq_sub_div hD hle
      obtain ⟨h1, h2⟩ := ih (hr.sub hd hle) (by omega) (count + 1)
      simp only [hle, decide_true, if_true]
      rw [h1, Nat.mod_eq_sub_mod hle]
      exact ⟨by omega, h2⟩
    · have hlt : R < D := Nat.lt_of_not_le hle
      simp only [hle, decide_false, Bool.false_eq_true, if_false]
      rw [Nat.div_eq_of_lt hlt, Nat.mod_eq_of_lt hlt]
      exact ⟨rfl, hr⟩

/-- A quotient has at most one bit more than the lengths differ by. -/
theorem Represents.div_le {x d : Limbs} {n D : Nat} (hx : x.Represents n) (hd : d.Represents D)
    (hD : 0 < D) : n / D ≤ 2 ^ (x.bitLength + 1 - d.bitLength) := by
  rw [hx.bitLength, hd.bitLength]
  have hD' : 2 ^ (Nat.size D - 1) ≤ D := Nat.lt_size.1 (by
    have := Nat.size_pos.2 hD
    omega)
  have hn : n < 2 ^ Nat.size n := Nat.lt_size_self n
  refine Nat.le_of_lt ((Nat.div_lt_iff_lt_mul hD).2 (Nat.lt_of_lt_of_le hn ?_))
  calc 2 ^ Nat.size n ≤ 2 ^ (Nat.size n + 1 - Nat.size D + (Nat.size D - 1)) :=
        Nat.pow_le_pow_right (by decide) (by omega)
    _ = 2 ^ (Nat.size n + 1 - Nat.size D) * 2 ^ (Nat.size D - 1) := pow_add ..
    _ ≤ _ := Nat.mul_le_mul_left _ hD'

theorem Represents.divModSmall {x d : Limbs} {n D : Nat} (hx : x.Represents n)
    (hd : d.Represents D) (hD : 0 < D) :
    (x.divModSmall d).1 = n / D ∧ (x.divModSmall d).2.Represents (n % D) := by
  rw [Limbs.divModSmall, Nat.pow_eq]
  simpa using hd.takeOff hD hx (hx.div_le hd hD) 0

end MachineNumbers.Limbs
