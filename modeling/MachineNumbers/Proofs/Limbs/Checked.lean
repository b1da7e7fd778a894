import Mathlib
import MachineNumbers.Limbs.Checked
import MachineNumbers.Proofs.Limbs
import MachineNumbers.Proofs.MachineWord

/-!
# Limbs fit machine words

Each operation of `CheckedLimbs` takes no step that fails and gives what the same operation of `Limbs`
gives.  A limb times a limb with a carry of one limb fits 64 bits and carries at most one limb on
(`mulAddWords?_eq`), and so does a shifted limb over the bits from below (`shiftWords?_eq`); two sums that
wrap carry at most one (`wrappingSum_twice`), and two differences borrow at most one
(`wrappingDifference_twice`).  A number in trimmed limbs has these limbs only (`Represents.eq_iff`).
-/

namespace MachineNumbers

namespace Limbs

/-! ## Limbs of a number -/

/-- Trimmed numbers are known by their values. -/
theorem wordsToNat_injective {xs ys : List UInt32} (hx : xs.getLast? ≠ some 0)
    (hy : ys.getLast? ≠ some 0) (h : wordsToNat xs = wordsToNat ys) : xs = ys := by
  induction xs generalizing ys with
  | nil =>
    by_contra hne
    have := wordsToNat_pos hy fun h0 => hne h0.symm
    rw [← h, wordsToNat_nil] at this
    exact lt_irrefl _ this
  | cons x xs ih =>
    cases ys with
    | nil =>
      have := wordsToNat_pos hx (List.cons_ne_nil _ _)
      rw [h, wordsToNat_nil] at this
      exact absurd this (lt_irrefl _)
    | cons y ys =>
      have hxlt := toNat_lt_base x
      have hylt := toNat_lt_base y
      rw [wordsToNat_cons, wordsToNat_cons] at h
      have htail : wordsToNat xs = wordsToNat ys := by
        simp only [base_eq] at *
        omega
      have hhead : x.toNat = y.toNat := by
        rw [htail] at h
        exact Nat.add_right_cancel h
      rw [UInt32.toNat_inj.1 hhead,
        ih (getLast?_cons_ne_zero.1 hx).2 (getLast?_cons_ne_zero.1 hy).2 htail]

/-- Equality of limbs is equality of numbers. -/
theorem Represents.eq_iff {x y : Limbs} {m n : ℕ} (hx : x.Represents m) (hy : y.Represents n) :
    x = y ↔ m = n := by
  constructor
  · rintro rfl
    exact hx.toNat_eq.symm.trans hy.toNat_eq
  · rintro rfl
    have hwords := wordsToNat_injective hx.trimmed hy.trimmed (hx.toNat_eq.trans hy.toNat_eq.symm)
    cases x
    cases y
    simpa using hwords

/-- Trimmed limbs are no more than the bits of their number need. -/
theorem Represents.length_le {x : Limbs} {n bits : ℕ} (hx : x.Represents n) (h : n < 2 ^ bits) :
    32 * x.words.length ≤ bits + 31 := by
  have hsize : x.bitLength ≤ bits := hx.bitLength ▸ Nat.size_le.2 h
  exact x.length_le_bitLength.trans (Nat.add_le_add_right hsize 31)

/-- A limb over bits that end where it begins. -/
theorem toNat_mul_add_lt (w : UInt32) {low place : ℕ} (h : low < 2 ^ place) :
    w.toNat * 2 ^ place + low < 2 ^ 32 * 2 ^ place := by
  have hw : w.toNat + 1 ≤ 2 ^ 32 := toNat_lt_base w
  calc w.toNat * 2 ^ place + low < (w.toNat + 1) * 2 ^ place := by
        rw [Nat.add_one_mul]
        exact Nat.add_lt_add_left h _
    _ ≤ 2 ^ 32 * 2 ^ place := Nat.mul_le_mul_right _ hw

/-- Which operand is the longer does not matter to a sum. -/
theorem addWords_comm (carry : ℕ) (xs ys : List UInt32) :
    Limbs.addWords carry xs ys = Limbs.addWords carry ys xs := by
  induction xs generalizing carry ys with
  | nil => cases ys <;> rfl
  | cons x xs ih =>
    cases ys with
    | nil => rfl
    | cons y ys => rw [Limbs.addWords, Limbs.addWords, ih, Nat.add_comm x.toNat]

theorem mulAddWords_one (ws : List UInt32) : mulAddWords 1 0 ws = ws := by
  induction ws with
  | nil => rfl
  | cons w ws ih =>
    rw [mulAddWords, Nat.mul_one, Nat.add_zero, Nat.div_eq_of_lt (toNat_lt_base w), ih,
      UInt32.ofNat_toNat]

theorem addWords_nil (carry : ℕ) (xs : List UInt32) :
    Limbs.addWords carry xs [] = mulAddWords 1 carry xs := by
  cases xs <;> rfl

end Limbs

namespace CheckedLimbs

open Limbs (base base_eq toNat_lt_base toNat_ofNat wordsToNat)
open MachineWord

variable {x y d : Limbs} {m n D : ℕ}

theorem ofNat64?_eq (n : ℕ) : ofNat64? n = some (.ofNat64 n) := by
  unfold ofNat64? Limbs.ofNat64
  rw [bind_of_some (shiftRight?_of_lt (by decide) n), Nat.shiftRight_eq_div_pow]
  rfl

/-! ## Products -/

/-- A limb times a limb plus a carry never leaves a double word. -/
theorem mulAddWords?_eq (factor : UInt32) {carry : ℕ} (hcarry : carry < base) (ws : List UInt32) :
    mulAddWords? factor carry ws = some (Limbs.mulAddWords factor.toNat carry ws) := by
  induction ws generalizing carry with
  | nil => rfl
  | cons w ws ih =>
    have hw := toNat_lt_base w
    have hfactor := toNat_lt_base factor
    have hnext := Limbs.mul_add_div_base_lt hw hfactor hcarry
    have hproduct : w.toNat * factor.toNat ≤ (base - 1) * (base - 1) :=
      Nat.mul_le_mul (Nat.le_sub_one_of_lt hw) (Nat.le_sub_one_of_lt hfactor)
    have hwide : w.toNat * factor.toNat + carry < 2 ^ 64 := by
      simp only [base_eq] at *
      omega
    rw [mulAddWords?, bind_of_some (product?_of_lt (by omega)), bind_of_some (sum?_of_lt hwide),
      bind_of_some (shiftRight?_of_lt (by decide) _), Nat.shiftRight_eq_div_pow, ← base_eq,
      bind_of_some (ih hnext)]
    rfl

theorem mulAddSmall?_eq (x : Limbs) (factor addend : UInt32) :
    mulAddSmall? x factor addend = some (x.mulAddSmall factor addend) := by
  unfold mulAddSmall?
  rw [bind_of_some (mulAddWords?_eq factor (toNat_lt_base addend) x.words)]
  rfl

theorem mul10?_eq (x : Limbs) : mul10? x = some x.mul10 := mulAddSmall?_eq x 10 0

theorem mulPow10?_eq (hx : x.Represents m) (n : ℕ) : mulPow10? x n = some (x.mulPow10 n) := by
  induction n using Nat.strong_induction_on generalizing x m with
  | h n ih =>
    have hresult := hx.mulPow10 n
    rw [mulPow10?]
    split
    · next hnine =>
      have hstep := hx.mulAddSmall 1000000000 0
      rw [bind_of_some (mulAddSmall?_eq x _ _), ih (n - 9) (by omega) hstep]
      -- the same number whether nine places are taken first or last
      refine congrArg some (((hstep.mulPow10 (n - 9)).eq_iff hresult).2 ?_)
      have hpow : 10 ^ n = 10 ^ (n - 9) * 10 ^ 9 := by rw [← pow_add, Nat.sub_add_cancel hnine]
      rw [hpow, show (1000000000 : UInt32).toNat = 10 ^ 9 from rfl, Nat.mul_comm m]
      exact (Nat.mul_assoc ..).symm
    · next hfew =>
      have hhigh : n / 9 = 0 := Nat.div_eq_of_lt (not_le.1 hfew)
      have hlow : n % 9 = n := Nat.mod_eq_of_lt (not_le.1 hfew)
      unfold Limbs.mulPow10
      rw [hhigh, hlow]
      split
      · next hpos =>
        have hpower : 10 ^ n < 2 ^ 32 :=
          (Nat.pow_le_pow_right (by decide) (Nat.le_of_lt_succ (not_le.1 hfew))).trans_lt
            (by decide : 10 ^ 8 < 2 ^ 32)
        rw [Nat.pow_eq, bind_of_some (unsigned?_of_lt hpower), mulAddSmall?_eq, if_neg hpos.ne']
        rfl
      · next hzero =>
        rw [if_pos (Nat.eq_zero_of_not_pos hzero)]
        rfl

/-- The shift by bits is the product with a power of two. -/
theorem shiftWords?_eq {bits : ℕ} (hbits : bits < 32) {carry : ℕ} (hcarry : carry < 2 ^ bits)
    (ws : List UInt32) : shiftWords? bits carry ws = some (Limbs.mulAddWords (2 ^ bits) carry ws) := by
  induction ws generalizing carry with
  | nil => rfl
  | cons w ws ih =>
    have hw : w.toNat < 2 ^ 32 := toNat_lt_base w
    have hwide : w.toNat <<< bits ||| carry = w.toNat * 2 ^ bits + carry := by
      rw [← Nat.shiftLeft_add_eq_or_of_lt hcarry, Nat.shiftLeft_eq]
    have hnext : (w.toNat * 2 ^ bits + carry) / base < 2 ^ bits := by
      rw [Nat.div_lt_iff_lt_mul (by decide), base_eq, Nat.mul_comm (2 ^ bits)]
      exact Limbs.toNat_mul_add_lt w hcarry
    rw [shiftWords?, bind_of_some (shiftLeft?_of_bits hw (by decide) (by omega)), hwide,
      bind_of_some (shiftRight?_of_lt (by decide) _), Nat.shiftRight_eq_div_pow, ← base_eq,
      bind_of_some (ih hnext)]
    rfl

theorem mulPow2?_eq (x : Limbs) (n : ℕ) : mulPow2? x n = some (x.mulPow2 n) := by
  unfold mulPow2? Limbs.mulPow2
  split
  · rfl
  · split
    · next hwhole =>
      rw [hwhole, Nat.pow_eq, pow_zero, Limbs.mulAddWords_one]
      rfl
    · rw [bind_of_some (shiftWords?_eq (Nat.mod_lt n (by decide)) (Nat.two_pow_pos _) x.words)]
      rfl

/-! ## Sums and differences -/

/-- A sum with a carry in two sums that wrap, of which at most one does. -/
theorem wrappingSum_twice (a b : UInt32) (carry : Bool) :
    (wrappingSum (wrappingSum a b).1 (UInt32.ofNat carry.toNat)).1 =
        UInt32.ofNat (a.toNat + b.toNat + carry.toNat) ∧
      ((wrappingSum a b).2 || (wrappingSum (wrappingSum a b).1 (UInt32.ofNat carry.toNat)).2).toNat =
        (a.toNat + b.toNat + carry.toNat) / base := by
  have ha := toNat_lt_base a
  have hb := toNat_lt_base b
  have hcarry := Bool.toNat_le carry
  unfold wrappingSum
  constructor
  · rw [← UInt32.toNat_inj]
    simp only [UInt32.toNat_add, toNat_ofNat, base_eq]
    omega
  · simp only [UInt32.toNat_add, toNat_ofNat, base_eq, Nat.pow_eq] at *
    -- the second sum wraps only where the first has not
    have hover : (2 ^ 32 ≤ a.toNat + b.toNat ∨
        2 ^ 32 ≤ (a.toNat + b.toNat) % 2 ^ 32 + carry.toNat % 2 ^ 32) ↔
        2 ^ 32 ≤ a.toNat + b.toNat + carry.toNat := by omega
    rw [← Bool.decide_or, decide_eq_decide.2 hover]
    by_cases hwraps : 2 ^ 32 ≤ a.toNat + b.toNat + carry.toNat
    · rw [decide_eq_true hwraps, Bool.toNat_true]
      omega
    · rw [decide_eq_false hwraps, Bool.toNat_false]
      omega

theorem addWords_eq (carry : Bool) {long short : List UInt32} (h : short.length ≤ long.length) :
    addWords carry long short = Limbs.addWords carry.toNat long short := by
  induction long generalizing carry short with
  | nil =>
    rw [List.length_eq_zero_iff.1 (Nat.le_zero.1 h)]
    cases carry <;> rfl
  | cons a long ih =>
    obtain ⟨hsum, hcarry⟩ := wrappingSum_twice a (short.headD 0) carry
    rw [addWords]
    dsimp only
    rw [hsum, ih _ (by cases short <;> simp at h ⊢; omega), hcarry]
    cases short with
    | nil =>
      -- beyond the shorter number only the carry is added
      rw [Limbs.addWords_nil, List.tail_nil, Limbs.addWords_nil, Limbs.mulAddWords, Nat.mul_one]
      rfl
    | cons b short => rfl

theorem add_eq (x y : Limbs) : add x y = x.add y := by
  unfold add Limbs.add
  split
  · next h => rw [addWords_eq false h]; rfl
  · next h =>
    rw [addWords_eq false (Nat.le_of_not_le h), Limbs.addWords_comm]
    rfl

/-- A difference with a borrow in two differences that wrap, of which at most one does. -/
theorem wrappingDifference_twice (a b : UInt32) (borrow : Bool) :
    (wrappingDifference (wrappingDifference a b).1 (UInt32.ofNat borrow.toNat)).1 =
        UInt32.ofNat (if b.toNat + borrow.toNat ≤ a.toNat then a.toNat - (b.toNat + borrow.toNat)
          else a.toNat + base - (b.toNat + borrow.toNat)) ∧
      ((wrappingDifference a b).2 ||
          (wrappingDifference (wrappingDifference a b).1 (UInt32.ofNat borrow.toNat)).2).toNat =
        if b.toNat + borrow.toNat ≤ a.toNat then 0 else 1 := by
  have ha := toNat_lt_base a
  have hb := toNat_lt_base b
  have hborrow := Bool.toNat_le borrow
  unfold wrappingDifference
  constructor
  · rw [← UInt32.toNat_inj]
    simp only [UInt32.toNat_sub, toNat_ofNat, base_eq] at *
    split <;> omega
  · simp only [UInt32.lt_iff_toNat_lt, UInt32.toNat_sub, toNat_ofNat, base_eq] at *
    have hunder : (a.toNat < b.toNat ∨
        (2 ^ 32 - b.toNat + a.toNat) % 2 ^ 32 < borrow.toNat % 2 ^ 32) ↔
        ¬b.toNat + borrow.toNat ≤ a.toNat := by omega
    rw [← Bool.decide_or, decide_eq_decide.2 hunder]
    split
    · next hfits => rw [decide_eq_false (not_not.2 hfits), Bool.toNat_false]
    · next hfits => rw [decide_eq_true hfits, Bool.toNat_true]

/-- The borrow as a flag is the borrow as a number. -/
theorem subWords_eq (borrow : Bool) (xs ys : List UInt32) :
    subWords borrow xs ys = Limbs.subWords borrow.toNat xs ys := by
  induction xs generalizing borrow ys with
  | nil => rfl
  | cons x xs ih =>
    obtain ⟨hrest, hborrow⟩ := wrappingDifference_twice x (ys.headD 0) borrow
    rw [subWords, Limbs.subWords]
    dsimp only
    rw [hrest, ih, hborrow]
    split <;> rfl

/-- The assertion of the subtraction holds when the result is not negative. -/
theorem sub?_eq (hx : x.Represents m) (hy : y.Represents n) (h : n ≤ m) :
    sub? x y = some (x.sub y) := by
  unfold sub?
  rw [hy.le hx, if_pos (decide_eq_true h), subWords_eq]
  rfl

/-! ## Comparison -/

theorem compareLex_append_singleton {α : Type} (cmp : α → α → Ordering) {xs ys : List α}
    (h : xs.length = ys.length) (a b : α) :
    List.compareLex cmp (xs ++ [a]) (ys ++ [b]) = (List.compareLex cmp xs ys).then (cmp a b) := by
  induction xs generalizing ys with
  | nil =>
    rw [List.length_eq_zero_iff.1 h.symm, List.nil_append, List.nil_append, List.compareLex_cons_cons,
      List.compareLex_nil_nil]
    cases cmp a b <;> rfl
  | cons x xs ih =>
    cases ys with
    | nil => cases h
    | cons y ys =>
      rw [List.cons_append, List.cons_append, List.compareLex_cons_cons, List.compareLex_cons_cons,
        ih (Nat.succ.inj h), Ordering.then_assoc]

/-- The two orders agree, trimmed or not. -/
theorem compare_eq (x y : Limbs) : compare x y = x.compare y := by
  unfold compare Limbs.compare
  generalize x.words = xs
  generalize y.words = ys
  induction xs generalizing ys with
  | nil => cases ys <;> rfl
  | cons x xs ih =>
    cases ys with
    | nil => rfl
    | cons y ys =>
      have hlength : Ord.compare (xs.length + 1) (ys.length + 1) = Ord.compare xs.length ys.length := by
        simp only [Nat.compare_eq_ite_lt, Nat.add_lt_add_iff_right]
      -- the lowest limb is the last to be compared
      rw [Limbs.compareWords, ← ih, List.length_cons, List.length_cons, hlength, List.reverse_cons,
        List.reverse_cons, Ordering.then_assoc]
      rcases Nat.lt_trichotomy xs.length ys.length with hlt | heq | hgt
      · rw [Nat.compare_eq_lt.2 hlt]
        rfl
      · rw [compareLex_append_singleton _ (by rwa [List.length_reverse, List.length_reverse])]
      · rw [Nat.compare_eq_gt.2 hgt]
        rfl

/-! ## Small quotients and lengths -/

/-- The count stays in its word as long as the quotient does. -/
theorem takeOff?_eq (hd : d.Represents D) (hD : 0 < D) (times : ℕ) {r : Limbs} {R count : ℕ}
    (hr : r.Represents R) (htimes : R / D ≤ times) (hcount : count + R / D < 2 ^ 32) :
    takeOff? d count r = some (d.takeOff times count r) := by
  induction times generalizing r R count with
  | zero =>
    have hlt : R < D := (Nat.div_eq_zero_iff_lt hD).1 (Nat.le_zero.1 htimes)
    rw [takeOff?, hd.le hr, decide_eq_false (not_le.2 hlt), if_neg Bool.false_ne_true]
    rfl
  | succ times ih =>
    rw [takeOff?, Limbs.takeOff, hd.le hr]
    by_cases hle : D ≤ R
    · have hquot : R / D = (R - D) / D + 1 := Nat.div_eq_sub_div hD hle
      have hnext : count + 1 < Nat.pow 2 32 :=
        (Nat.add_le_add_left (Nat.div_pos hle hD) count).trans_lt hcount
      rw [decide_eq_true hle, if_pos rfl, if_pos rfl, if_pos hnext, bind_of_some (sub?_eq hr hd hle)]
      exact ih (hr.sub hd hle) (by omega) (by omega)
    · rw [decide_eq_false hle, if_neg Bool.false_ne_true, if_neg Bool.false_ne_true]

/-- The count of the quotient stays in a limb. -/
theorem divModSmall?_eq (hx : x.Represents n) (hd : d.Represents D) (hD : 0 < D)
    (hquot : n / D < 2 ^ 32) : divModSmall? x d = some (x.divModSmall d) :=
  takeOff?_eq hd hD _ hx (hx.div_le hd hD) (by rwa [Nat.zero_add])

/-- The bits of all limbs are counted in a word of 32 bits, less those above the leading one. -/
theorem bitLength?_eq (hx : x.Represents n) (hn : n.size ≤ 2 ^ 32 - 32) :
    bitLength? x = some n.size := by
  have hlength := hx.length_le (Nat.size_le.1 hn)
  rw [← hx.bitLength]
  unfold bitLength? Limbs.bitLength
  cases hlast : x.words.getLast? with
  | none => rfl
  | some top =>
    have htop : top ≠ 0 := fun h0 => hx.trimmed (by rw [hlast, h0])
    have hlog : top.toNat.log2 < 32 :=
      (Nat.log2_lt fun h0 => htop (UInt32.toNat_inj.1 h0)).2 (toNat_lt_base top)
    have hpos : 0 < x.words.length := List.length_pos_iff.2 fun hnil => by simp [hnil] at hlast
    dsimp only
    rw [bind_of_some (product?_of_lt (by omega)), leadingZeros, if_neg htop,
      difference?_of_le (by omega)]
    congr 1
    omega

end CheckedLimbs

end MachineNumbers
