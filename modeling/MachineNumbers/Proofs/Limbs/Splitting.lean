import Mathlib
import MachineNumbers.Proofs.Limbs.Checked

/-!
# Splitting limbs at a bit

A number of at most 128 bits above a cut is put together limb by limb in one word of 128 bits.  What is
joined so far ends where the next limb begins (`joined?_eq`), and no limb is moved beyond the word, since
it is a part of what is left of the number (`movedUp_eq`).  Below the cut are whole limbs and the low bits
of the one that is cut (`anyBelow?_eq`).
-/

namespace MachineNumbers

namespace Limbs

/-- A limb in its place is a part of the number. -/
theorem mul_pow_le_wordsToNat {ws : List UInt32} {i : ℕ} {w : UInt32} (h : ws[i]? = some w) :
    w.toNat * base ^ i ≤ wordsToNat ws := by
  induction ws generalizing i with
  | nil => simp at h
  | cons v ws ih =>
    rw [wordsToNat_cons]
    cases i with
    | zero =>
      obtain rfl : v = w := by simpa using h
      rw [pow_zero, Nat.mul_one]
      exact Nat.le_add_right _ _
    | succ i =>
      rw [List.getElem?_cons_succ] at h
      calc w.toNat * base ^ (i + 1) = base * (w.toNat * base ^ i) := by ring
        _ ≤ base * wordsToNat ws := Nat.mul_le_mul_left _ (ih h)
        _ ≤ v.toNat + base * wordsToNat ws := Nat.le_add_left _ _

end Limbs

namespace CheckedLimbs

open Limbs (base base_eq toNat_lt_base wordsToNat wordsToNat_cons)
open MachineWord

variable {x : Limbs} {n shift offset place : ℕ}

/-! ## Bits above the cut -/

/-- A limb that fits the word where it is moved to loses no bit; past the word only a zero fits. -/
theorem movedUp_eq {w : UInt32} {amount : ℕ} (h : w.toNat * 2 ^ amount < 2 ^ 128) :
    movedUp w amount = w.toNat * 2 ^ amount := by
  unfold movedUp
  split
  · rw [Nat.shiftLeft_eq, Nat.pow_eq, Nat.mod_eq_of_lt h]
  · next hfar =>
    have hzero : w.toNat = 0 := by
      by_contra hne
      have hpow : 2 ^ 128 ≤ 2 ^ amount := Nat.pow_le_pow_right (by decide) (not_lt.1 hfar)
      exact absurd h (not_lt.2 (hpow.trans (Nat.le_mul_of_pos_left _ (Nat.pos_of_ne_zero hne))))
    rw [hzero, Nat.zero_mul]

theorem bitsAbove?_eq {w : UInt32} (hpos : 0 < place) (hplace : place < 2 ^ 27) (hoffset : offset < 32)
    (h : w.toNat * 2 ^ (32 * place - offset) < 2 ^ 128) :
    bitsAbove? offset place w = some (w.toNat * 2 ^ (32 * place - offset)) := by
  unfold bitsAbove?
  rw [if_neg hpos.ne', bind_of_some (product?_of_lt (by omega)),
    bind_of_some (difference?_of_le (by omega)), movedUp_eq h]

/-- Limbs above the one that is cut are joined where the bits from below end. -/
theorem joined?_above (hoffset : offset < 32) (ws : List UInt32) {place value : ℕ} (hpos : 0 < place)
    (hlength : place + ws.length ≤ 2 ^ 27) (hvalue : value < 2 ^ (32 * place - offset))
    (hws : wordsToNat ws * 2 ^ (32 * place - offset) < 2 ^ 128) :
    joined? offset place value ws = some (value + wordsToNat ws * 2 ^ (32 * place - offset)) := by
  induction ws generalizing place value with
  | nil => rw [joined?, Limbs.wordsToNat_nil, Nat.zero_mul, Nat.add_zero]
  | cons w ws ih =>
    have hnext : 32 * (place + 1) - offset = 32 * place - offset + 32 := by omega
    rw [List.length_cons] at hlength
    generalize hamount : 32 * place - offset = amount at *
    have hsplit : wordsToNat (w :: ws) * 2 ^ amount =
        w.toNat * 2 ^ amount + wordsToNat ws * 2 ^ (amount + 32) := by
      rw [wordsToNat_cons, base_eq, pow_add]
      ring
    have hlimb : w.toNat * 2 ^ amount < 2 ^ 128 := by omega
    have hor : value ||| w.toNat * 2 ^ amount = value + w.toNat * 2 ^ amount := by
      rw [← Nat.shiftLeft_eq, Nat.or_comm, ← Nat.shiftLeft_add_eq_or_of_lt hvalue, Nat.add_comm]
    -- with this limb the value ends where the next one begins
    have hjoined : value + w.toNat * 2 ^ amount < 2 ^ (amount + 32) := by
      rw [Nat.add_comm value, pow_add, Nat.mul_comm (2 ^ amount)]
      exact Limbs.toNat_mul_add_lt w hvalue
    have hbits := bitsAbove?_eq hpos (by omega) hoffset (by rwa [hamount])
    rw [hamount] at hbits
    rw [joined?, bind_of_some hbits, hor, ih (Nat.succ_pos _) (by omega) (by rwa [hnext])
      (by rw [hnext]; omega), hnext, hsplit, Nat.add_assoc]

/-- The limb that is cut gives its high bits, and all above begin where these end. -/
theorem joined?_eq (hoffset : offset < 32) {ws : List UInt32} (hlength : ws.length ≤ 2 ^ 27)
    (hws : wordsToNat ws / 2 ^ offset < 2 ^ 128) :
    joined? offset 0 0 ws = some (wordsToNat ws / 2 ^ offset) := by
  cases ws with
  | nil => rw [joined?, Limbs.wordsToNat_nil, Nat.zero_div]
  | cons w ws =>
    have hsplit : wordsToNat (w :: ws) / 2 ^ offset =
        w.toNat / 2 ^ offset + wordsToNat ws * 2 ^ (32 * 1 - offset) := by
      have hbase : base = 2 ^ offset * 2 ^ (32 * 1 - offset) := by
        rw [base_eq, ← pow_add]
        congr 1
        omega
      rw [wordsToNat_cons, hbase, Nat.mul_assoc, Nat.add_mul_div_left _ _ (Nat.two_pow_pos offset),
        Nat.mul_comm (2 ^ (32 * 1 - offset))]
    have hlow : w.toNat / 2 ^ offset < 2 ^ (32 * 1 - offset) := by
      rw [Nat.div_lt_iff_lt_mul (Nat.two_pow_pos offset), ← pow_add,
        show 32 * 1 - offset + offset = 32 by omega]
      exact toNat_lt_base w
    rw [List.length_cons] at hlength
    rw [hsplit] at hws
    have hhigh : wordsToNat ws * 2 ^ (32 * 1 - offset) < 2 ^ 128 :=
      (Nat.le_add_left _ _).trans_lt hws
    rw [joined?, bitsAbove?, if_pos rfl, bind_of_some (shiftRight?_of_lt hoffset _),
      Nat.shiftRight_eq_div_pow, Nat.zero_or, hsplit]
    exact joined?_above hoffset ws Nat.one_pos (by omega) hlow hhigh

/-! ## Bits below the cut -/

theorem anyLow?_eq (hoffset : offset < 32) (ws : List UInt32) :
    anyLow? offset ws[0]? = some ((ws.headD 0).toNat % 2 ^ offset != 0) := by
  cases ws with
  | nil =>
    rw [List.headD_nil, UInt32.toNat_zero, Nat.zero_mod]
    rfl
  | cons w ws =>
    rw [List.getElem?_cons_zero, anyLow?, bind_of_some (cutAt?_of_lt hoffset _)]
    rfl

theorem anyBelow?_eq (x : Limbs) (shift : ℕ) : anyBelow? x shift = some (x.splitAtBit shift).2 := by
  have hcut : x.words[shift / 32]? = (x.words.drop (shift / 32))[0]? := by
    rw [List.getElem?_drop, Nat.add_zero]
  unfold anyBelow? Limbs.splitAtBit
  rw [hcut, anyLow?_eq (Nat.mod_lt _ (by decide))]
  dsimp only
  split
  · next hany => rw [hany, Bool.true_or]
  · next hany =>
    rw [Bool.eq_false_of_not_eq_true hany, Bool.false_or]
    split
    · next hwhole =>
      rw [hwhole, Nat.pow_eq, pow_zero, Nat.mod_one]
      rfl
    · rfl

/-! ## The cut -/

/-- What is above the cut are at most five limbs with the quotient over the bits that are cut off. -/
theorem wordsToNat_above (hx : x.Represents n) (hn : n < 2 ^ (shift + 128)) :
    (x.words.drop (shift / 32)).length ≤ 5 ∧
      wordsToNat (x.words.drop (shift / 32)) / 2 ^ (shift % 32) = n / 2 ^ shift := by
  have hlength := hx.length_le hn
  have hshift := Nat.div_add_mod shift 32
  constructor
  · rw [List.length_drop]
    omega
  · rw [Limbs.wordsToNat_drop, Nat.div_div_eq_div_mul, base_eq, ← pow_mul, ← pow_add, hshift]
    exact congrArg (· / 2 ^ shift) hx.toNat_eq

theorem splitAtBit?_eq (hx : x.Represents n) (hn : n < 2 ^ (shift + 128)) :
    splitAtBit? x shift = some (x.splitAtBit shift) := by
  have hfits : n / 2 ^ shift < 2 ^ 128 := by
    rwa [Nat.div_lt_iff_lt_mul (Nat.two_pow_pos shift), ← pow_add, Nat.add_comm 128]
  obtain ⟨hlength, hvalue⟩ := wordsToNat_above hx hn
  have hjoined := joined?_eq (Nat.mod_lt shift (by decide)) (hlength.trans (by decide)) (by rwa [hvalue])
  unfold splitAtBit?
  rw [bind_of_some (anyBelow?_eq x shift), bind_of_some hjoined, hvalue, Limbs.splitAtBit_eq hx.toNat_eq]

/-- A number cut at a bit, with at most 128 bits above the cut: the quotient by the power of two and
whether there is a rest.  No limb loses a bit where it is moved to. -/
theorem splitAtBit_exact (hx : x.Represents n) (hbits : x.bitLength ≤ shift + 128) :
    splitAtBit? x shift = some (x.splitAtBit shift) ∧
      x.splitAtBit shift = (n / 2 ^ shift, n % 2 ^ shift != 0) ∧
      ∀ (i : ℕ) (w : UInt32), (x.words.drop (shift / 32))[i]? = some w → 0 < i →
        movedUp w (32 * i - shift % 32) = w.toNat * 2 ^ (32 * i - shift % 32) := by
  have hn : n < 2 ^ (shift + 128) := by
    rw [hx.bitLength] at hbits
    exact Nat.size_le.1 hbits
  have hfits : n / 2 ^ shift < 2 ^ 128 := by
    rwa [Nat.div_lt_iff_lt_mul (Nat.two_pow_pos shift), ← pow_add, Nat.add_comm 128]
  refine ⟨splitAtBit?_eq hx hn, Limbs.splitAtBit_eq hx.toNat_eq shift, fun i w hw hi => movedUp_eq ?_⟩
  -- in its place the limb is at most what is above the cut, which is 128 bits
  have hlimb := Limbs.mul_pow_le_wordsToNat hw
  have hplace : base ^ i = 2 ^ (32 * i - shift % 32) * 2 ^ (shift % 32) := by
    rw [base_eq, ← pow_mul, ← pow_add]
    congr 1
    omega
  rw [hplace, ← Nat.mul_assoc, ← Nat.le_div_iff_mul_le (Nat.two_pow_pos _),
    (wordsToNat_above hx hn).2] at hlimb
  exact hlimb.trans_lt hfits

/-- Five limbs: the lowest is cut and all that is left of the highest is moved to bit 125. -/
theorem splitAtBit_exact_five_limbs :
    splitAtBit? ⟨[9, 0, 0, 0, 5]⟩ 3 = some (5 * 2 ^ 125 + 1, true) := by
  have hx : Limbs.Represents ⟨[9, 0, 0, 0, 5]⟩ (5 * 2 ^ 128 + 9) := ⟨by decide, by decide⟩
  have hbits : (⟨[9, 0, 0, 0, 5]⟩ : Limbs).bitLength ≤ 3 + 128 := by decide
  obtain ⟨hchecked, hsplit, -⟩ := splitAtBit_exact hx hbits
  rw [hchecked, hsplit]
  decide

end CheckedLimbs

end MachineNumbers
