import Mathlib
import MachineNumbers.Proofs.Limbs.Checked

/-!
# Combinations of numbers in limbs

Whatever is built from words by the operations on limbs are the trimmed limbs of the number that the same
operations give, and no step on the way fails (`LimbsExpr.represents`): every operation takes trimmed limbs
to trimmed limbs, through carries and borrows over any number of them.  Length, order, equality and small
quotients of the limbs are then those of the numbers.
-/

namespace MachineNumbers

namespace LimbsExpr

open MachineWord (bind_of_some)

/-- The limbs of a combination, by induction on it with one operation for each case. -/
theorem represents {e : LimbsExpr} (he : e.Admissible) :
    e.limbs.Represents e.value ∧ e.limbs? = some e.limbs := by
  induction e with
  | ofNat64 n => exact ⟨Limbs.ofNat64_represents n.toNat_lt, CheckedLimbs.ofNat64?_eq n.toNat⟩
  | mulAddSmall x factor addend ih =>
    obtain ⟨hx, hsteps⟩ := ih he
    exact ⟨hx.mulAddSmall factor addend,
      (bind_of_some hsteps _).trans (CheckedLimbs.mulAddSmall?_eq x.limbs factor addend)⟩
  | mul10 x ih =>
    obtain ⟨hx, hsteps⟩ := ih he
    refine ⟨?_, (bind_of_some hsteps _).trans (CheckedLimbs.mul10?_eq x.limbs)⟩
    rw [value, Nat.mul_comm]
    exact hx.mul10
  | mulPow10 x n ih =>
    obtain ⟨hx, hsteps⟩ := ih he
    refine ⟨?_, (bind_of_some hsteps _).trans (CheckedLimbs.mulPow10?_eq hx n)⟩
    rw [value, Nat.mul_comm]
    exact hx.mulPow10 n
  | mulPow2 x n ih =>
    obtain ⟨hx, hsteps⟩ := ih he
    refine ⟨?_, (bind_of_some hsteps _).trans (CheckedLimbs.mulPow2?_eq x.limbs n)⟩
    rw [value, Nat.mul_comm]
    exact hx.mulPow2 n
  | add x y ihx ihy =>
    obtain ⟨hx, hxsteps⟩ := ihx he.1
    obtain ⟨hy, hysteps⟩ := ihy he.2
    refine ⟨hx.add hy, ?_⟩
    rw [limbs?, bind_of_some hxsteps, bind_of_some hysteps, CheckedLimbs.add_eq]
    rfl
  | sub x y ihx ihy =>
    obtain ⟨hxadm, hyadm, hle⟩ := he
    obtain ⟨hx, hxsteps⟩ := ihx hxadm
    obtain ⟨hy, hysteps⟩ := ihy hyadm
    refine ⟨hx.sub hy hle, ?_⟩
    rw [limbs?, bind_of_some hxsteps, bind_of_some hysteps, CheckedLimbs.sub?_eq hx hy hle]
    rfl
  | remainder x d ihx ihd =>
    obtain ⟨hxadm, hdadm, hpos, hquot⟩ := he
    obtain ⟨hx, hxsteps⟩ := ihx hxadm
    obtain ⟨hd, hdsteps⟩ := ihd hdadm
    refine ⟨(hx.divModSmall hd hpos).2, ?_⟩
    rw [limbs?, bind_of_some hxsteps, bind_of_some hdsteps,
      bind_of_some (CheckedLimbs.divModSmall?_eq hx hd hpos hquot)]
    rfl

/-- Numbers that are built by any admissible operations stay trimmed and mean what they say: no step fails,
the limbs are those of the number, and length, order, equality and small quotients are the numbers' own. -/
theorem limbs_mean_value {e : LimbsExpr} (he : e.Admissible) :
    e.limbs? = some e.limbs ∧ e.limbs.Trimmed ∧ e.limbs.toNat = e.value ∧
      (e.value < 2 ^ (2 ^ 32 - 32) → CheckedLimbs.bitLength? e.limbs = some e.value.size) ∧
      ∀ f : LimbsExpr, f.Admissible →
        CheckedLimbs.compare e.limbs f.limbs = compare e.value f.value ∧
        (e.limbs = f.limbs ↔ e.value = f.value) ∧
        (0 < f.value → e.value / f.value < 2 ^ 32 →
          CheckedLimbs.divModSmall? e.limbs f.limbs =
            some (e.value / f.value, (remainder e f).limbs)) := by
  obtain ⟨hrep, hsteps⟩ := represents he
  refine ⟨hsteps, hrep.trimmed, hrep.toNat_eq,
    fun hlt => CheckedLimbs.bitLength?_eq hrep (Nat.size_le.2 hlt), fun f hf => ?_⟩
  obtain ⟨hfrep, -⟩ := represents hf
  refine ⟨?_, hrep.eq_iff hfrep, fun hpos hquot => ?_⟩
  · rw [CheckedLimbs.compare_eq, hrep.compare hfrep]
  · rw [CheckedLimbs.divModSmall?_eq hrep hfrep hpos hquot, ← (hrep.divModSmall hfrep hpos).1]
    rfl

/-- A borrow through four limbs, and what is left of it by `2^100`. -/
theorem limbs_mean_value_borrow :
    (sub (mulPow2 (ofNat64 3) 100) (ofNat64 1)).limbs? =
        some ⟨[0xFFFFFFFF, 0xFFFFFFFF, 0xFFFFFFFF, 0x2F]⟩ ∧
      CheckedLimbs.bitLength? (sub (mulPow2 (ofNat64 3) 100) (ofNat64 1)).limbs = some 102 ∧
      CheckedLimbs.divModSmall? (sub (mulPow2 (ofNat64 3) 100) (ofNat64 1)).limbs
          (mulPow2 (ofNat64 1) 100).limbs =
        some (2, ⟨[0xFFFFFFFF, 0xFFFFFFFF, 0xFFFFFFFF, 0xF]⟩) := by
  have he : (sub (mulPow2 (ofNat64 3) 100) (ofNat64 1)).Admissible := ⟨trivial, trivial, by decide⟩
  have hbound : (2 : ℕ) ^ 102 ≤ 2 ^ (2 ^ 32 - 32) := Nat.pow_le_pow_right (by decide) (by decide)
  obtain ⟨hsteps, -, -, hlength, hpairs⟩ := limbs_mean_value he
  obtain ⟨-, -, hquot⟩ := hpairs (mulPow2 (ofNat64 1) 100) trivial
  rw [hsteps, hlength (lt_of_lt_of_le (by decide) hbound), hquot (by decide) (by decide)]
  decide +kernel

end LimbsExpr

end MachineNumbers
