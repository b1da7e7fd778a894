import Mathlib
import MachineNumbers.Proofs.Arithmetic.Remainder

/-!
# The reduction loop step by step

A dividend of the greater exponent is shifted into place at most 64 bits at a time and reduced after each
step.  `Reduction.Step` is one step of that loop, on a residue and the count of places still to shift by.
What a step leaves is reduced, and stands for the same number modulo the divisor (`Step.residue_lt`,
`Step.modEq`); so does every state that the loop comes through.  The residues that `shiftedMod` computes
are these states (`reaches_foldl`), and at the last of them no places are left (`endsWith_remainderAt`).
-/

namespace MachineNumbers

/-- The state of the loop: a residue, and by how many places it still has to be shifted. -/
structure Reduction where
  residue : ℕ
  left : ℕ

namespace Reduction

variable {m : ℕ} {s t : Reduction}

/-- The residue shifted by the places of the next step, the greatest number that the step computes. -/
def shifted (s : Reduction) : ℕ := s.residue <<< min s.left 64

/-- One step modulo `m`; there is one as long as places are left. -/
inductive Step (m : ℕ) : Reduction → Reduction → Prop where
  | reduce (s : Reduction) (h : 0 < s.left) : Step m s ⟨s.shifted % m, s.left - min s.left 64⟩

def Reaches (m : ℕ) : Reduction → Reduction → Prop := Relation.ReflTransGen (Step m)

/-- The residue that `shiftedMod` has computed after some of its steps. -/
def residueAfter (m r : ℕ) (steps : List ℕ) : ℕ := steps.foldl (fun r s => (r <<< s) % m) r

/-- The loop modulo `m` ends with the residue `r`.  It comes through all that `shiftedMod` computes; all
residues on its way are reduced and stand for the same number, and none outgrows 128 bits when it is
shifted. -/
structure EndsWith (m : ℕ) (start : Reduction) (r : ℕ) : Prop where
  reaches : Reaches m start ⟨r, 0⟩
  /-- Before its step `s`, with the steps in `after` to follow. -/
  computed : ∀ before s after, shiftSteps start.left = before ++ s :: after →
    ∃ t, Reaches m start t ∧ t.residue = residueAfter m start.residue before ∧ t.shifted = t.residue <<< s
  residue_lt : ∀ s, Reaches m start s → s.residue < m
  modEq : ∀ s, Reaches m start s →
    s.residue * 2 ^ s.left ≡ start.residue * 2 ^ start.left [MOD m]
  shifted_lt : ∀ s, Reaches m start s → s.shifted < 2 ^ 128

/-! ## One step -/

theorem shifted_eq (s : Reduction) : s.shifted = s.residue * 2 ^ min s.left 64 :=
  Nat.shiftLeft_eq _ _

theorem Step.residue_lt (hm : 0 < m) (h : Step m s t) : t.residue < m := by
  cases h
  exact Nat.mod_lt _ hm

/-- The number that a state stands for stays the same modulo `m`. -/
theorem Step.modEq (h : Step m s t) :
    t.residue * 2 ^ t.left ≡ s.residue * 2 ^ s.left [MOD m] := by
  cases h
  have hsplit : 2 ^ s.left = 2 ^ min s.left 64 * 2 ^ (s.left - min s.left 64) := by
    rw [← pow_add]
    congr 1
    omega
  rw [hsplit, ← Nat.mul_assoc, ← shifted_eq]
  exact (Nat.mod_modEq s.shifted m).mul_right _

theorem shifted_lt (hm : m ≤ 2 ^ 64) (h : s.residue < m) : s.shifted < 2 ^ 128 := by
  have hpow : 2 ^ min s.left 64 ≤ 2 ^ 64 := Nat.pow_le_pow_right (by decide) (min_le_right _ _)
  rw [shifted_eq]
  calc s.residue * 2 ^ min s.left 64 < 2 ^ 64 * 2 ^ 64 :=
        Nat.mul_lt_mul_of_lt_of_le (h.trans_le hm) hpow (by decide)
    _ = 2 ^ 128 := by rw [← pow_add]

/-! ## The whole run -/

theorem Reaches.residue_lt (hm : 0 < m) (hs : s.residue < m) (h : Reaches m s t) : t.residue < m := by
  induction h with
  | refl => exact hs
  | tail _ hstep _ => exact hstep.residue_lt hm

theorem Reaches.modEq (h : Reaches m s t) :
    t.residue * 2 ^ t.left ≡ s.residue * 2 ^ s.left [MOD m] := by
  induction h with
  | refl => rfl
  | tail _ hstep ih => exact hstep.modEq.trans ih

/-! ## The steps of `shiftedMod` -/

/-- Each step is by 64 places, or by all that are left. -/
theorem min_of_shiftSteps {d s : ℕ} {before after : List ℕ} (h : shiftSteps d = before ++ s :: after) :
    min (s + after.sum) 64 = s := by
  rcases List.eq_nil_or_concat after with rfl | ⟨rest, last, rfl⟩
  · -- the last step is by the places that no step by 64 is left for
    obtain ⟨-, hlast⟩ := List.append_inj' h rfl
    have hs : d % 64 = s := by simpa using hlast
    rw [List.sum_nil]
    omega
  · have hsplit : List.replicate (d / 64) 64 ++ [d % 64] = (before ++ s :: rest) ++ [last] := by
      simpa [shiftSteps] using h
    obtain ⟨hinit, -⟩ := List.append_inj' hsplit rfl
    have hmem : s ∈ List.replicate (d / 64) 64 := by
      rw [hinit]
      exact List.mem_append_right _ List.mem_cons_self
    obtain rfl := List.eq_of_mem_replicate hmem
    omega

/-- The loop comes through the residues that `shiftedMod` computes. -/
theorem reaches_foldl {r d : ℕ} (hm : 0 < m) (hr : r < m) (before after : List ℕ)
    (h : shiftSteps d = before ++ after) :
    Reaches m ⟨r, d⟩ ⟨residueAfter m r before, after.sum⟩ := by
  induction before using List.reverseRecOn generalizing after with
  | nil =>
    have hsum : after.sum = d := by rw [← sum_shiftSteps d, h, List.nil_append]
    rw [hsum]
    exact .refl
  | append_singleton before s ih =>
    rw [List.append_assoc, List.singleton_append] at h
    have hreach := ih (s :: after) h
    have hmin := min_of_shiftSteps h
    rw [List.sum_cons] at hreach
    rw [residueAfter, List.foldl_concat, ← residueAfter]
    rcases Nat.eq_zero_or_pos (s + after.sum) with h0 | hpos
    · -- a last step by no places changes nothing
      obtain ⟨rfl, hsum⟩ : s = 0 ∧ after.sum = 0 := by omega
      rw [Nat.shiftLeft_zero, Nat.mod_eq_of_lt (hreach.residue_lt hm hr)]
      simpa using hreach
    · have hstep := Step.reduce (m := m) ⟨residueAfter m r before, s + after.sum⟩ hpos
      simp only [shifted, hmin, Nat.add_sub_cancel_left] at hstep
      exact hreach.tail hstep

theorem endsWith_shiftedMod {r : ℕ} (hm : m ≤ 2 ^ 64) (hr : r < m) (d : ℕ) :
    EndsWith m ⟨r, d⟩ (shiftedMod r d m) := by
  have hpos : 0 < m := (Nat.zero_le r).trans_lt hr
  refine ⟨?_, fun before s after h => ?_, fun s hs => hs.residue_lt hpos hr, fun s hs => hs.modEq,
    fun s hs => shifted_lt hm (hs.residue_lt hpos hr)⟩
  · exact reaches_foldl hpos hr (shiftSteps d) [] (List.append_nil _).symm
  · refine ⟨_, reaches_foldl hpos hr before (s :: after) h, rfl, ?_⟩
    rw [shifted, List.sum_cons, min_of_shiftSteps h]

/-- From any gap of exponents the loop ends with the residue that is the remainder. -/
theorem endsWith_remainderAt {mx my : ℕ} {ex ey : ℤ} (hpos : 0 < my) (hmy : my ≤ 2 ^ 64)
    (hle : ey ≤ ex) : EndsWith my ⟨mx % my, (ex - ey).toNat⟩ (remainderAt mx ex my ey).1 := by
  rw [remainderAt, if_pos hle]
  exact endsWith_shiftedMod hmy (Nat.mod_lt mx hpos) _

end Reduction

end MachineNumbers
