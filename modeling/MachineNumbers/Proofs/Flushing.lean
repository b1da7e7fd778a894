import Mathlib
import MachineNumbers.BinaryFloat.Conversion
import MachineNumbers.Proofs.Outcome

/-!
# Flushing simulates gradual arithmetic

`BinaryFloat.flushed` puts the zero of its sign in the place of a subnormal number.  A mode that flushes
does not tell a float from its flushed one (`Operation.eval_map_flushed`, `convert_flushed`), and computes
on flushed operands what the gradual mode does, except that an exact result that is not zero and lies below
the least normal number becomes the zero of its sign, even if it would have been rounded up to the least
normal number (`flushToZero_simulates`).
-/

namespace MachineNumbers

namespace BinaryFloat

variable {fmt : FloatFormat} {x : BinaryFloat fmt}

/-- The zero of its sign in the place of a subnormal number. -/
def flushed (x : BinaryFloat fmt) : BinaryFloat fmt := if x.isSubnormal then zero x.sign else x

/-! ## Flushed numbers -/

/-- Only subnormal numbers are flushed. -/
theorem flushed_of_not_subnormal (h : x.isSubnormal = false) : x.flushed = x := by simp [flushed, h]

theorem flushed_of_subnormal (h : x.isSubnormal = true) : x.flushed = zero x.sign := by simp [flushed, h]

theorem isSubnormal_zero (sign : Bool) : (zero sign : BinaryFloat fmt).isSubnormal = false :=
  (isSubnormal_eq_false_iff _).2 (Or.inl rfl)

/-- Infinities and NaNs are no subnormal numbers. -/
theorem isSubnormal_of_not_finite (h : x.isFinite = false) : x.isSubnormal = false := by
  rw [← Bool.not_eq_true, isFinite_iff, not_lt] at h
  exact (isSubnormal_eq_false_iff x).2 (Or.inr ((hiddenBit_le_infinityWord fmt).trans h))

@[simp] theorem isSubnormal_flushed (x : BinaryFloat fmt) : x.flushed.isSubnormal = false := by
  cases h : x.isSubnormal
  · rw [flushed_of_not_subnormal h, h]
  · rw [flushed_of_subnormal h, isSubnormal_zero]

@[simp] theorem flushed_flushed (x : BinaryFloat fmt) : x.flushed.flushed = x.flushed :=
  flushed_of_not_subnormal (isSubnormal_flushed x)

@[simp] theorem sign_flushed (x : BinaryFloat fmt) : x.flushed.sign = x.sign := by
  unfold flushed
  split <;> rfl

/-- Flushing keeps the sign, so it commutes with negation. -/
theorem neg_flushed (x : BinaryFloat fmt) : -x.flushed = (-x).flushed := by
  cases h : x.isSubnormal
  · rw [flushed_of_not_subnormal h, flushed_of_not_subnormal (by rwa [isSubnormal_neg])]
  · rw [flushed_of_subnormal h, flushed_of_subnormal (by rwa [isSubnormal_neg])]
    rfl

theorem isFinite_of_isSubnormal (h : x.isSubnormal = true) : x.isFinite = true := by
  by_contra hf
  rw [isSubnormal_of_not_finite (Bool.eq_false_iff.2 hf)] at h
  cases h

@[simp] theorem isFinite_flushed (x : BinaryFloat fmt) : x.flushed.isFinite = x.isFinite := by
  cases h : x.isSubnormal
  · rw [flushed_of_not_subnormal h]
  · rw [flushed_of_subnormal h, isFinite_of_isSubnormal h, isFinite_iff]
    exact fmt.infinityWord_pos

theorem flushed_of_not_finite (h : x.isFinite = false) : x.flushed = x :=
  flushed_of_not_subnormal (isSubnormal_of_not_finite h)

theorem isNaN_flushed (x : BinaryFloat fmt) : x.flushed.isNaN = x.isNaN := by
  cases h : x.isFinite
  · rw [flushed_of_not_finite h]
  · rw [isNaN_of_isFinite h, isNaN_of_isFinite ((isFinite_flushed x).trans h)]

theorem isInfinite_flushed (x : BinaryFloat fmt) : x.flushed.isInfinite = x.isInfinite := by
  cases h : x.isFinite
  · rw [flushed_of_not_finite h]
  · rw [isInfinite_of_isFinite h, isInfinite_of_isFinite ((isFinite_flushed x).trans h)]

/-- What flushing reads is the flushed number. -/
theorem unpack_flushToZero (x : BinaryFloat fmt) :
    x.unpack .flushToZero = x.flushed.unpack .gradual := by
  cases h : x.isSubnormal
  · rw [flushed_of_not_subnormal h, unpack_of_plain (Or.inr h)]
  · have hfield : x.exponentField = 0 := by
      unfold isSubnormal at h
      rw [Bool.and_eq_true, beq_iff_eq] at h
      exact h.1
    have hzero : (zero x.sign : BinaryFloat fmt).exponentField = 0 := Nat.zero_div _
    have hfraction : (zero x.sign : BinaryFloat fmt).fractionField = 0 := Nat.zero_mod _
    rw [flushed_of_subnormal h, unpack, unpack, if_pos hfield, if_pos hzero, if_pos rfl,
      if_neg (by decide), hfraction]
    rfl

/-- An operand reads as zero when flushing makes a zero of it. -/
theorem readsAsZero_flushToZero (x : BinaryFloat fmt) :
    x.readsAsZero .flushToZero = x.flushed.isZero := by
  cases h : x.isSubnormal
  · rw [flushed_of_not_subnormal h, readsAsZero_of_plain (Or.inr h)]
  · simp [readsAsZero, h, flushed_of_subnormal h, isZero, zero]

theorem unpack_sig_eq_zero_iff_readsAsZero (mode : SubnormalMode) (x : BinaryFloat fmt) :
    (x.unpack mode).sig = 0 ↔ x.readsAsZero mode = true := by
  cases mode with
  | gradual => rw [unpack_sig_eq_zero, readsAsZero_gradual]
  | flushToZero => rw [unpack_flushToZero, unpack_sig_eq_zero, readsAsZero_flushToZero]

theorem sign_unpack (mode : SubnormalMode) (x : BinaryFloat fmt) : (x.unpack mode).sign = x.sign := by
  cases mode with
  | gradual => exact unpack_sign x
  | flushToZero => rw [unpack_flushToZero, unpack_sign, sign_flushed]

/-- What is not read as a zero is read as it is. -/
theorem unpack_of_not_readsAsZero {mode : SubnormalMode} (h : x.readsAsZero mode = false) :
    x.unpack mode = x.unpack .gradual := by
  refine unpack_of_plain ?_
  cases mode with
  | gradual => exact .inl rfl
  | flushToZero => exact .inr (by simpa [readsAsZero] using (Bool.or_eq_false_iff.1 h).2)

/-- The unpacking flushes by itself. -/
theorem unpack_flushed (x : BinaryFloat fmt) :
    x.flushed.unpack .flushToZero = x.unpack .flushToZero := by
  rw [unpack_flushToZero, unpack_flushToZero, flushed_flushed]

theorem readsAsZero_flushed (x : BinaryFloat fmt) :
    x.flushed.readsAsZero .flushToZero = x.readsAsZero .flushToZero := by
  rw [readsAsZero_flushToZero, readsAsZero_flushToZero, flushed_flushed]

/-- NaNs are not flushed. -/
theorem find?_isNaN_map_flushed (xs : List (BinaryFloat fmt)) :
    (xs.map flushed).find? isNaN = xs.find? isNaN := by
  induction xs with
  | nil => rfl
  | cons x xs ih =>
    rw [List.map_cons, List.find?_cons, List.find?_cons, isNaN_flushed]
    cases h : x.isNaN with
    | true => rw [flushed_of_not_finite (isFinite_of_isNaN h)]
    | false => exact ih

theorem propagatedNaN?_map_flushed (xs : List (BinaryFloat fmt)) :
    propagatedNaN? (xs.map flushed) = propagatedNaN? xs := by
  unfold propagatedNaN?
  rw [find?_isNaN_map_flushed]

/-! ## Operations -/

theorem add_flushed (x y : BinaryFloat fmt) :
    x.flushed.add .flushToZero y.flushed = x.add .flushToZero y := by
  have hnan := propagatedNaN?_map_flushed [x, y]
  simp only [List.map_cons, List.map_nil] at hnan
  unfold add
  simp only [hnan, isInfinite_flushed, sign_flushed, unpack_flushed]
  cases hx : x.isInfinite
  · cases hy : y.isInfinite
    · simp only [Bool.false_eq_true, if_false]
    · rw [flushed_of_not_finite (isFinite_of_isInfinite hy)]
      simp only [Bool.false_eq_true, if_false]
  · rw [flushed_of_not_finite (isFinite_of_isInfinite hx)]
    simp only [if_true]

/-- The special cases of the remainder look at flushed operands only. -/
theorem remainderSpecial?_flushed (x y : BinaryFloat fmt) :
    x.flushed.remainderSpecial? .flushToZero y.flushed = x.remainderSpecial? .flushToZero y := by
  have hnan := propagatedNaN?_map_flushed [x, y]
  simp only [List.map_cons, List.map_nil] at hnan
  unfold remainderSpecial?
  simp only [hnan, isInfinite_flushed, readsAsZero_flushed, unpack_flushed]

theorem addProduct_flushed (x y z : BinaryFloat fmt) :
    x.flushed.addProduct .flushToZero y.flushed z.flushed = x.addProduct .flushToZero y z := by
  have hnan := propagatedNaN?_map_flushed [x, y, z]
  simp only [List.map_cons, List.map_nil] at hnan
  unfold addProduct
  simp only [hnan, isInfinite_flushed, sign_flushed, readsAsZero_flushed, unpack_flushed]
  cases hx : x.isInfinite
  · rfl
  · rw [flushed_of_not_finite (isFinite_of_isInfinite hx)]

theorem squareRoot_flushed (x : BinaryFloat fmt) :
    x.flushed.squareRoot .flushToZero = x.squareRoot .flushToZero := by
  unfold squareRoot
  simp only [isNaN_flushed, isInfinite_flushed, unpack_flushed]
  cases hx : x.isFinite
  · rw [flushed_of_not_finite hx]
  · simp [isNaN_of_isFinite hx, isInfinite_of_isFinite hx]

end BinaryFloat

open BinaryFloat

namespace Operation

variable {fmt : FloatFormat}

/-- A mode that flushes does not tell operands from flushed ones. -/
theorem eval_map_flushed (op : Operation fmt) :
    (op.map flushed).eval .flushToZero = op.eval .flushToZero := by
  cases op with
  | add x y => exact add_flushed x y
  | sub x y =>
    have hnan := propagatedNaN?_map_flushed [x, y]
    simp only [List.map_cons, List.map_nil] at hnan
    simp only [map, eval, BinaryFloat.sub, hnan, neg_flushed, add_flushed]
  | mul x y =>
    have hnan := propagatedNaN?_map_flushed [x, y]
    simp only [List.map_cons, List.map_nil] at hnan
    simp only [map, eval, BinaryFloat.mul, hnan, isInfinite_flushed, sign_flushed, readsAsZero_flushed,
      unpack_flushed]
  | div x y =>
    have hnan := propagatedNaN?_map_flushed [x, y]
    simp only [List.map_cons, List.map_nil] at hnan
    simp only [map, eval, BinaryFloat.div, hnan, isInfinite_flushed, sign_flushed, unpack_flushed]
  | truncatingRemainder x y =>
    simp only [map, eval, BinaryFloat.truncatingRemainder, remainderSpecial?_flushed, unpack_flushed]
  | remainder x y =>
    simp only [map, eval, BinaryFloat.remainder, remainderSpecial?_flushed, unpack_flushed]
  | addProduct x y z => exact addProduct_flushed x y z
  | squareRoot x => exact squareRoot_flushed x

/-- After flushing, no operand is subnormal. -/
theorem not_subnormal_of_mem_map_flushed (op : Operation fmt) :
    ∀ x ∈ (op.map flushed).operands, x.isSubnormal = false := by
  intro x hx
  rw [operands_map] at hx
  obtain ⟨y, -, rfl⟩ := List.mem_map.1 hx
  exact isSubnormal_flushed y

/-- On operands that are not subnormal, the modes differ by what packing flushes. -/
theorem Outcome.flushToZero {op : Operation fmt} {f : SubnormalMode → BinaryFloat fmt}
    (h : Outcome op f) (hplain : ∀ x ∈ op.operands, x.isSubnormal = false) :
    f .flushToZero = flushUnderflow op.exactResult? (f .gradual) := by
  cases h with
  | propagated hnan =>
    obtain ⟨x, hx, -⟩ := Option.map_eq_some_iff.1 hnan
    rw [exactResult?_eq_none (List.mem_of_find?_eq_some hx) (isFinite_of_isNaN (List.find?_some hx))]
    rfl
  | invalid _ _ hexact =>
    rw [hexact]
    rfl
  | infinite _ _ _ hexact =>
    rw [hexact]
    rfl
  | zero _ _ _ hexact =>
    cases hr : op.exactResult? with
    | none => rfl
    | some r => simp [flushUnderflow, hexact r hr]
  | packed _ _ hstands _ _ hexact =>
    refine hstands.roundPack_flushToZero.trans ?_
    rcases hexact with hexact | ⟨hexact, hlarge⟩
    · rw [hexact]
    · -- an operand is packed again, which is not flushed
      rw [hexact]
      refine if_neg fun h => ?_
      rcases hlarge hplain with h0 | hle
      · exact h.1 h0
      · exact absurd h.2 (not_lt.2 hle)

/-- Flushing ends as the operation on flushed operands does. -/
theorem exists_outcome_flushed (op : Operation fmt) : ∃ f, Outcome (op.map flushed) f ∧
    op.eval .flushToZero = f .flushToZero ∧ (op.map flushed).eval .gradual = f .gradual := by
  obtain ⟨f, houtcome, heval⟩ := exists_outcome (op.map flushed)
  refine ⟨f, houtcome, ?_, heval .gradual (plain_gradual _)⟩
  rw [← eval_map_flushed]
  exact heval .flushToZero fun x hx => Or.inr (not_subnormal_of_mem_map_flushed op x hx)

/-- One operation in this mode: flush the operands, compute with gradual underflow, flush the result. -/
theorem eval_flushToZero (op : Operation fmt) :
    op.eval .flushToZero =
      flushUnderflow (op.map flushed).exactResult? ((op.map flushed).eval .gradual) := by
  obtain ⟨f, houtcome, hflush, hgradual⟩ := op.exists_outcome_flushed
  rw [hflush, hgradual]
  exact houtcome.flushToZero (not_subnormal_of_mem_map_flushed op)

end Operation

namespace BinaryFloat

variable {source : FloatFormat}

/-! ## Conversions -/

noncomputable def exactValue? (x : BinaryFloat source) : Option ℝ :=
  if x.isFinite then some x.value else none

theorem convert_flushToZero (target : FloatFormat) (x : BinaryFloat source) :
    x.convert target .flushToZero =
      flushUnderflow x.flushed.exactValue? (x.flushed.convert target .gradual) := by
  cases hx : x.isFinite with
  | false =>
    rw [flushed_of_not_finite hx, exactValue?, hx]
    cases hn : x.isNaN with
    | true => simp [convert, hn, flushUnderflow]
    | false =>
      have hi : x.isInfinite = true := by
        by_contra hi
        rw [isFinite_of_not hn (by simpa using hi)] at hx
        cases hx
      simp [convert, hn, hi, flushUnderflow]
  | true =>
    have hx' := (isFinite_flushed x).trans hx
    unfold convert
    rw [isNaN_flushed, isInfinite_flushed, isNaN_of_isFinite hx, isInfinite_of_isFinite hx,
      unpack_flushToZero, exactValue?, hx']
    exact (standsFor_unpack x.flushed).roundPack_flushToZero

/-- Flushing simulates gradual arithmetic: every operation and every conversion gives on flushed operands
what the gradual mode gives, except that an exact result which is not zero and lies below the least normal
number of the result's format becomes the zero of its sign. -/
theorem flushToZero_simulates (fmt : FloatFormat) :
    (∀ op : Operation fmt, op.eval .flushToZero =
      flushUnderflow (op.map flushed).exactResult? ((op.map flushed).eval .gradual)) ∧
    ∀ (source : FloatFormat) (x : BinaryFloat source), x.convert fmt .flushToZero =
      flushUnderflow x.flushed.exactValue? (x.flushed.convert fmt .gradual) :=
  ⟨Operation.eval_flushToZero, fun _ => convert_flushToZero fmt⟩

/-- The least normal number times the last number before one is rounded up to the least normal number
again, but is flushed before that. -/
example :
    let x : BinaryFloat .binary64 := leastNormal
    let y : BinaryFloat .binary64 := ofBits 0x3fefffffffffffff
    x.mul .gradual y = x ∧ x.mul .flushToZero y = zero false := by decide +kernel

end BinaryFloat

end MachineNumbers
