import Mathlib
import MachineNumbers.Proofs.Kinds
import MachineNumbers.Proofs.Operation

/-!
# Ways in which an operation ends

`Outcome op f` lists all the ways in which an operation can end, with what is known then: a NaN operand is
handed on, the operation is invalid, or it gives an infinity, a zero, or a number that was packed and stands
for the exact result.  `f` is the result by the mode that packs, and `EndsAs` says that the operation gives
it in every mode that reads its operands as they are.
-/

namespace MachineNumbers

open BinaryFloat

namespace Operation

variable {fmt : FloatFormat}

/-- No operand reads as anything but itself in this mode. -/
def Plain (op : Operation fmt) (mode : SubnormalMode) : Prop :=
  ∀ x ∈ op.operands, mode = .gradual ∨ x.isSubnormal = false

/-- With gradual underflow every operand is read as it is. -/
theorem plain_gradual (op : Operation fmt) : op.Plain .gradual := fun _ _ => Or.inl rfl

/-- The ways in which an operation can end, and its result by the mode that packs it.  A packed number is
the exact result; a remainder by an infinity, which has none, packs the dividend as it is. -/
inductive Outcome (op : Operation fmt) : (SubnormalMode → BinaryFloat fmt) → Prop where
  | propagated {n : BinaryFloat fmt} (hnan : propagatedNaN? op.operands = some n) :
    Outcome op fun _ => n
  | invalid (hnan : propagatedNaN? op.operands = none) (h : op.Invalid .gradual)
    (hexact : op.exactResult? = none) : Outcome op fun _ => nan
  | infinite (sign : Bool) (hnan : propagatedNaN? op.operands = none) (h : ¬op.Invalid .gradual)
    (hexact : op.exactResult? = none) : Outcome op fun _ => infinity sign
  | zero (sign : Bool) (hnan : propagatedNaN? op.operands = none) (h : ¬op.Invalid .gradual)
    (hexact : ∀ r, op.exactResult? = some r → r = 0) : Outcome op fun _ => .zero sign
  | packed {u : Unpacked} {sticky : Bool} {r : ℝ} (hnan : propagatedNaN? op.operands = none)
    (h : ¬op.Invalid .gradual) (hstands : u.StandsFor sticky r) (hlt : u.sig < 2 ^ 128)
    (hbits : sticky = true → 2 ^ (fmt.fractionBits + 1) ≤ u.sig)
    (hexact : op.exactResult? = some r ∨ (op.exactResult? = none ∧
      ((∀ x ∈ op.operands, x.isSubnormal = false) → r = 0 ∨ 2 ^ fmt.minLead ≤ |r|))) :
    Outcome op fun mode => roundPack mode u sticky

/-- The operation ends in this way in every mode that reads its operands as they are. -/
def EndsAs (op : Operation fmt) (f : SubnormalMode → BinaryFloat fmt) : Prop :=
  Outcome op f ∧ ∀ mode, op.Plain mode → op.eval mode = f mode

variable {op : Operation fmt} {x y : BinaryFloat fmt}

/-- The exact result is packed without a rest. -/
theorem Outcome.ofExact {u : Unpacked} {q : ℚ} (hnan : propagatedNaN? op.operands = none)
    (h : ¬op.Invalid .gradual) (hvalue : u.value = q) (hlt : u.sig < 2 ^ 128)
    (hexact : op.exactResult? = some (q : ℝ)) : Outcome op fun mode => roundPack mode u false :=
  .packed hnan h (hvalue ▸ u.standsFor_value) hlt (by simp) (.inl hexact)

/-- The exact result is an operand, which is packed as it is. -/
theorem Outcome.ofOperand (hnan : propagatedNaN? op.operands = none) (h : ¬op.Invalid .gradual)
    (hexact : op.exactResult? = some (x.value : ℝ)) :
    Outcome op fun mode => roundPack mode (x.unpack .gradual) false :=
  .ofExact hnan h (value_unpack x) (unpack_sig_lt_two_pow_128 x) hexact

/-- The exact result is zero. -/
theorem Outcome.exactZero (sign : Bool) (hnan : propagatedNaN? op.operands = none)
    (h : ¬op.Invalid .gradual) (hexact : op.exactResult? = some ((0 : ℚ) : ℝ)) :
    Outcome op fun _ => .zero sign := by
  refine .zero sign hnan h fun r hr => ?_
  rw [hexact, Rat.cast_zero] at hr
  exact (Option.some_injective _ hr).symm

theorem plain_binary {mode : SubnormalMode} (hop : op.operands = [x, y])
    (h : op.Plain mode) :
    (x.unpack mode = x.unpack .gradual ∧ x.readsAsZero mode = x.isZero) ∧
      (y.unpack mode = y.unpack .gradual ∧ y.readsAsZero mode = y.isZero) := by
  have hx := h x (by simp [hop])
  have hy := h y (by simp [hop])
  exact ⟨⟨unpack_of_plain hx, readsAsZero_of_plain hx⟩, unpack_of_plain hy, readsAsZero_of_plain hy⟩

/-- An infinite operand leaves no exact result. -/
theorem exactResult?_of_infinite (hx : x ∈ op.operands) (h : x.isInfinite = true) :
    op.exactResult? = none :=
  exactResult?_eq_none hx (isFinite_of_isInfinite h)

end Operation

end MachineNumbers
