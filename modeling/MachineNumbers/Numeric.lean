import MachineNumbers.BinaryFloat.Arithmetic.Remainder
import MachineNumbers.BinaryFloat.Arithmetic.SquareRoot
import MachineNumbers.BinaryFloat.Integral
import MachineNumbers.BinaryFloat.Neighbour
import MachineNumbers.BinaryFloat.Stride
import MachineNumbers.FixedInt.Arithmetic
import MachineNumbers.FixedInt.Conversion

/-!
# Classes of numbers

What generic code asks of a number, in layers.  Operations run in a monad `m`, `Id` where they always have a
result and `Except Overflow` where they may have none.
-/

namespace MachineNumbers

/-! ## Classes -/

/-- Numbers with a zero, sums and differences. -/
class AdditiveArithmetic (α : Type) (m : outParam (Type → Type)) where
  zero : α
  add : α → α → m α
  sub : α → α → m α
  equals : α → α → Bool
  isZero : α → Bool := fun x => equals x zero

/-- Numbers with products, and with absolute values of type `μ`. -/
class Numeric (α : Type) (m : outParam (Type → Type)) (μ : outParam Type) extends
    AdditiveArithmetic α m where
  mul : α → α → m α
  magnitude : α → μ
  /-- The value of an integer, if it is one of the type's. -/
  exactly? : {ty : IntType} → FixedInt ty → Option α
  squared : α → m α := fun x => mul x x

/-- Numbers with opposites. -/
class SignedNumeric (α : Type) (m : outParam (Type → Type)) (μ : outParam Type) extends
    Numeric α m μ where
  neg : α → m α
  negated : α → m α := fun x => sub zero x

/-- Integers between two bounds whose arithmetic reports overflow. -/
class FixedWidth (α : Type) (m : outParam (Type → Type)) (μ : outParam Type) extends
    Numeric α m μ where
  bitWidth : Nat
  minimum : α
  maximum : α
  isLess : α → α → Bool
  overflowingAdd : α → α → α × Bool
  overflowingSub : α → α → α × Bool
  overflowingMul : α → α → α × Bool
  wrappingAdd : α → α → α := fun x y => (overflowingAdd x y).1
  wrappingMul : α → α → α := fun x y => (overflowingMul x y).1
  /-- The sum, if it does not overflow. -/
  checkedAdd : α → α → Option α := fun x y =>
    if (overflowingAdd x y).2 then none else some (overflowingAdd x y).1
  /-- The sum, or the bound it passes; only a negative addend passes the lower one. -/
  clampingAdd : α → α → α := fun x y =>
    if (overflowingAdd x y).2 then if isLess y zero then minimum else maximum
    else (overflowingAdd x y).1

/-- Binary floating-point numbers. -/
class FloatingPoint (α : Type) extends SignedNumeric α Id α where
  exponentBits : Nat
  significandBits : Nat
  infinity : α
  nan : α
  greatestFinite : α
  leastNonzero : α
  pi : α
  isNaN : α → Bool
  isInfinite : α → Bool
  isSignMinus : α → Bool
  nextUp : α → α
  ulp : α → α
  /-- `x + y × z`, rounded once. -/
  addProduct : α → α → α → α
  squareRoot : α → α
  rounded : RoundingRule → α → α
  isFinite : α → Bool := fun x => !isNaN x && !isInfinite x
  nextDown : α → α := fun x => (neg (nextUp (neg x).run)).run
  ulpOfOne : α := ((exactly? (FixedInt.one : FixedInt { width := 8, signed := false })).map ulp).getD nan

/-! ## Instances -/

section Integers

variable {ty : IntType}

instance : FixedWidth (FixedInt ty) (Except Overflow) (FixedInt ty.toUnsigned) where
  zero := FixedInt.zero
  add := FixedInt.trapping .add
  sub := FixedInt.trapping .sub
  equals x y := x == y
  mul := FixedInt.trapping .mul
  magnitude := FixedInt.magnitude
  exactly? a := a.exactly? ty
  bitWidth := ty.width
  minimum := FixedInt.minimum
  maximum := FixedInt.maximum
  isLess x y := x.value < y.value
  overflowingAdd := FixedInt.overflowingAdd
  overflowingSub := FixedInt.overflowingSub
  overflowingMul := FixedInt.overflowingMul

/-- Signed integers have opposites, the least one apart. -/
@[reducible]
def FixedInt.signedNumeric (_ : ty.signed = true) :
    SignedNumeric (FixedInt ty) (Except Overflow) (FixedInt ty.toUnsigned) where
  neg := FixedInt.negated
  negated := FixedInt.negated

end Integers

instance {fmt : FloatFormat} : FloatingPoint (BinaryFloat fmt) where
  zero := BinaryFloat.zero false
  add x y := pure (x + y)
  sub x y := pure (x - y)
  equals := BinaryFloat.equals
  isZero := BinaryFloat.isZero
  mul x y := pure (x * y)
  magnitude := BinaryFloat.abs
  exactly? a := BinaryFloat.ofIntExactly? a.value
  neg x := pure (-x)
  negated x := pure (-x)
  exponentBits := fmt.exponentBits
  significandBits := fmt.fractionBits
  infinity := BinaryFloat.infinity false
  nan := BinaryFloat.nan
  greatestFinite := BinaryFloat.greatestFinite
  leastNonzero := BinaryFloat.leastNonzero
  pi := BinaryFloat.pi
  isNaN := BinaryFloat.isNaN
  isInfinite := BinaryFloat.isInfinite
  isSignMinus := BinaryFloat.isSignMinus
  nextUp := BinaryFloat.nextUp .native
  ulp := BinaryFloat.ulp .native
  addProduct := BinaryFloat.addProduct .native
  squareRoot := BinaryFloat.squareRoot .native
  rounded := BinaryFloat.rounded .native
  isFinite := BinaryFloat.isFinite
  nextDown := BinaryFloat.nextDown .native
  ulpOfOne := BinaryFloat.ulpOfOne

/-! ## Folds -/

section Folds

variable {α : Type} {m : Type → Type} {μ : Type}

def sum [Monad m] [AdditiveArithmetic α m] (xs : List α) : m α :=
  xs.foldlM AdditiveArithmetic.add AdditiveArithmetic.zero

/-- The sum of the products of two lists, as far as the shorter one goes. -/
def dot [Monad m] [Numeric α m μ] (xs ys : List α) : m α :=
  (xs.zip ys).foldlM
    (fun total (x, y) => do AdditiveArithmetic.add total (← Numeric.mul x y))
    AdditiveArithmetic.zero

/-- The polynomial with these coefficients, highest first, at `x`; each step is rounded once. -/
def horner [FloatingPoint α] (coefficients : List α) (x : α) : α :=
  coefficients.foldl (fun total c => FloatingPoint.addProduct c total x) AdditiveArithmetic.zero

/-- The sum modulo the width, and whether any step overflowed. -/
def wrappingSum [FixedWidth α m μ] (xs : List α) : α × Bool :=
  xs.foldl
    (fun (total, overflow) x =>
      let (next, overflows) := FixedWidth.overflowingAdd total x
      (next, overflow || overflows))
    (AdditiveArithmetic.zero, false)

end Folds

end MachineNumbers
