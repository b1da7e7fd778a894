import MachineNumbers.FixedInt.Basic

/-!
# Integer arithmetic under an overflow policy

Every operand fits a signed word of 128 bits, and results are computed in such words and then wrapped to the
type.  Only a product may be too long; then the patterns are multiplied.
-/

namespace MachineNumbers

/-- The arithmetic operations. -/
inductive ArithOp where
  | add
  | sub
  | mul
  /-- The quotient rounded toward zero. -/
  | div
  /-- The remainder with the sign of the dividend. -/
  | rem
  deriving DecidableEq, Repr

/-- What to do with a result that does not fit. -/
inductive OverflowPolicy where
  /-- Fail. -/
  | trapping
  /-- Keep the low bits. -/
  | wrapping
  /-- Keep the low bits and say so. -/
  | reporting
  deriving DecidableEq, Repr

namespace FixedInt

variable {ty : IntType}

/-- The value as a wide word. -/
def wide (a : FixedInt ty) : BitVec 128 :=
  if ty.signed then a.bits.toBitVec.signExtend 128 else a.bits.toBitVec.setWidth 128

/-- The product of wide words, if it is one. -/
def wideProduct? (x y : BitVec 128) : Option (BitVec 128) :=
  if x.smulOverflow y then none else some (x * y)

/-- An exact result wrapped, and whether that changed it. -/
def reduced (v : BitVec 128) : FixedInt ty × Bool := (wrap v.toInt, !decide (ty.Fits v.toInt))

/-! ## Operations -/

/-- The wrapped sum, and whether it overflowed. -/
def overflowingAdd (a b : FixedInt ty) : FixedInt ty × Bool := reduced (a.wide + b.wide)

def overflowingSub (a b : FixedInt ty) : FixedInt ty × Bool := reduced (a.wide - b.wide)

/-- The low bits of the product, which do not depend on how the patterns are read. -/
def patternProduct (a b : FixedInt ty) : FixedInt ty :=
  ⟨BitPattern.ofNat ty.width (a.bits.toNat * b.bits.toNat)⟩

def overflowingMul (a b : FixedInt ty) : FixedInt ty × Bool :=
  match wideProduct? a.wide b.wide with
  | some product => reduced product
  -- past every wide word, and so past every value of the type
  | none => (patternProduct a b, true)

/-- The wrapped result, and whether it overflowed. -/
def overflowing (op : ArithOp) (a b : FixedInt ty) : Except Overflow (FixedInt ty × Bool) :=
  match op with
  | .add => .ok (overflowingAdd a b)
  | .sub => .ok (overflowingSub a b)
  | .mul => .ok (overflowingMul a b)
  | .div => if b.value = 0 then .error .divisionByZero else .ok (reduced (a.wide.sdiv b.wide))
  | .rem =>
    if b.value = 0 then .error .remainderByZero
    -- the remainder is zero, but it belongs to a quotient that overflows
    else if ty.signed ∧ a.value = ty.minValue ∧ b.value = -1 then .ok (zero, true)
    else .ok (reduced (a.wide.srem b.wide))

/-- The result under a policy; the flag is set only by `reporting`. -/
def arith (op : ArithOp) (policy : OverflowPolicy) (a b : FixedInt ty) :
    Except NumericError (FixedInt ty × Bool) :=
  match overflowing op a b with
  | .error cause => .error (.fatalOverflow cause)
  | .ok (result, overflow) =>
    match policy with
    | .trapping => if overflow then .error (.fatalOverflow .arithmetic) else .ok (result, false)
    | .wrapping => .ok (result, false)
    | .reporting => .ok (result, overflow)

/-- The result, which must fit. -/
def trapping (op : ArithOp) (a b : FixedInt ty) : Except Overflow (FixedInt ty) :=
  match overflowing op a b with
  | .error cause => .error cause
  | .ok (result, overflow) => if overflow then .error .arithmetic else .ok result

/-- The wrapped result. -/
def wrapping (op : ArithOp) (a b : FixedInt ty) : Except Overflow (FixedInt ty) :=
  (overflowing op a b).map (·.1)

/-- The result, or the error that it does not fit. -/
def checked (op : ArithOp) (a b : FixedInt ty) : Except NumericError (FixedInt ty) :=
  (arith op .trapping a b).map (·.1)

/-! ## Sign -/

def overflowingNeg (a : FixedInt ty) : FixedInt ty × Bool := reduced (-a.wide)

def wrappingNeg (a : FixedInt ty) : FixedInt ty := a.overflowingNeg.1

/-- The opposite, which must fit. -/
def negated (a : FixedInt ty) : Except Overflow (FixedInt ty) :=
  if a.overflowingNeg.2 then .error .negateMin else .ok a.wrappingNeg

def checkedNeg (a : FixedInt ty) : Except NumericError (FixedInt ty) :=
  a.negated.mapError .fatalOverflow

/-- The absolute value, in the unsigned type, where it always fits. -/
def magnitude (a : FixedInt ty) : FixedInt ty.toUnsigned := wrap a.value.natAbs

def abs (a : FixedInt ty) : Except Overflow (FixedInt ty) :=
  if a.isNegative then a.negated else .ok a

/-- The sign as -1, 0 or 1. -/
def signum (a : FixedInt ty) : FixedInt ty := wrap a.value.sign

/-- The exact product in two words: the high one of the same type, the low one unsigned.  Both are cut
out of a wide word. -/
def multipliedFullWidth (a b : FixedInt ty) : FixedInt ty × FixedInt ty.toUnsigned :=
  let product := a.wide * b.wide
  (⟨BitPattern.ofNat ty.width (product >>> ty.width).toNat⟩,
    ⟨BitPattern.ofNat ty.width product.toNat⟩)

end FixedInt

end MachineNumbers
