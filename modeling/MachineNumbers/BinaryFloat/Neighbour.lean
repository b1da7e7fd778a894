import MachineNumbers.BinaryFloat.Unpacked

/-!
# Neighbours, units and parts of a float

A mode that flushes steps over the subnormals.
-/

namespace MachineNumbers.BinaryFloat

variable {fmt : FloatFormat}

/-- The least number above `x`; infinity is its own, a NaN is made quiet. -/
def nextUp (mode : SubnormalMode) (x : BinaryFloat fmt) : BinaryFloat fmt :=
  if x.isNaN then x.quieted
  else if x.readsAsZero mode then if mode = .flushToZero then leastNormal else leastNonzero
  else if x.sign then
    let next := ofWord true (x.word - 1)
    if mode = .flushToZero ∧ next.isSubnormal then zero true else next
  else if x.isInfinite then x
  else ofWord false (x.word + 1)

def nextDown (mode : SubnormalMode) (x : BinaryFloat fmt) : BinaryFloat fmt :=
  -(nextUp mode (-x))

/-- The distance from `|x|` to the next greater magnitude, or to where it would be; NaN for what is
not finite.  A mode that flushes has zero in place of a subnormal distance. -/
def ulp (mode : SubnormalMode) (x : BinaryFloat fmt) : BinaryFloat fmt :=
  if !x.isFinite then nan
  else
    let a := x.unpack mode
    if a.sig = 0 then if mode = .flushToZero then zero false else leastNonzero
    else if mode = .flushToZero ∧ a.exp < fmt.minLead then zero false
    else powerOfTwo a.exp

/-- The exponent of the leading bit; the least 32-bit integer for zeros, the greatest for what is not
finite. -/
def exponent (x : BinaryFloat fmt) : Int :=
  if !x.isFinite then 2147483647
  else
    let a := x.unpack .gradual
    if a.sig = 0 then -2147483648 else a.leadExp

/-- `|x|` scaled by a power of two into `1 ≤ s < 2`; zeros and infinities stay, a NaN is made quiet,
all without their signs. -/
def significand (x : BinaryFloat fmt) : BinaryFloat fmt :=
  if x.isNaN then x.abs.quieted
  else if x.isInfinite then infinity false
  else
    let a := x.unpack .gradual
    if a.sig = 0 then zero false
    else
      let fraction := (a.sig <<< (fmt.fractionBits - a.sig.log2)) % Nat.pow 2 fmt.fractionBits
      ofWord false (fmt.powerOfTwoWord 0 + fraction)

end MachineNumbers.BinaryFloat
