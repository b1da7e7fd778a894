import MachineNumbers.BinaryFloat.Unpacked

/-!
# Square roots

The root of a normalised significand under an even exponent, found bit by bit from the top.
-/

namespace MachineNumbers

/-- The greatest `s` with `s² ≤ n` among `root + 0, …, root + 2^bits - 1`. -/
def sqrtFrom (n : Nat) : Nat → Nat → Nat
  | 0, root => root
  | bits + 1, root =>
    let next := root + Nat.pow 2 bits
    sqrtFrom n bits (if next * next ≤ n then next else root)

/-- The square root of `n`, rounded down. -/
def integerSqrt (n : Nat) : Nat := sqrtFrom n (n.log2 / 2 + 1) 0

/-- The square root of a positive number as a number and whether it exceeds that by less than one
unit. -/
def Unpacked.sqrt (x : Unpacked) : Unpacked × Bool :=
  let x := x.normalised
  let odd := x.exp % 2 ≠ 0
  let sig := if odd then x.sig <<< 1 else x.sig
  let exp := if odd then x.exp - 1 else x.exp
  let root := integerSqrt sig
  (⟨false, exp / 2, root⟩, root * root != sig)

namespace BinaryFloat

variable {fmt : FloatFormat}

/-- The square root, rounded once.  Zeros are their own roots; other negative numbers have none. -/
def squareRoot (mode : SubnormalMode) (x : BinaryFloat fmt) : BinaryFloat fmt :=
  if x.isNaN then x.quieted
  else
    let a := x.unpack mode
    if a.sig = 0 then zero a.sign
    else if a.sign then nan
    else if x.isInfinite then x
    else
      let (root, sticky) := a.sqrt
      roundPack mode root sticky

end BinaryFloat

end MachineNumbers
