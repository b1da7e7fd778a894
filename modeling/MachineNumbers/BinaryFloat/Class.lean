import MachineNumbers.BinaryFloat.Basic

/-! # The ten classes of floating-point data -/

namespace MachineNumbers

/-- Classes of encodings. -/
inductive FloatClass where
  | signalingNaN
  | quietNaN
  | negativeInfinity
  | negativeNormal
  | negativeSubnormal
  | negativeZero
  | positiveZero
  | positiveSubnormal
  | positiveNormal
  | positiveInfinity
  deriving DecidableEq, Repr

namespace BinaryFloat

variable {fmt : FloatFormat}

def classify (x : BinaryFloat fmt) : FloatClass :=
  if x.exponentField = fmt.exponentMask then
    if x.fractionField = 0 then if x.sign then .negativeInfinity else .positiveInfinity
    else if x.fractionField &&& fmt.quietBit = 0 then .signalingNaN else .quietNaN
  else if x.exponentField = 0 then
    if x.fractionField = 0 then if x.sign then .negativeZero else .positiveZero
    else if x.sign then .negativeSubnormal else .positiveSubnormal
  else if x.sign then .negativeNormal else .positiveNormal

end BinaryFloat

end MachineNumbers
