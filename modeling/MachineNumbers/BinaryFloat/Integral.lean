import MachineNumbers.BinaryFloat.Unpacked

/-!
# Rounding to an integral value

Under any of six rules, with the sign kept also of a zero.
-/

namespace MachineNumbers

/-- Which integer to take for a number between two. -/
inductive RoundingRule where
  | toNearestOrAwayFromZero
  | toNearestOrEven
  | up
  | down
  | towardZero
  | awayFromZero
  deriving DecidableEq, Repr

/-- Whether the rule takes the greater magnitude, for a number of this sign with this integral part
and a rest, of `2 × half`. -/
def RoundingRule.increments (rule : RoundingRule) (sign : Bool) (integral rest half : Nat) : Bool :=
  match rule with
  | .toNearestOrAwayFromZero => half ≤ rest
  | .toNearestOrEven => half < rest || (rest == half && integral % 2 == 1)
  | .up => rest != 0 && !sign
  | .down => rest != 0 && sign
  | .towardZero => false
  | .awayFromZero => rest != 0

/-- The integral part, the rest and one half in the same unit, of `sig / 2^shift`.  Past 64 bits a
significand of a float is less than a half. -/
def splitAtPoint (sig shift : Nat) : Nat × Nat × Nat :=
  if 64 ≤ shift then (0, 1, 2) else (sig >>> shift, sig % Nat.pow 2 shift, Nat.pow 2 (shift - 1))

namespace BinaryFloat

variable {fmt : FloatFormat}

/-- The integral number that the rule takes for `x`. -/
def rounded (mode : SubnormalMode) (rule : RoundingRule) (x : BinaryFloat fmt) : BinaryFloat fmt :=
  if x.isNaN then x.quieted
  else if !x.isFinite then x
  else
    let a := x.unpack mode
    if a.sig = 0 then zero a.sign
    else if 0 ≤ a.exp then x
    else
      let (integral, rest, half) := splitAtPoint a.sig a.exp.natAbs
      let integral := integral + (rule.increments a.sign integral rest half).toNat
      roundPack mode ⟨a.sign, 0, integral⟩ false

end BinaryFloat

end MachineNumbers
