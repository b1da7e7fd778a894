import MachineNumbers.BinaryFloat.Checked.Operations
import MachineNumbers.Decimal.Checked

/-!
# The float nearest to a decimal in machine words

Places are counted in a signed word of 64 bits, and the power of ten in an unsigned one of 32.
-/

namespace MachineNumbers.Checked

open MachineWord (signed? unsigned?)

variable {fmt : FloatFormat}

/-- One operation on a significand and a power of ten, if both are numbers of the format. -/
def scaledOnce? (negative : Bool) (sig power : Nat) (exp : Int) : Option (Option (BinaryFloat fmt)) := do
  let ten ← unsigned? 128 (Nat.pow 10 power)
  let w : BinaryFloat fmt ← roundPack? .gradual ⟨negative, 0, sig⟩ false
  let scale : BinaryFloat fmt ← roundPack? .gradual ⟨false, 0, ten⟩ false
  if w.isFinite && scale.isFinite then do
    let x ← if 0 ≤ exp then mul? .gradual w scale else div? .gradual w scale
    some (some x)
  else some none

/-- `BinaryFloat.ofDecimalSingle?`, for a power of ten that is the magnitude of the exponent. -/
def single? (negative : Bool) (d : Decimal) (power : Nat) : Option (Option (BinaryFloat fmt)) := do
  match ← CheckedDecimal.small? d with
  | none => some none
  | some sig =>
    if sig < Nat.pow 2 fmt.precision ∧ power ≤ 27 then do
      let five ← unsigned? 64 (Nat.pow 5 power)
      if five < Nat.pow 2 fmt.precision then scaledOnce? negative sig power d.exp else some none
    else some none

/-- `BinaryFloat.ofDecimalExact`, for a power of ten that is the magnitude of the exponent. -/
def limbwise? (negative : Bool) (d : Decimal) (power : Nat) : Option (BinaryFloat fmt) := do
  let (x, sticky) ←
    if 0 ≤ d.exp then CheckedDecimal.product? d power negative
    else CheckedDecimal.quotient? fmt.precision d power negative
  roundPack? .gradual x sticky

def ofDecimal? (negative : Bool) (d : Decimal) : Option (BinaryFloat fmt) := do
  let lead ← signed? 64 (d.places - 1)
  if fmt.maxPlaces < lead then some (.infinity negative)
  else if d.places < fmt.minPlaces then some (.zero negative)
  else do
    let power ← unsigned? 32 d.exp.natAbs
    match ← single? negative d power with
    | some x => some x
    | none => limbwise? negative d power

end MachineNumbers.Checked
