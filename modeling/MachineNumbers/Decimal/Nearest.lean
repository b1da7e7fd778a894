import MachineNumbers.BinaryFloat.Arithmetic.Product
import MachineNumbers.BinaryFloat.Arithmetic.Quotient
import MachineNumbers.Decimal.Literal
import MachineNumbers.Limbs

/-!
# The float nearest to a decimal

A decimal is rounded once, ties to even.  If digits and power of ten are both numbers of the format, that is
one operation on them; otherwise the power of ten is multiplied in or divided by on limbs, and the bits left
over or the remainder count as sticky.
-/

namespace MachineNumbers

namespace FloatFormat

/-- Decimals of more integral places than this, and one, are infinite; `1233 / 4096` is a little under
the decimal logarithm of two. -/
def maxPlaces (fmt : FloatFormat) : Int := (fmt.maxLead + 1) * 1233 / 4096 + 2

/-- Decimals of fewer integral places than this are zero. -/
def minPlaces (fmt : FloatFormat) : Int := (fmt.minExp - 1) * 1233 / 4096 - 2

end FloatFormat

namespace Decimal

/-- The number of integral places, negative if zeros follow the point. -/
def places (d : Decimal) : Int := saturated (d.digits.length + d.exp)

def limbs (d : Decimal) : Limbs :=
  d.digits.foldl (fun x digit => x.mulAddSmall 10 (UInt32.ofNat digit)) ⟨[]⟩

/-- Divides bit by bit: each step shifts the quotient up and takes `den` off `w`, if it fits, before
doubling `w`. -/
def longDivision (den : Limbs) : Nat → Limbs → Nat → Nat × Limbs
  | 0, w, quotient => (quotient, w)
  | steps + 1, w, quotient =>
    if den.le w then longDivision den steps ((w.sub den).mulPow2 1) (2 * quotient + 1)
    else longDivision den steps (w.mulPow2 1) (2 * quotient)

/-- Digits times a nonnegative power of ten, as a number and whether bits were cut off it. -/
def product (d : Decimal) (negative : Bool) : Unpacked × Bool :=
  let w := d.limbs.mulPow10 d.exp.toNat
  let shift := w.bitLength - 126
  let (sig, sticky) := w.splitAtBit shift
  (⟨negative, shift, sig⟩, sticky)

/-- Digits over a power of ten, as a number of three or four bits more than `precision` and whether a
remainder was left. -/
def quotient (d : Decimal) (precision : Nat) (negative : Bool) : Unpacked × Bool :=
  let w := d.limbs
  let den := (Limbs.ofNat64 1).mulPow10 d.exp.natAbs
  let k : Int := den.bitLength - w.bitLength + precision + 3
  let w := w.mulPow2 k.toNat
  let den := den.mulPow2 (-k).toNat
  -- the quotient has at most `top` bits, so it starts below `2 × den`
  let top := precision + 5
  let (q, rest) := longDivision (den.mulPow2 top) (top + 1) w 0
  (⟨negative, -k, q⟩, !rest.isZero)

end Decimal

namespace BinaryFloat

variable {fmt : FloatFormat}

/-- One product or quotient of floats, if digits and power of ten are both exact in the format. -/
def ofDecimalSingle? (negative : Bool) (d : Decimal) : Option (BinaryFloat fmt) :=
  let power := d.exp.natAbs
  let limit := Nat.pow 2 fmt.precision
  if d.digits.length ≤ 19 ∧ d.mantissa < limit ∧ power ≤ 27 ∧ Nat.pow 5 power < limit then
    let w : BinaryFloat fmt := roundPack .gradual ⟨negative, 0, d.mantissa⟩ false
    let scale : BinaryFloat fmt := roundPack .gradual ⟨false, 0, Nat.pow 10 power⟩ false
    if w.isFinite && scale.isFinite then
      some (if 0 ≤ d.exp then w.mul .gradual scale else w.div .gradual scale)
    else none
  else none

/-- The decimal computed exactly, up to what is sticky, and rounded. -/
def ofDecimalExact (negative : Bool) (d : Decimal) : BinaryFloat fmt :=
  let (x, sticky) := if 0 ≤ d.exp then d.product negative else d.quotient fmt.precision negative
  roundPack .gradual x sticky

/-- The float nearest to a decimal of this sign. -/
def ofDecimal (negative : Bool) (d : Decimal) : BinaryFloat fmt :=
  if fmt.maxPlaces < d.places - 1 then infinity negative
  else if d.places < fmt.minPlaces then zero negative
  else (ofDecimalSingle? negative d).getD (ofDecimalExact negative d)

end BinaryFloat

/-- Neither the size of the decimal nor a single operation decides its float. -/
def Decimal.needsExactReading (fmt : FloatFormat) (d : Decimal) : Bool :=
  d.places - 1 ≤ fmt.maxPlaces && fmt.minPlaces ≤ d.places &&
    (BinaryFloat.ofDecimalSingle? false d : Option (BinaryFloat fmt)).isNone

end MachineNumbers
