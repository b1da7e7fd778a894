import MachineNumbers.Decimal.Digits.Basic
import MachineNumbers.Decimal.Digits.ScaledWord
import MachineNumbers.Text.Positional

/-!
# Shortest digits on single words

The target and the bounds of what rounds to it are scaled by a power of ten, each then off by less than one
`unit`.  Digits of the upper bound, one unit up, are generated until what remains is within the interval.  The
last digit is then lowered toward the target, and the result stands if no other choice could be nearer.
-/

namespace MachineNumbers

namespace FastDigits

/-- Where digit generation has arrived.  All amounts are measured down from the upper bound, in the
same scale. -/
structure Stop where
  /-- From the upper bound to the target. -/
  distance : Nat
  /-- The width of the interval, with the units of both bounds. -/
  interval : Nat
  /-- From the upper bound to the digits. -/
  rest : Nat
  /-- The weight of the last digit. -/
  weight : Nat
  /-- What each amount may be off by. -/
  unit : Nat

/-- Whether lowering the last digit stays in the interval and comes no farther from the point `goal`
below the upper bound. -/
def Stop.lowers (s : Stop) (rest goal : Nat) : Bool :=
  rest < goal && s.weight ≤ s.interval - rest &&
    (rest + s.weight < goal || rest + s.weight - goal ≤ goal - rest)

/-- Whether lowering the last digit stays in the interval and comes nearer to the point `goal`. -/
def Stop.lowersNearer (s : Stop) (rest goal : Nat) : Bool :=
  rest < goal && s.weight ≤ s.interval - rest &&
    (rest + s.weight < goal || rest + s.weight - goal < goal - rest)

/-- Lowers the last digit while that brings it toward the nearest place the target can have. -/
def Stop.lowerLast (s : Stop) (goal : Nat) : Nat → Nat → Nat × Nat
  | 0, rest => (0, rest)
  | digit + 1, rest =>
    if s.lowers rest goal then s.lowerLast goal digit (rest + s.weight) else (digit + 1, rest)

/-- The digits, last digit first, with the last one settled; none if they might not be right. -/
def Stop.settle (s : Stop) : List Nat → Option (List Nat)
  | [] => none
  | last :: digits =>
    let (last, rest) := s.lowerLast (s.distance - s.unit) last s.rest
    if s.lowersNearer rest (s.distance + s.unit) then none
    else if 4 * s.unit ≤ s.interval && 2 * s.unit ≤ rest && rest ≤ s.interval - 4 * s.unit then
      some (last :: digits)
    else none

/-- The digits after the point of a scaled upper bound, with `shift` fractional bits; `digits` holds
those before, last digit first.  Gives the digits and the exponent of the last. -/
def fractionDigits (shift distance : Nat) :
    Nat → Nat → Nat → Nat → Int → List Nat → Option (List Nat × Int)
  | 0, _, _, _, _, _ => none
  | more + 1, fraction, interval, unit, exponent, digits =>
    let fraction := fraction * 10
    let unit := unit * 10
    let interval := interval * 10
    let digits := fraction >>> shift :: digits
    let rest := fraction % Nat.pow 2 shift
    let exponent := exponent - 1
    if rest < interval then
      (Stop.settle ⟨distance * unit, interval, rest, Nat.pow 2 shift, unit⟩ digits).map (·, exponent)
    else fractionDigits shift distance more rest interval unit exponent digits

/-- The digits from the place `10^count` down of a scaled upper bound with this integral part below
`10^count` and this fraction. -/
def integralDigits (shift distance interval fraction : Nat) :
    Nat → Nat → List Nat → Option (List Nat × Int)
  | 0, _, digits => fractionDigits shift distance shift fraction interval 1 0 digits
  | count + 1, integral, digits =>
    let divisor := Nat.pow 10 count
    let digits := integral / divisor :: digits
    let integral := integral % divisor
    let rest := integral <<< shift + fraction
    if rest < interval then
      (Stop.settle ⟨distance, interval, rest, divisor <<< shift, 1⟩ digits).map (·, (count : Int))
    else integralDigits shift distance interval fraction count integral digits

/-- Digits of a number in the interval from `low` to `high` nearest to `target`, last digit first, and
the exponent of the last.  All three have one exponent, from `minScaled` to `maxScaled`. -/
def generate (low target high : ScaledWord) : Option (List Nat × Int) :=
  let upper := high.f + 1
  if low.f = 0 ∨ Nat.pow 2 64 ≤ upper then none
  else
    let interval := upper - (low.f - 1)
    let shift := target.e.natAbs
    let integral := upper >>> shift
    let count := if integral = 0 then 0 else (Positional.digits 10 integral).length
    integralDigits shift (upper - target.f) interval (upper % Nat.pow 2 shift) count integral []

end FastDigits

namespace DigitTarget

/-- The upper bound of what rounds to the target. -/
def upperBound (t : DigitTarget) : ScaledWord := ScaledWord.normalised ⟨2 * t.sig + 1, t.exp - 1⟩

/-- The lower bound of what rounds to the target, at the exponent of the upper one. -/
def lowerBound (t : DigitTarget) : ScaledWord :=
  let (f, e) := if t.lowerCloser then (4 * t.sig - 1, t.exp - 2) else (2 * t.sig - 1, t.exp - 1)
  ⟨f <<< (e - t.upperBound.e).toNat, t.upperBound.e⟩

/-- The shortest digits, trailing zeros possibly included, or none if single words cannot tell. -/
def fastDigits? (t : DigitTarget) : Option DigitString :=
  let word := ScaledWord.normalised ⟨t.sig, t.exp⟩
  match ScaledWord.powerFor? word.e with
  | none => none
  | some (power, k) =>
    match FastDigits.generate (t.lowerBound.mul power) (word.mul power) (t.upperBound.mul power) with
    | none => none
    | some (digits, exponent) => some ⟨digits.reverse, digits.length - k + exponent⟩

end DigitTarget

end MachineNumbers
