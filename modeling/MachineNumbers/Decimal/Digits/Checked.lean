import MachineNumbers.Decimal.Digits.Fast
import MachineNumbers.MachineWord

/-!
# Shortest digits in machine words

All amounts are words of 64 bits, the integral part is one of 32 and products of two words one of 128.  A
step that wraps makes the result none; `some none` says that single words cannot tell the digits.
-/

namespace MachineNumbers.CheckedDigits

open FastDigits (Stop)
open MachineWord (cutAt? difference? product? quotient? remainder? shiftLeft? shiftRight? sum? unsigned?)

/-- Whether lowering the last digit stays in the interval and comes nearer to the point `goal` below the
upper bound, or with `ties` at least no farther from it. -/
def lowers? (s : Stop) (ties : Bool) (rest goal : Nat) : Option Bool :=
  if rest < goal then do
    let room ← difference? s.interval rest
    if s.weight ≤ room then do
      let next ← sum? 64 rest s.weight
      if next < goal then some true
      else do
        let before ← difference? goal rest
        let after ← difference? next goal
        some (after < before || (ties && after == before))
    else some false
  else some false

/-- Lowers the last digit while that brings it toward the goal; a zero cannot be lowered. -/
def lowerLast? (s : Stop) (goal : Nat) : Nat → Nat → Option (Nat × Nat)
  | 0, rest => do
    let again ← lowers? s true rest goal
    if again then none else some (0, rest)
  | digit + 1, rest => do
    let again ← lowers? s true rest goal
    if again then do
      let rest ← sum? 64 rest s.weight
      lowerLast? s goal digit rest
    else some (digit + 1, rest)

/-- The digits with the last one settled, if a decimal with this rest is safely inside. -/
def safelyInside? (s : Stop) (rest : Nat) (digits : List Nat) : Option (Option (List Nat)) := do
  let margin ← product? 64 4 s.unit
  match difference? s.interval margin with
  | none => some none
  | some limit => do
    let least ← product? 64 2 s.unit
    some (if least ≤ rest ∧ rest ≤ limit then some digits else none)

/-- The digits, last digit first, with the last one settled. -/
def settle? (s : Stop) : List Nat → Option (Option (List Nat))
  | [] => some none
  | last :: digits => do
    let small ← difference? s.distance s.unit
    let big ← sum? 64 s.distance s.unit
    let (last, rest) ← lowerLast? s small last s.rest
    let nearer ← lowers? s false rest big
    if nearer then some none else safelyInside? s rest (last :: digits)

/-- A digit to be written. -/
def digit? (n : Nat) : Option Nat := if n ≤ 9 then some n else none

/-- The digits after the point, in at most so many rounds; beyond these there is no result. -/
def fractionDigits? (shift distance : Nat) :
    Nat → Nat → Nat → Nat → Int → List Nat → Option (Option (List Nat × Int))
  | 0, _, _, _, _, _ => none
  | more + 1, fraction, interval, unit, exponent, digits => do
    let fraction ← product? 64 fraction 10
    let unit ← product? 64 unit 10
    let interval ← product? 64 interval 10
    let (high, rest) ← cutAt? 64 fraction shift
    let digit ← digit? high
    if rest < interval then do
      let distance ← product? 64 distance unit
      let one ← shiftLeft? 64 1 shift
      let settled ← settle? ⟨distance, interval, rest, one, unit⟩ (digit :: digits)
      some (settled.map (·, exponent - 1))
    else fractionDigits? shift distance more rest interval unit (exponent - 1) (digit :: digits)

/-- The digits from one place down, of which the divisor is the weight in front of the point. -/
def integralDigits? (shift distance interval fraction : Nat) :
    Nat → Nat → Nat → List Nat → Option (Option (List Nat × Int))
  | 0, _, _, digits => fractionDigits? shift distance shift fraction interval 1 0 digits
  | count + 1, divisor, integral, digits => do
    let high ← quotient? integral divisor
    let digit ← digit? high
    let integral ← remainder? integral divisor
    let above ← shiftLeft? 64 integral shift
    let rest ← sum? 64 above fraction
    if rest < interval then do
      let weight ← shiftLeft? 64 divisor shift
      let settled ← settle? ⟨distance, interval, rest, weight, 1⟩ (digit :: digits)
      some (settled.map (·, (count : Int)))
    else do
      let divisor ← quotient? divisor 10
      integralDigits? shift distance interval fraction count divisor integral (digit :: digits)

/-- The greatest power of ten that is not above an integral part, in 32 bits, and the number of its
digits; one and no digits for zero. -/
def leadingPower? (n : Nat) : Option (Nat × Nat) :=
  if n = 0 then some (1, 0)
  else do
    let count := (Positional.digits 10 n).length
    let power ← unsigned? 32 (Nat.pow 10 (count - 1))
    some (power, count)

/-- Digits of a number in the interval from `low` to `high` nearest to `target`.  Bounds at the ends of the
words are given up. -/
def generate? (low target high : ScaledWord) : Option (Option (List Nat × Int)) :=
  match difference? low.f 1, sum? 64 high.f 1 with
  | some lower, some upper => do
    let interval ← difference? upper lower
    let shift := target.e.natAbs
    let (above, fraction) ← cutAt? 64 upper shift
    let integral ← unsigned? 32 above
    let (divisor, count) ← leadingPower? integral
    let distance ← difference? upper target.f
    integralDigits? shift distance interval fraction count divisor integral []
  | _, _ => some none

def normalisedWord? (x : ScaledWord) : Option ScaledWord :=
  if x.f = 0 then none
  else do
    let shift ← difference? 63 x.f.log2
    let f ← shiftLeft? 64 x.f shift
    some ⟨f, x.e - shift⟩

def mulWord? (x y : ScaledWord) : Option ScaledWord := do
  let product ← product? 128 x.f y.f
  let high ← shiftRight? 128 product 64
  let half ← shiftRight? 128 product 63
  let f ← sum? 64 high (half &&& 1)
  some ⟨f, x.e + y.e + 64⟩

def upperBound? (t : DigitTarget) : Option ScaledWord := do
  let doubled ← shiftLeft? 64 t.sig 1
  let f ← sum? 64 doubled 1
  normalisedWord? ⟨f, t.exp - 1⟩

def lowerBound? (t : DigitTarget) (upper : ScaledWord) : Option ScaledWord := do
  let places := if t.lowerCloser then 2 else 1
  let scaled ← shiftLeft? 64 t.sig places
  let f ← difference? scaled 1
  let between ← (t.exp - places - upper.e).toNat?
  let f ← shiftLeft? 64 f between
  some ⟨f, upper.e⟩

/-- The shortest digits, or `some none` if single words cannot tell. -/
def fastDigits? (t : DigitTarget) : Option (Option DigitString) := do
  let word ← normalisedWord? ⟨t.sig, t.exp⟩
  let upper ← upperBound? t
  let lower ← lowerBound? t upper
  match ScaledWord.powerFor? word.e with
  | none => some none
  | some (power, k) => do
    let low ← mulWord? lower power
    let target ← mulWord? word power
    let high ← mulWord? upper power
    let found ← generate? low target high
    some (found.map fun (digits, exponent) => ⟨digits.reverse, digits.length - k + exponent⟩)

end MachineNumbers.CheckedDigits
