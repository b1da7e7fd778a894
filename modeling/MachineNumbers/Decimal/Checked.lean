import MachineNumbers.Decimal.Nearest
import MachineNumbers.Limbs.Checked

/-!
# Decimals in machine words

From the digits of a decimal to its product or quotient by a power of ten.  For the quotient both are scaled
by a power of two and then divided bit by bit, with the quotient in a word of 128 bits.
-/

namespace MachineNumbers.CheckedDecimal

open CheckedLimbs (bitLength? mulAddSmall? mulPow10? mulPow2? ofNat64? splitAtBit? sub?)
open MachineWord (difference? exponent? shiftLeft? sum? unsigned?)

/-- Digits put together in a word of this width, behind those of `n`. -/
def ofDigits? (width : Nat) : Nat → List Nat → Option Nat
  | n, [] => some n
  | n, digit :: ds => do
    let tens ← MachineWord.product? width n 10
    let n ← sum? width tens digit
    ofDigits? width n ds

/-- The digits in one word; of more than 19 it is not tried. -/
def small? (d : Decimal) : Option (Option Nat) :=
  if 19 < d.digits.length then some none else (ofDigits? 64 0 d.digits).map some

/-- Digits put together in limbs behind those of `x`, nine at a time as long as there are nine. -/
def bigFrom? (x : Limbs) (ds : List Nat) : Option Limbs :=
  if ds.isEmpty then some x
  else do
    let chunk := ds.take 9
    let value ← ofDigits? 32 0 chunk
    let power ← unsigned? 32 (Nat.pow 10 chunk.length)
    let x ← mulAddSmall? x (UInt32.ofNat power) (UInt32.ofNat value)
    bigFrom? x (ds.drop 9)
termination_by ds.length
decreasing_by
  have : 0 < ds.length := List.length_pos_iff.2 (by simpa using ‹¬ds.isEmpty = true›)
  rw [List.length_drop]
  omega

def big? (d : Decimal) : Option Limbs := do
  let zero ← ofNat64? 0
  bigFrom? zero d.digits

/-- Digits times a power of ten, and whether bits were cut off. -/
def product? (d : Decimal) (power : Nat) (negative : Bool) : Option (Unpacked × Bool) := do
  let w ← big? d
  let w ← mulPow10? w power
  let bits ← bitLength? w
  let shift := bits - 126
  -- no more bits may be left than a word of 128 holds
  let room ← sum? 32 shift 128
  let _ ← difference? room bits
  let (sig, sticky) ← splitAtBit? w shift
  let exp ← exponent? shift
  some (⟨negative, exp, sig⟩, sticky)

/-- A division as far as it has come: the bits found so far, and what is left to be divided. -/
structure Division where
  quotient : Nat
  rest : Limbs
  deriving DecidableEq, Repr

namespace Division

/-- One bit more: the divisor is taken off if it fits, and what is left is doubled. -/
def step? (divisor : Limbs) (s : Division) : Option Division := do
  let quotient ← shiftLeft? 128 s.quotient 1
  if CheckedLimbs.compare s.rest divisor = .lt then do
    let rest ← mulPow2? s.rest 1
    some ⟨quotient, rest⟩
  else do
    let rest ← sub? s.rest divisor
    let rest ← mulPow2? rest 1
    some ⟨quotient ||| 1, rest⟩

def run? (divisor : Limbs) : Nat → Division → Option Division
  | 0, s => some s
  | bits + 1, s => do
    let s ← run? divisor bits s
    step? divisor s

end Division

/-- What is divided by what, and the exponent of the power of two that it has been scaled by. -/
structure Scaled where
  dividend : Limbs
  divisor : Limbs
  scale : Int
  deriving DecidableEq, Repr

/-- Digits over a power of ten, scaled so that the quotient has three or four bits more than `precision`.
The divisor is shifted up by more places than that, so that the dividend is less than twice as large. -/
def scaled? (precision : Nat) (d : Decimal) (power : Nat) : Option Scaled := do
  let w ← big? d
  let one ← ofNat64? 1
  let den ← mulPow10? one power
  let denBits ← exponent? (← bitLength? den)
  let bits ← exponent? (← bitLength? w)
  let k ← exponent? (denBits - bits)
  let k ← exponent? (k + precision)
  let k ← exponent? (k + 3)
  if 0 ≤ k then do
    let w ← mulPow2? w k.toNat
    let den ← mulPow2? den (precision + 5)
    some ⟨w, den, k⟩
  else do
    let den ← mulPow2? den k.natAbs
    let den ← mulPow2? den (precision + 5)
    some ⟨w, den, k⟩

/-- Digits over a power of ten, and whether a remainder was left. -/
def quotient? (precision : Nat) (d : Decimal) (power : Nat) (negative : Bool) :
    Option (Unpacked × Bool) := do
  let s ← scaled? precision d power
  let result ← Division.run? s.divisor (precision + 6) ⟨0, s.dividend⟩
  let exp ← exponent? (-s.scale)
  some (⟨negative, exp, result.quotient⟩, !result.rest.isZero)

end MachineNumbers.CheckedDecimal
