import MachineNumbers.Limbs
import MachineNumbers.MachineWord

/-!
# Limbs in machine words

A limb is multiplied or shifted in a word of 64 bits together with the carry from below; sums and differences
wrap at 32 bits and say whether they did; the bits above a cut are put together in 128.
-/

namespace MachineNumbers

namespace CheckedLimbs

open Limbs (trim)
open MachineWord (cutAt? difference? product? shiftLeft? shiftRight? sum? unsigned?)

def ofNat64? (n : Nat) : Option Limbs := do
  let high ← shiftRight? 64 n 32
  some (trim ⟨[UInt32.ofNat n, UInt32.ofNat high]⟩)

/-! ## Multiplication by a limb and by powers -/

/-- What is carried beyond the last limb, if anything, is one limb more. -/
def lastCarry (carry : Nat) : List UInt32 := if carry = 0 then [] else [UInt32.ofNat carry]

def mulAddWords? (factor : UInt32) : Nat → List UInt32 → Option (List UInt32)
  | carry, [] => some (lastCarry carry)
  | carry, w :: ws => do
    let product ← product? 64 w.toNat factor.toNat
    let wide ← sum? 64 product carry
    let high ← shiftRight? 64 wide 32
    let rest ← mulAddWords? factor high ws
    some (UInt32.ofNat wide :: rest)

def mulAddSmall? (x : Limbs) (factor addend : UInt32) : Option Limbs := do
  let words ← mulAddWords? factor addend.toNat x.words
  some (trim ⟨words⟩)

def mul10? (x : Limbs) : Option Limbs := mulAddSmall? x 10 0

/-- `x × 10^n`, nine places at a time as long as there are nine. -/
def mulPow10? (x : Limbs) (n : Nat) : Option Limbs :=
  if 9 ≤ n then do
    let x ← mulAddSmall? x 1000000000 0
    mulPow10? x (n - 9)
  else if 0 < n then do
    let power ← unsigned? 32 (Nat.pow 10 n)
    mulAddSmall? x (UInt32.ofNat power) 0
  else some x
termination_by n

/-- `ws` shifted by less than a limb, over the bits that come from below. -/
def shiftWords? (bits : Nat) : Nat → List UInt32 → Option (List UInt32)
  | carry, [] => some (lastCarry carry)
  | carry, w :: ws => do
    let shifted ← shiftLeft? 64 w.toNat bits
    let wide := shifted ||| carry
    let high ← shiftRight? 64 wide 32
    let rest ← shiftWords? bits high ws
    some (UInt32.ofNat wide :: rest)

/-- `x × 2^n`: a shift by bits, if there are any, and then by whole limbs. -/
def mulPow2? (x : Limbs) (n : Nat) : Option Limbs :=
  if x.isZero then some x
  else do
    let words ← if n % 32 = 0 then some x.words else shiftWords? (n % 32) 0 x.words
    some ⟨List.replicate (n / 32) 0 ++ words⟩

/-! ## Addition, subtraction and comparison -/

/-- A sum of limbs that wraps, and whether it did. -/
def wrappingSum (a b : UInt32) : UInt32 × Bool := (a + b, Nat.pow 2 32 ≤ a.toNat + b.toNat)

def wrappingDifference (a b : UInt32) : UInt32 × Bool := (a - b, a < b)

/-- `long + short + carry`, for no more limbs in `short`. -/
def addWords : Bool → List UInt32 → List UInt32 → List UInt32
  | carry, [], _ => if carry then [1] else []
  | carry, a :: long, short =>
    let (sum, first) := wrappingSum a (short.headD 0)
    let (sum, second) := wrappingSum sum (UInt32.ofNat carry.toNat)
    sum :: addWords (first || second) long short.tail

def add (x y : Limbs) : Limbs :=
  if y.words.length ≤ x.words.length then ⟨addWords false x.words y.words⟩
  else ⟨addWords false y.words x.words⟩

/-- `xs - ys - borrow`; what is borrowed beyond the last limb is lost. -/
def subWords : Bool → List UInt32 → List UInt32 → List UInt32
  | _, [], _ => []
  | borrow, x :: xs, ys =>
    let (rest, first) := wrappingDifference x (ys.headD 0)
    let (rest, second) := wrappingDifference rest (UInt32.ofNat borrow.toNat)
    rest :: subWords (first || second) xs ys.tail

/-- `x - y`, which must not be negative. -/
def sub? (x y : Limbs) : Option Limbs :=
  if y.le x then some (trim ⟨subWords false x.words y.words⟩) else none

/-- More limbs are more, and of as many limbs those with the greater one where they first differ from the
top. -/
def compare (x y : Limbs) : Ordering :=
  (Ord.compare x.words.length y.words.length).then
    (List.compareLex (fun a b => Ord.compare a.toNat b.toNat) x.words.reverse y.words.reverse)

/-- Takes `d` off `r` while it fits, and counts in 32 bits. -/
def takeOff? (d : Limbs) (count : Nat) (r : Limbs) : Option (Nat × Limbs) :=
  if d.le r then
    if count + 1 < Nat.pow 2 32 then do
      let r ← sub? r d
      takeOff? d (count + 1) r
    else none
  else some (count, r)
termination_by Nat.pow 2 32 - count
decreasing_by exact Nat.sub_lt_sub_left (Nat.lt_of_succ_lt ‹_›) (Nat.lt_succ_self count)

def divModSmall? (x d : Limbs) : Option (Nat × Limbs) := takeOff? d 0 x

/-- The zero bits above the leading one. -/
def leadingZeros (w : UInt32) : Nat := if w = 0 then 32 else 31 - w.toNat.log2

def bitLength? (x : Limbs) : Option Nat :=
  match x.words.getLast? with
  | none => some 0
  | some top => do
    let bits ← product? 32 32 x.words.length
    difference? bits (leadingZeros top)

/-- A limb moved up in 128 bits.  Bits that go beyond are lost, and with an amount past the word all are. -/
def movedUp (w : UInt32) (amount : Nat) : Nat :=
  if amount < 128 then w.toNat <<< amount % Nat.pow 2 128 else 0

/-- The bits above a cut of a limb `place` limbs over the one that is cut, at `offset`. -/
def bitsAbove? (offset place : Nat) (w : UInt32) : Option Nat :=
  if place = 0 then shiftRight? 32 w.toNat offset
  else do
    let bits ← product? 32 32 place
    let amount ← difference? bits offset
    some (movedUp w amount)

/-- The limbs from a place on, put together with the bits from below. -/
def joined? (offset : Nat) : Nat → Nat → List UInt32 → Option Nat
  | _, value, [] => some value
  | place, value, w :: ws => do
    let bits ← bitsAbove? offset place w
    joined? offset (place + 1) (value ||| bits) ws

/-- Whether any of the lowest `offset` bits of a limb, if there is one, is set. -/
def anyLow? (offset : Nat) : Option UInt32 → Option Bool
  | none => some false
  | some w => do
    let (_, low) ← cutAt? 32 w.toNat offset
    some (low != 0)

/-- Whether any bit below `shift` is set, in whole limbs or in the one that is cut. -/
def anyBelow? (x : Limbs) (shift : Nat) : Option Bool :=
  if (x.words.take (shift / 32)).any (· != 0) then some true
  else if shift % 32 = 0 then some false
  else anyLow? (shift % 32) x.words[shift / 32]?

/-- The bits from `shift` on in 128 bits, and whether any bit below is set.  That no more than 128 bits are
left is for the caller to see to. -/
def splitAtBit? (x : Limbs) (shift : Nat) : Option (Nat × Bool) := do
  let sticky ← anyBelow? x shift
  let value ← joined? (shift % 32) 0 0 (x.words.drop (shift / 32))
  some (value, sticky)

end CheckedLimbs

/-! ## Combinations -/

/-- Numbers in limbs as they are built: from words, and from other numbers by any operations. -/
inductive LimbsExpr where
  | ofNat64 (n : UInt64)
  | mulAddSmall (x : LimbsExpr) (factor addend : UInt32)
  | mul10 (x : LimbsExpr)
  | mulPow10 (x : LimbsExpr) (n : Nat)
  | mulPow2 (x : LimbsExpr) (n : Nat)
  | add (x y : LimbsExpr)
  | sub (x y : LimbsExpr)
  /-- What is left of `x` when `d` is taken off as often as it fits. -/
  | remainder (x d : LimbsExpr)

namespace LimbsExpr

/-- The number that is built. -/
def value : LimbsExpr → Nat
  | ofNat64 n => n.toNat
  | mulAddSmall x factor addend => x.value * factor.toNat + addend.toNat
  | mul10 x => x.value * 10
  | mulPow10 x n => x.value * Nat.pow 10 n
  | mulPow2 x n => x.value * Nat.pow 2 n
  | add x y => x.value + y.value
  | sub x y => x.value - y.value
  | remainder x d => x.value % d.value

/-- No difference is negative, and what is divided by is not zero and fits less than `2^32` times. -/
def Admissible : LimbsExpr → Prop
  | ofNat64 _ => True
  | mulAddSmall x _ _ => x.Admissible
  | mul10 x => x.Admissible
  | mulPow10 x _ => x.Admissible
  | mulPow2 x _ => x.Admissible
  | add x y => x.Admissible ∧ y.Admissible
  | sub x y => x.Admissible ∧ y.Admissible ∧ y.value ≤ x.value
  | remainder x d =>
    x.Admissible ∧ d.Admissible ∧ 0 < d.value ∧ x.value / d.value < Nat.pow 2 32

def limbs : LimbsExpr → Limbs
  | ofNat64 n => .ofNat64 n.toNat
  | mulAddSmall x factor addend => x.limbs.mulAddSmall factor addend
  | mul10 x => x.limbs.mul10
  | mulPow10 x n => x.limbs.mulPow10 n
  | mulPow2 x n => x.limbs.mulPow2 n
  | add x y => x.limbs.add y.limbs
  | sub x y => x.limbs.sub y.limbs
  | remainder x d => (x.limbs.divModSmall d.limbs).2

/-- The limbs that the machine has for it; none if a step has no result. -/
def limbs? : LimbsExpr → Option Limbs
  | ofNat64 n => CheckedLimbs.ofNat64? n.toNat
  | mulAddSmall x factor addend => do CheckedLimbs.mulAddSmall? (← x.limbs?) factor addend
  | mul10 x => do CheckedLimbs.mul10? (← x.limbs?)
  | mulPow10 x n => do CheckedLimbs.mulPow10? (← x.limbs?) n
  | mulPow2 x n => do CheckedLimbs.mulPow2? (← x.limbs?) n
  | add x y => do return CheckedLimbs.add (← x.limbs?) (← y.limbs?)
  | sub x y => do CheckedLimbs.sub? (← x.limbs?) (← y.limbs?)
  | remainder x d => do
    let (_, rest) ← CheckedLimbs.divModSmall? (← x.limbs?) (← d.limbs?)
    return rest

end LimbsExpr

end MachineNumbers
