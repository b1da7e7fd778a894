import MachineNumbers.BinaryFloat.Arithmetic.Product
import MachineNumbers.BinaryFloat.Arithmetic.Quotient
import MachineNumbers.BinaryFloat.Arithmetic.Remainder
import MachineNumbers.BinaryFloat.Arithmetic.SquareRoot
import MachineNumbers.BinaryFloat.Checked.Packing

/-!
# Kernels in machine words

What is computed on unpacked numbers, in 128-bit significands and 32-bit exponents.
-/

namespace MachineNumbers.Checked

open MachineWord

/-- A significand shifted right, and whether bits were lost; a shift beyond the word leaves nothing. -/
def aligned? (sig shift : Nat) : Option (Nat × Bool) :=
  if 128 ≤ shift then some (0, true)
  else do
    let kept ← shiftRight? 128 sig shift
    let back ← shiftLeft? 128 kept shift
    some (kept, back != sig)

/-- The sum or the difference of two aligned significands; lost bits are borrowed by a difference. -/
def combined? (same : Bool) (big aligned : Nat) (lost : Bool) : Option Nat :=
  if same then sum? 128 big aligned
  else do
    let rest ← difference? big aligned
    difference? rest lost.toNat

/-- The sum of a number and one that is not greater in magnitude. -/
def addOrdered? (x y : Unpacked) : Option (Unpacked × Bool) := do
  let shift ← amount? (x.exp - y.exp)
  let (aligned, lost) ← aligned? y.sig shift
  let sig ← combined? (x.sign == y.sign) x.sig aligned lost
  some (⟨x.sign && sig != 0, x.exp, sig⟩, lost)

def sum? (x y : Unpacked) : Option (Unpacked × Bool) := do
  let x ← normalised? x
  let y ← normalised? y
  if y.exp < x.exp ∨ (y.exp = x.exp ∧ y.sig ≤ x.sig) then addOrdered? x y else addOrdered? y x

def product? (x y : Unpacked) : Option Unpacked := do
  let exp ← exponent? (x.exp + y.exp)
  let sig ← MachineWord.product? 128 x.sig y.sig
  some ⟨x.sign != y.sign, exp, sig⟩

def quotient? (x y : Unpacked) : Option (Unpacked × Bool) := do
  let x ← normalised? x
  let sig ← MachineWord.quotient? x.sig y.sig
  let rest ← remainder? x.sig y.sig
  let exp ← exponent? (x.exp - y.exp)
  some (⟨x.sign != y.sign, exp, sig⟩, rest != 0)

/-- The square root of a significand under an even exponent; halves are taken toward zero. -/
def rootOf? (sig : Nat) (exp : Int) : Option (Unpacked × Bool) := do
  let root := integerSqrt sig
  let square ← MachineWord.product? 128 root root
  some (⟨false, exp.tdiv 2, root⟩, square != sig)

def squareRoot? (x : Unpacked) : Option (Unpacked × Bool) := do
  let x ← normalised? x
  if x.exp % 2 ≠ 0 then do
    let sig ← shiftLeft? 128 x.sig 1
    let exp ← exponent? (x.exp - 1)
    rootOf? sig exp
  else rootOf? x.sig x.exp

/-- `r × 2^d` modulo `m`, with at most 64 bits shifted in before each reduction. -/
def shiftedMod? (r d m : Nat) : Option Nat :=
  if d = 0 then some r
  else do
    let shifted ← shiftLeft? 128 r (min d 64)
    let r ← remainder? shifted m
    shiftedMod? r (d - min d 64) m
termination_by d

def remainderAt? (mx : Nat) (ex : Int) (my : Nat) (ey : Int) : Option (Nat × Int) :=
  if ey ≤ ex then do
    let r ← remainder? mx my
    let d ← amount? (ex - ey)
    let r ← shiftedMod? r d my
    some (r, ey)
  else do
    let shift ← amount? (ey - ex)
    if 64 ≤ shift then some (mx, ex)
    else do
      let divisor ← shiftLeft? 128 my shift
      let r ← remainder? mx divisor
      some (r, ex)

/-- Less one divisor if that leaves something, and whether it did. -/
def withoutOdd? (r divisor : Nat) : Option (Nat × Bool) :=
  if divisor ≤ r then do
    let r ← difference? r divisor
    some (r, true)
  else some (r, false)

/-- The nearest remainder of a number below the divisor, given that the quotient so far is odd or even, and
whether it is past one half. -/
def nearestOf? (r divisor : Nat) (odd : Bool) : Option (Nat × Bool) := do
  let double ← MachineWord.product? 128 2 r
  if divisor < double ∨ (double = divisor ∧ odd) then do
    let sig ← difference? divisor r
    some (sig, true)
  else some (r, false)

def nearestRemainder? (x y : Unpacked) : Option Unpacked := do
  let ey ← exponent? (y.exp + 1)
  let (r, e) ← remainderAt? x.sig x.exp y.sig ey
  let r ← shiftLeft? 128 r 1
  let between ← exponent? (y.exp - e)
  let finer ← amount? (between + 1)
  let divisor ← shiftLeft? 128 y.sig finer
  let exp ← exponent? (e - 1)
  let (r, odd) ← withoutOdd? r divisor
  let (sig, past) ← nearestOf? r divisor odd
  some ⟨if sig = 0 then x.sign else x.sign != past, exp, sig⟩

end MachineNumbers.Checked
