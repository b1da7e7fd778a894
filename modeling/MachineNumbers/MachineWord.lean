/-!
# Steps in machine words

A step whose exact result its word does not hold has none, and so have a shift by the width or more and a
division by zero.
-/

namespace MachineNumbers.MachineWord

/-- An integer in a signed word. -/
def signed? (width : Nat) (n : Int) : Option Int :=
  if -(Nat.pow 2 (width - 1) : Int) ≤ n ∧ n < (Nat.pow 2 (width - 1) : Int) then some n else none

/-- A natural number in an unsigned word. -/
def unsigned? (width n : Nat) : Option Nat := if n < Nat.pow 2 width then some n else none

def difference? (m n : Nat) : Option Nat := if n ≤ m then some (m - n) else none

def sum? (width m n : Nat) : Option Nat := unsigned? width (m + n)

def product? (width m n : Nat) : Option Nat := unsigned? width (m * n)

/-- A left shift, which must not lose bits. -/
def shiftLeft? (width n amount : Nat) : Option Nat :=
  if amount < width then unsigned? width (n <<< amount) else none

/-- A right shift; the bits below the first place are dropped. -/
def shiftRight? (width n amount : Nat) : Option Nat :=
  if amount < width then some (n >>> amount) else none

def quotient? (n d : Nat) : Option Nat := if d = 0 then none else some (n / d)

def remainder? (n d : Nat) : Option Nat := if d = 0 then none else some (n % d)

/-- The low bits of a word and the word without them. -/
def cutAt? (width n amount : Nat) : Option (Nat × Nat) := do
  let high ← shiftRight? width n amount
  let unit ← shiftLeft? width 1 amount
  let mask ← difference? unit 1
  some (high, n &&& mask)

/-- Half of the unit `2^amount`. -/
def halfUnit? (width amount : Nat) : Option Nat := do
  let below ← difference? amount 1
  shiftLeft? width 1 below

/-- The zero bits above the leading one, in 128 bits. -/
def leadingZeros (n : Nat) : Nat := if n = 0 then 128 else 127 - n.log2

/-- An exponent, which is kept in 32 bits. -/
def exponent? (e : Int) : Option Int := signed? 32 e

/-- An exponent as an amount to shift by, which must not be negative. -/
def amount? (e : Int) : Option Nat := do
  let e ← exponent? e
  e.toNat?

end MachineNumbers.MachineWord
