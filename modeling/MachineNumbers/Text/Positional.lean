/-!
# Positional numerals

Digits in a radix from 2 to 16, most significant first.
-/

namespace MachineNumbers.Positional

/-- The letter of a digit below 16. -/
def digitChar (upper : Bool) (d : Nat) : Char :=
  if d < 10 then Char.ofNat ('0'.toNat + d)
  else Char.ofNat ((if upper then 'A'.toNat else 'a'.toNat) + (d - 10))

/-- What a letter of either case counts as a hexadecimal digit. -/
def hexValue? (c : Char) : Option Nat :=
  if '0' ≤ c ∧ c ≤ '9' then some (c.toNat - '0'.toNat)
  else if 'a' ≤ c ∧ c ≤ 'f' then some (c.toNat - 'a'.toNat + 10)
  else if 'A' ≤ c ∧ c ≤ 'F' then some (c.toNat - 'A'.toNat + 10)
  else none

/-- What a letter counts as a digit of the radix. -/
def digitValue? (radix : Nat) (c : Char) : Option Nat :=
  (hexValue? c).filter (· < radix)

/-- The number with these digits. -/
def ofDigits (radix : Nat) (ds : List Nat) : Nat := ds.foldl (fun n d => n * radix + d) 0

/-- The lowest `count` digits of `n`, or all of them if they are fewer, lowest first. -/
def lowDigits (radix : Nat) : Nat → Nat → List Nat
  | 0, _ => []
  | count + 1, n => if n < radix then [n] else n % radix :: lowDigits radix count (n / radix)

/-- The digits of `n` without leading zeros; zero has one.  A digit takes a bit or more. -/
def digits (radix n : Nat) : List Nat := (lowDigits radix (n.log2 + 1) n).reverse

def numeral (radix : Nat) (upper : Bool) (n : Nat) : String :=
  String.ofList ((digits radix n).map (digitChar upper))

end MachineNumbers.Positional
