/-!
# Bit patterns of a fixed width

A `BitPattern w` is `w` bits that are neither signed nor unsigned; whoever reads them decides.  Shifts are
total: by the width or more, a logical one leaves no bit and an arithmetic one copies of the top bit.
-/

namespace MachineNumbers

/-- A vector of `w` bits, bit 0 being the lowest. -/
structure BitPattern (w : Nat) where
  ofBitVec ::
  toBitVec : BitVec w
  deriving DecidableEq

namespace BitPattern

variable {w : Nat}

/-- The low `w` bits of a number. -/
def ofNat (w n : Nat) : BitPattern w := ⟨BitVec.ofNat w n⟩

/-- The low `w` bits of a number in two's complement. -/
def ofInt (w : Nat) (i : Int) : BitPattern w := ⟨BitVec.ofInt w i⟩

def toNat (p : BitPattern w) : Nat := p.toBitVec.toNat

/-- The pattern read in two's complement. -/
def toInt (p : BitPattern w) : Int := p.toBitVec.toInt

/-- Bit `i`; none is set from the width on. -/
def bit (p : BitPattern w) (i : Nat) : Bool := p.toBitVec.getLsbD i

def zero : BitPattern w := ⟨0⟩

def allOnes : BitPattern w := ⟨BitVec.allOnes w⟩

instance : Inhabited (BitPattern w) := ⟨zero⟩

def signBit (p : BitPattern w) : Bool := p.toBitVec.msb

/-! ## Bitwise operations -/

instance : AndOp (BitPattern w) := ⟨fun p q => ⟨p.toBitVec &&& q.toBitVec⟩⟩

instance : OrOp (BitPattern w) := ⟨fun p q => ⟨p.toBitVec ||| q.toBitVec⟩⟩

instance : XorOp (BitPattern w) := ⟨fun p q => ⟨p.toBitVec ^^^ q.toBitVec⟩⟩

instance : Complement (BitPattern w) := ⟨fun p => ⟨~~~p.toBitVec⟩⟩

/-! ## Shifts and rotations -/

/-- Every bit `n` places up, with zeros below. -/
def shiftLeft (p : BitPattern w) (n : Nat) : BitPattern w :=
  if w ≤ n then zero else ⟨p.toBitVec <<< n⟩

/-- Every bit `n` places down, with zeros above. -/
def shiftRight (p : BitPattern w) (n : Nat) : BitPattern w :=
  if w ≤ n then zero else ⟨p.toBitVec >>> n⟩

/-- Every bit `n` places down, with copies of the top bit above. -/
def shiftRightSigned (p : BitPattern w) (n : Nat) : BitPattern w :=
  ⟨p.toBitVec.sshiftRight (if w ≤ n then w - 1 else n)⟩

instance : HShiftLeft (BitPattern w) Nat (BitPattern w) := ⟨shiftLeft⟩

instance : HShiftRight (BitPattern w) Nat (BitPattern w) := ⟨shiftRight⟩

/-- `shiftLeft` by the amount modulo the width. -/
def maskingShiftLeft (p : BitPattern w) (n : Nat) : BitPattern w := p.shiftLeft (n % w)

def maskingShiftRight (p : BitPattern w) (n : Nat) : BitPattern w := p.shiftRight (n % w)

def maskingShiftRightSigned (p : BitPattern w) (n : Nat) : BitPattern w :=
  p.shiftRightSigned (n % w)

/-- Every bit `n` places up, those that leave at the top coming in below. -/
def rotateLeft (p : BitPattern w) (n : Nat) : BitPattern w := ⟨p.toBitVec.rotateLeft n⟩

def rotateRight (p : BitPattern w) (n : Nat) : BitPattern w := ⟨p.toBitVec.rotateRight n⟩

def countOnes (p : BitPattern w) : Nat := (List.range w).countP p.bit

/-- The number of clear bits above the highest one set. -/
def leadingZeros (p : BitPattern w) : Nat :=
  ((List.range w).reverse.takeWhile fun i => !p.bit i).length

/-- The number of clear bits below the lowest one set. -/
def trailingZeros (p : BitPattern w) : Nat :=
  ((List.range w).takeWhile fun i => !p.bit i).length

/-- Byte `i`, byte 0 being the lowest. -/
def byte (p : BitPattern w) (i : Nat) : Nat := p.toNat / Nat.pow 256 i % 256

def swapBytes (p : BitPattern w) : BitPattern w :=
  ofNat w ((List.range (w / 8)).foldl (fun n i => n * 256 + p.byte i) 0)

/-! ## Change of width -/

/-- The pattern at another width: the low bits, or the bits below copies of the top bit. -/
def signExtend (p : BitPattern w) (v : Nat) : BitPattern v := ⟨p.toBitVec.signExtend v⟩

/-- The pattern at another width: the low bits, or the bits below zeros. -/
def zeroExtend (p : BitPattern w) (v : Nat) : BitPattern v := ⟨p.toBitVec.setWidth v⟩

/-- The low `v` bits. -/
def truncate (p : BitPattern w) (v : Nat) : BitPattern v := ⟨p.toBitVec.setWidth v⟩

/-- The pattern at another width, extended with copies of the top bit or with zeros. -/
def resize (p : BitPattern w) (signed : Bool) (v : Nat) : BitPattern v :=
  if signed then p.signExtend v else p.zeroExtend v

/-! ## Lemmas -/

theorem bit_of_le (p : BitPattern w) (i : Nat) (h : w ≤ i) : p.bit i = false :=
  BitVec.getLsbD_of_ge p.toBitVec i h

theorem bit_zero (i : Nat) : (zero : BitPattern w).bit i = false := BitVec.getLsbD_zero

theorem bit_and (p q : BitPattern w) (i : Nat) : (p &&& q).bit i = (p.bit i && q.bit i) :=
  BitVec.getLsbD_and

theorem bit_or (p q : BitPattern w) (i : Nat) : (p ||| q).bit i = (p.bit i || q.bit i) :=
  BitVec.getLsbD_or

theorem bit_xor (p q : BitPattern w) (i : Nat) : (p ^^^ q).bit i = (p.bit i ^^ q.bit i) :=
  BitVec.getLsbD_xor

/-- Bits leave at the top, also when all of them do. -/
theorem bit_shiftLeft (p : BitPattern w) (n i : Nat) :
    (p.shiftLeft n).bit i = (decide (i < w) && !decide (i < n) && p.bit (i - n)) := by
  unfold shiftLeft
  split
  · rename_i h
    rw [bit_zero]
    by_cases hi : i < w
    · rw [decide_eq_true (show i < n by omega)]
      simp
    · rw [decide_eq_false hi]
      simp
  · exact BitVec.getLsbD_shiftLeft p.toBitVec n

/-- Bits leave below, also when all of them do. -/
theorem bit_shiftRight (p : BitPattern w) (n i : Nat) :
    (p.shiftRight n).bit i = p.bit (n + i) := by
  unfold shiftRight
  split
  · rw [bit_zero, bit_of_le p (n + i) (by omega)]
  · exact BitVec.getLsbD_ushiftRight p.toBitVec n i

end BitPattern

end MachineNumbers
