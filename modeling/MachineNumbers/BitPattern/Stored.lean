import MachineNumbers.BitPattern
import MachineNumbers.MachineWord
import MachineNumbers.WordWidth

/-!
# Bit patterns in words of 64 bits

A pattern is kept in the low end of a word.  The machine shifts a word by less than its width only; a step
that would shift by more makes the result none.
-/

namespace MachineNumbers

/-- The ways to move the bits of a pattern. -/
inductive ShiftKind where
  | left
  | right
  | rightSigned
  | maskingLeft
  | maskingRight
  | maskingRightSigned
  | rotateLeft
  | rotateRight
  deriving DecidableEq, Repr

/-- The ways to change the width of a pattern. -/
inductive WidthChange where
  | signExtend
  | zeroExtend
  | truncate
  | resize (signed : Bool)
  deriving DecidableEq, Repr

/-- The ways to join two patterns bit by bit. -/
inductive BitwiseOp where
  | and
  | or
  | xor
  deriving DecidableEq, Repr

namespace ShiftKind

def apply {w : Nat} (kind : ShiftKind) (p : BitPattern w) (n : Nat) : BitPattern w :=
  match kind with
  | left => p.shiftLeft n
  | right => p.shiftRight n
  | rightSigned => p.shiftRightSigned n
  | maskingLeft => p.maskingShiftLeft n
  | maskingRight => p.maskingShiftRight n
  | maskingRightSigned => p.maskingShiftRightSigned n
  | rotateLeft => p.rotateLeft n
  | rotateRight => p.rotateRight n

end ShiftKind

namespace WidthChange

def apply {w : Nat} (change : WidthChange) (p : BitPattern w) (v : Nat) : BitPattern v :=
  match change with
  | signExtend => p.signExtend v
  | zeroExtend => p.zeroExtend v
  | truncate => p.truncate v
  | resize signed => p.resize signed v

/-- Extensions do not narrow a pattern and truncation does not widen it. -/
def Allows (change : WidthChange) (w v : Nat) : Prop :=
  match change with
  | signExtend => w ≤ v
  | zeroExtend => w ≤ v
  | truncate => v ≤ w
  | resize _ => True

/-- The places above the old width take the top bit. -/
def fillsWithSign : WidthChange → Bool
  | signExtend => true
  | zeroExtend => false
  | truncate => false
  | resize signed => signed

end WidthChange

namespace BitwiseOp

def apply {w : Nat} (op : BitwiseOp) (p q : BitPattern w) : BitPattern w :=
  match op with
  | and => p &&& q
  | or => p ||| q
  | xor => p ^^^ q

def onWords (op : BitwiseOp) (a b : BitVec 64) : BitVec 64 :=
  match op with
  | and => a &&& b
  | or => a ||| b
  | xor => a ^^^ b

end BitwiseOp

namespace StoredPattern

open MachineWord (difference?)

/-! ## Steps of the machine -/

def up? (a : BitVec 64) (n : Nat) : Option (BitVec 64) := if n < 64 then some (a <<< n) else none

/-- The bits of a word `n` places down. -/
def down? (a : BitVec 64) (n : Nat) : Option (BitVec 64) := if n < 64 then some (a >>> n) else none

/-- The bits of a word `n` places down, with copies of its top bit above. -/
def downSigned? (a : BitVec 64) (n : Nat) : Option (BitVec 64) :=
  if n < 64 then some (a.sshiftRight n) else none

/-- The bytes of a word in the opposite order. -/
def reverseBytes (a : BitVec 64) : BitVec 64 := (BitPattern.ofBitVec a).swapBytes.toBitVec

/-! ## Operations -/

/-- The bits that belong to a pattern. -/
def mask? (w : Nat) : Option (BitVec 64) := do down? (BitVec.allOnes 64) (← difference? 64 w)

/-- The pattern of the low bits. -/
def make? (w : Nat) (bits : BitVec 64) : Option (BitVec 64) := do return bits &&& (← mask? w)

/-- The pattern in two's complement, with the top bit copied to the end of the word. -/
def getSigned? (w : Nat) (p : BitVec 64) : Option (BitVec 64) := do
  let junk ← difference? 64 w
  downSigned? (← up? p junk) junk

def shiftLeft? (w : Nat) (p : BitVec 64) (n : Nat) : Option (BitVec 64) :=
  if w ≤ n then some 0 else do make? w (← up? p n)

def shiftRight? (w : Nat) (p : BitVec 64) (n : Nat) : Option (BitVec 64) :=
  if w ≤ n then some 0 else down? p n

/-- The places that a signed shift moves the bits; past all places there is nothing more to move. -/
def signedAmount? (w n : Nat) : Option Nat := if w ≤ n then difference? w 1 else some n

def shiftRightSigned? (w : Nat) (p : BitVec 64) (n : Nat) : Option (BitVec 64) := do
  let n ← signedAmount? w n
  make? w (← downSigned? (← getSigned? w p) n)

def rotateLeft? (w : Nat) (p : BitVec 64) (n : Nat) : Option (BitVec 64) :=
  let n := n % w
  if n = 0 then some p
  else do
    let high ← up? p n
    let low ← down? p (← difference? w n)
    make? w (high ||| low)

def rotateRight? (w : Nat) (p : BitVec 64) (n : Nat) : Option (BitVec 64) := do
  rotateLeft? w p (← difference? w (n % w))

def swapBytes? (w : Nat) (p : BitVec 64) : Option (BitVec 64) := do
  down? (reverseBytes p) (← difference? 64 w)

def complement? (w : Nat) (p : BitVec 64) : Option (BitVec 64) := make? w (~~~p)

def resize? (w : Nat) (p : BitVec 64) (signed : Bool) (v : Nat) : Option (BitVec 64) :=
  if signed then do make? v (← getSigned? w p) else make? v p

def shift? (kind : ShiftKind) (w : Nat) (p : BitVec 64) (n : Nat) : Option (BitVec 64) :=
  match kind with
  | .left => shiftLeft? w p n
  | .right => shiftRight? w p n
  | .rightSigned => shiftRightSigned? w p n
  | .maskingLeft => shiftLeft? w p (n % w)
  | .maskingRight => shiftRight? w p (n % w)
  | .maskingRightSigned => shiftRightSigned? w p (n % w)
  | .rotateLeft => rotateLeft? w p n
  | .rotateRight => rotateRight? w p n

end StoredPattern

/-- Patterns as they are built: from words, and from other patterns by any operations. -/
inductive PatternExpr : Nat → Type where
  | make {w : Nat} (hw : IsWordWidth w) (bits : BitVec 64) : PatternExpr w
  | zero {w : Nat} (hw : IsWordWidth w) : PatternExpr w
  | allOnes {w : Nat} (hw : IsWordWidth w) : PatternExpr w
  | bitwise {w : Nat} (op : BitwiseOp) (p q : PatternExpr w) : PatternExpr w
  | complement {w : Nat} (p : PatternExpr w) : PatternExpr w
  | shift {w : Nat} (kind : ShiftKind) (p : PatternExpr w) (n : Nat) : PatternExpr w
  | swapBytes {w : Nat} (p : PatternExpr w) : PatternExpr w
  | changeWidth {w v : Nat} (change : WidthChange) (p : PatternExpr w) (hv : IsWordWidth v)
      (hallows : change.Allows w v) : PatternExpr v

namespace PatternExpr

/-- The pattern that is built. -/
def pattern {w : Nat} : PatternExpr w → BitPattern w
  | make _ bits => .ofNat _ bits.toNat
  | zero _ => .zero
  | allOnes _ => .allOnes
  | bitwise op p q => op.apply p.pattern q.pattern
  | complement p => ~~~p.pattern
  | shift kind p n => kind.apply p.pattern n
  | swapBytes p => p.pattern.swapBytes
  | changeWidth change p _ _ => change.apply p.pattern _

/-- The word that the machine keeps for it; none if a step has no result. -/
def word? {w : Nat} : PatternExpr w → Option (BitVec 64)
  | make _ bits => StoredPattern.make? w bits
  | zero _ => some 0
  | allOnes _ => StoredPattern.mask? w
  | bitwise op p q => do return op.onWords (← p.word?) (← q.word?)
  | complement p => do StoredPattern.complement? w (← p.word?)
  | shift kind p n => do StoredPattern.shift? kind w (← p.word?) n
  | swapBytes p => do StoredPattern.swapBytes? w (← p.word?)
  | @changeWidth u v change p _ _ => do
    StoredPattern.resize? u (← p.word?) change.fillsWithSign v

end PatternExpr

end MachineNumbers
