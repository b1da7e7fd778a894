import MachineNumbers.BinaryFloat.Unpacked
import MachineNumbers.MachineWord

/-!
# Unpacking and rounding in machine words

Encodings are words of 64 bits, significands of 128 and exponents signed ones of 32.  A step that would stop
the program makes the result none, and so does a zero where a leading bit is asked for.
-/

namespace MachineNumbers.Checked

open MachineWord

variable {fmt : FloatFormat}

def normalised? (x : Unpacked) : Option Unpacked :=
  if x.sig = 0 then none
  else do
    let shift ← difference? (leadingZeros x.sig) (127 - Unpacked.leadPlace)
    let exp ← exponent? (x.exp - shift)
    let sig ← shiftLeft? 128 x.sig shift
    some ⟨x.sign, exp, sig⟩

def leadExp? (x : Unpacked) : Option Int :=
  if x.sig = 0 then none
  else do
    let place ← difference? 127 (leadingZeros x.sig)
    exponent? (x.exp + place)

def exponentField? (x : BinaryFloat fmt) : Option Nat := do
  let high ← shiftRight? 64 x.toBits fmt.fractionBits
  some (high &&& fmt.exponentMask)

def fractionField (x : BinaryFloat fmt) : Nat := x.toBits &&& fmt.fractionMask

/-- A float taken apart; of infinities and NaNs too. -/
def unpack? (mode : SubnormalMode) (x : BinaryFloat fmt) : Option Unpacked := do
  let sign := x.toBits &&& fmt.signWeight != 0
  let biased ← exponentField? x
  if biased = 0 then
    some ⟨sign, fmt.minExp, if mode = .flushToZero then 0 else fractionField x⟩
  else do
    let exp ← exponent? (fmt.minExp + biased)
    let exp ← exponent? (exp - 1)
    some ⟨sign, exp, fractionField x ||| fmt.hiddenBit⟩

def shiftRightNearest? (sig shift : Nat) (sticky : Bool) : Option Nat :=
  if 128 < shift then some 0
  else if shift = 128 then do
    let half ← shiftLeft? 128 1 127
    sum? 128 0 (roundsUp 0 sig half sticky).toNat
  else do
    let (kept, rest) ← cutAt? 128 sig shift
    let half ← halfUnit? 128 shift
    sum? 128 kept (roundsUp kept rest half sticky).toNat

def significandAt? (x : Unpacked) (q : Int) (sticky : Bool) : Option Nat := do
  let shift ← exponent? (q - x.exp)
  if shift ≤ 0 then do
    let left ← amount? (-shift)
    shiftLeft? 128 x.sig left
  else shiftRightNearest? x.sig shift.toNat sticky

/-- A rounded significand and the exponent of its last bit, with a carry into one bit too many taken
back. -/
def carried? (fmt : FloatFormat) (kept : Nat) (q : Int) : Option (Nat × Int) := do
  let limit ← shiftLeft? 128 1 (fmt.fractionBits + 1)
  if kept = limit then do
    let kept ← shiftRight? 128 kept 1
    let q ← exponent? (q + 1)
    some (kept, q)
  else some (kept, q)

/-- The encoding of a significand that fits the format, or of infinity where the exponent is too great. -/
def encoded? (sign : Bool) (kept : Nat) (q : Int) : Option (BinaryFloat fmt) := do
  let kept ← unsigned? 64 kept
  let signBit := if sign then fmt.signWeight else 0
  if kept < fmt.hiddenBit then some (.ofBits (signBit ||| kept))
  else do
    let above ← exponent? (q - fmt.minExp)
    let biased ← amount? (above + 1)
    if fmt.exponentMask ≤ biased then some (.ofBits (signBit ||| fmt.infinityWord))
    else do
      let field ← shiftLeft? 64 biased fmt.fractionBits
      some (.ofBits (signBit ||| field ||| (kept &&& fmt.fractionMask)))

/-- The float nearest to `x`, or to a number less than one unit beyond it if `sticky` is set. -/
def roundPack? (mode : SubnormalMode) (x : Unpacked) (sticky : Bool) : Option (BinaryFloat fmt) :=
  if x.sig = 0 then if sticky then none else some (.zero x.sign)
  else do
    let lead ← leadExp? x
    if mode = .flushToZero ∧ lead < fmt.minLead then some (.zero x.sign)
    else do
      let last ← exponent? (lead - fmt.fractionBits)
      let q := max last fmt.minExp
      let kept ← significandAt? x q sticky
      let (kept, q) ← carried? fmt kept q
      encoded? x.sign kept q

def powerOfTwoWord? (fmt : FloatFormat) (e : Int) : Option Nat :=
  if fmt.minLead ≤ e then do
    let biased ← amount? (e + fmt.bias)
    shiftLeft? 64 biased fmt.fractionBits
  else do
    let place ← amount? (e - fmt.minExp)
    shiftLeft? 64 1 place

end MachineNumbers.Checked
