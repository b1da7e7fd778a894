import MachineNumbers.BinaryFloat.Checked.Kernels
import MachineNumbers.BinaryFloat.Conversion
import MachineNumbers.BinaryFloat.Integral
import MachineNumbers.BinaryFloat.Neighbour

/-!
# Operations in machine words

The same special cases as in `BinaryFloat`, and for the rest unpacking, a kernel and one rounding.
-/

namespace MachineNumbers.Checked

open MachineWord
open BinaryFloat (propagatedNaN? zero infinity nan leastNonzero)

variable {fmt : FloatFormat}

def add? (mode : SubnormalMode) (x y : BinaryFloat fmt) : Option (BinaryFloat fmt) :=
  match propagatedNaN? [x, y] with
  | some nan => some nan
  | none =>
    if x.isInfinite then if y.isInfinite && y.sign != x.sign then some nan else some x
    else if y.isInfinite then some y
    else do
      let a ← unpack? mode x
      let b ← unpack? mode y
      if a.sig = 0 then
        if b.sig = 0 then some (zero (a.sign && b.sign)) else roundPack? mode b false
      else if b.sig = 0 then roundPack? mode a false
      else do
        let (sum, sticky) ← sum? a b
        roundPack? mode sum sticky

def sub? (mode : SubnormalMode) (x y : BinaryFloat fmt) : Option (BinaryFloat fmt) :=
  match propagatedNaN? [x, y] with
  | some nan => some nan
  | none => add? mode x (-y)

def mul? (mode : SubnormalMode) (x y : BinaryFloat fmt) : Option (BinaryFloat fmt) :=
  match propagatedNaN? [x, y] with
  | some nan => some nan
  | none =>
    let sign := x.sign != y.sign
    if x.isInfinite || y.isInfinite then
      if x.readsAsZero mode || y.readsAsZero mode then some nan else some (infinity sign)
    else do
      let a ← unpack? mode x
      let b ← unpack? mode y
      if a.sig = 0 ∨ b.sig = 0 then some (zero sign)
      else do
        let product ← product? a b
        roundPack? mode product false

def addProduct? (mode : SubnormalMode) (x y z : BinaryFloat fmt) : Option (BinaryFloat fmt) :=
  match propagatedNaN? [x, y, z] with
  | some nan => some nan
  | none =>
    let productSign := y.sign != z.sign
    if y.isInfinite || z.isInfinite then
      if y.readsAsZero mode || z.readsAsZero mode then some nan
      else if x.isInfinite && x.sign != productSign then some nan
      else some (infinity productSign)
    else if x.isInfinite then some x
    else do
      let a ← unpack? mode x
      let b ← unpack? mode y
      let c ← unpack? mode z
      if b.sig = 0 ∨ c.sig = 0 then
        if a.sig = 0 then some (zero (a.sign && productSign)) else roundPack? mode a false
      else do
        let product ← product? b c
        if a.sig = 0 then roundPack? mode product false
        else do
          let (sum, sticky) ← sum? a product
          roundPack? mode sum sticky

def div? (mode : SubnormalMode) (x y : BinaryFloat fmt) : Option (BinaryFloat fmt) :=
  match propagatedNaN? [x, y] with
  | some nan => some nan
  | none =>
    let sign := x.sign != y.sign
    if x.isInfinite then if y.isInfinite then some nan else some (infinity sign)
    else if y.isInfinite then some (zero sign)
    else do
      let a ← unpack? mode x
      let b ← unpack? mode y
      if a.sig = 0 then if b.sig = 0 then some nan else some (zero sign)
      else if b.sig = 0 then some (infinity sign)
      else do
        let (quotient, sticky) ← quotient? a b
        roundPack? mode quotient sticky

/-- The square root of a float, which is unpacked before an infinity is told apart. -/
def sqrt? (mode : SubnormalMode) (x : BinaryFloat fmt) : Option (BinaryFloat fmt) :=
  if x.isNaN then some x.quieted
  else do
    let a ← unpack? mode x
    if a.sig = 0 then some (zero a.sign)
    else if a.sign then some nan
    else if x.isInfinite then some x
    else do
      let (root, sticky) ← squareRoot? a
      roundPack? mode root sticky

def remainderSpecial? (mode : SubnormalMode) (x y : BinaryFloat fmt) :
    Option (Option (BinaryFloat fmt)) :=
  match propagatedNaN? [x, y] with
  | some nan => some (some nan)
  | none =>
    if x.isInfinite || y.readsAsZero mode then some (some nan)
    else if x.readsAsZero mode || y.isInfinite then do
      let a ← unpack? mode x
      let packed ← roundPack? mode a false
      some (some packed)
    else some none

def truncatingRemainder? (mode : SubnormalMode) (x y : BinaryFloat fmt) :
    Option (BinaryFloat fmt) := do
  match ← remainderSpecial? mode x y with
  | some special => some special
  | none => do
    let a ← unpack? mode x
    let b ← unpack? mode y
    let (sig, exp) ← remainderAt? a.sig a.exp b.sig b.exp
    roundPack? mode ⟨a.sign, exp, sig⟩ false

def nearest? (mode : SubnormalMode) (x y : BinaryFloat fmt) : Option (BinaryFloat fmt) := do
  match ← remainderSpecial? mode x y with
  | some special => some special
  | none => do
    let a ← unpack? mode x
    let b ← unpack? mode y
    let above ← exponent? (b.exp - a.exp)
    if 54 ≤ above then roundPack? mode a false
    else do
      let rest ← nearestRemainder? a b
      roundPack? mode rest false

def splitAtPoint? (sig shift : Nat) : Option (Nat × Nat × Nat) :=
  if 64 ≤ shift then some (0, 1, 2)
  else do
    let (integral, rest) ← cutAt? 128 sig shift
    let half ← halfUnit? 128 shift
    some (integral, rest, half)

def rounded? (mode : SubnormalMode) (rule : RoundingRule) (x : BinaryFloat fmt) :
    Option (BinaryFloat fmt) :=
  if x.isNaN then some x.quieted
  else if !x.isFinite then some x
  else do
    let a ← unpack? mode x
    if a.sig = 0 then some (zero a.sign)
    else if 0 ≤ a.exp then some x
    else do
      let (integral, rest, half) ← splitAtPoint? a.sig a.exp.natAbs
      let integral ← MachineWord.sum? 128 integral
        (rule.increments a.sign integral rest half).toNat
      roundPack? mode ⟨a.sign, 0, integral⟩ false

def ulp? (mode : SubnormalMode) (x : BinaryFloat fmt) : Option (BinaryFloat fmt) :=
  if !x.isFinite then some nan
  else do
    let a ← unpack? mode x
    if a.sig = 0 then if mode = .flushToZero then some (zero false) else some leastNonzero
    else if mode = .flushToZero ∧ a.exp < fmt.minLead then some (zero false)
    else do
      let word ← powerOfTwoWord? fmt a.exp
      some (.ofBits word)

def significand? (x : BinaryFloat fmt) : Option (BinaryFloat fmt) :=
  if x.isNaN then some x.abs.quieted
  else if x.isInfinite then some (infinity false)
  else if x.isZero then some (zero false)
  else do
    let a ← unpack? .gradual x
    let lead ← leadExp? a
    let place ← exponent? (lead - a.exp)
    let shift ← amount? (fmt.fractionBits - place)
    let sig ← unsigned? 64 a.sig
    let sig ← shiftLeft? 64 sig shift
    let one ← powerOfTwoWord? fmt 0
    some (.ofBits (one ||| (sig &&& fmt.fractionMask)))

/-- The payload of a NaN at the top of the fraction of another format. -/
def convertedPayload? (target : FloatFormat) (x : BinaryFloat fmt) : Option Nat :=
  if fmt.fractionBits ≤ target.fractionBits then do
    let wider ← difference? target.fractionBits fmt.fractionBits
    shiftLeft? 64 (fractionField x) wider
  else do
    let narrower ← difference? fmt.fractionBits target.fractionBits
    shiftRight? 64 (fractionField x) narrower

def convert? (target : FloatFormat) (mode : SubnormalMode) (x : BinaryFloat fmt) :
    Option (BinaryFloat target) :=
  if x.isNaN then do
    let payload ← convertedPayload? target x
    let signBit := if x.sign then target.signWeight else 0
    some (BinaryFloat.ofBits (signBit ||| target.infinityWord ||| payload)).quieted
  else if x.isInfinite then some (infinity x.sign)
  else do
    let a ← unpack? mode x
    roundPack? mode a false

def ofInt? (mode : SubnormalMode) (v : Int) : Option (BinaryFloat fmt) := do
  let v ← signed? 128 v
  roundPack? mode ⟨decide (v < 0), 0, v.natAbs⟩ false

def holdsExactly? (fmt : FloatFormat) (v : Int) : Option Bool :=
  let n := v.natAbs
  if n = 0 then some true
  else do
    let lead ← difference? 127 (leadingZeros n)
    let bits ← exponent? (lead + 1)
    let between ← exponent? (bits - BinaryFloat.trailingZeroCount n (n.log2 + 1))
    some (between ≤ fmt.precision && (lead : Int) ≤ fmt.maxLead)

def ofIntExactly? (v : Int) : Option (Option (BinaryFloat fmt)) := do
  let exact ← holdsExactly? fmt v
  if exact then do
    let x ← ofInt? .gradual v
    some (some x)
  else some none

/-- The magnitude of a number truncated toward zero, at most `2^64`, and whether it was an integer. -/
def magnitude? (a : Unpacked) : Option (Nat × Bool) :=
  if a.sig = 0 then some (0, true)
  else if 0 ≤ a.exp then do
    let lead ← leadExp? a
    if 64 ≤ lead then do
      let beyond ← shiftLeft? 128 1 64
      some (beyond, true)
    else do
      let magnitude ← shiftLeft? 128 a.sig a.exp.toNat
      some (magnitude, true)
  else if 128 ≤ a.exp.natAbs then some (0, false)
  else do
    let (magnitude, rest) ← cutAt? 128 a.sig a.exp.natAbs
    some (magnitude, rest == 0)

/-- A number truncated toward zero, and whether it was an integer; every conversion to an integer type
checks or clamps its result. -/
def truncated? (x : BinaryFloat fmt) : Option (Option (Int × Bool)) :=
  if !x.isFinite then some none
  else do
    let a ← unpack? .gradual x
    let (magnitude, exact) ← magnitude? a
    let v ← signed? 128 magnitude
    if a.sign then do
      let v ← signed? 128 (-v)
      some (some (v, exact))
    else some (some (v, exact))

end MachineNumbers.Checked
