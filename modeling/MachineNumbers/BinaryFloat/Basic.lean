import MachineNumbers.FloatFormat

/-!
# Binary floating-point numbers

A `BinaryFloat fmt` is a sign and a word, the encoding without its sign bit.  Words order the
magnitudes: the next word is the next magnitude, then comes infinity, then come the NaNs.
-/

namespace MachineNumbers

/-- What arithmetic does with subnormal numbers: keep them, or read and write zeros in their place. -/
inductive SubnormalMode where
  | gradual
  | flushToZero
  deriving DecidableEq, Repr

/-- The mode of the operators, and of every operation called without one: that of the default build, in which
subnormal numbers are kept. -/
def SubnormalMode.native : SubnormalMode := .gradual

/-- A sign and a word of a format, NaNs with their payloads included. -/
structure BinaryFloat (fmt : FloatFormat) where
  sign : Bool
  word : Nat
  word_lt : word < fmt.signWeight
  deriving DecidableEq

namespace BinaryFloat

variable {fmt : FloatFormat}

/-- The float of a sign and the low bits of a word. -/
def ofWord (sign : Bool) (word : Nat) : BinaryFloat fmt :=
  ⟨sign, word % fmt.signWeight, Nat.mod_lt _ fmt.signWeight_pos⟩

/-- The float encoded by the low bits of `bits`. -/
def ofBits (bits : Nat) : BinaryFloat fmt :=
  ofWord (bits / fmt.signWeight % 2 == 1) bits

def toBits (x : BinaryFloat fmt) : Nat :=
  (if x.sign then fmt.signWeight else 0) + x.word

def exponentField (x : BinaryFloat fmt) : Nat := x.word / Nat.pow 2 fmt.fractionBits

/-- The significand without its hidden bit. -/
def fractionField (x : BinaryFloat fmt) : Nat := x.word % Nat.pow 2 fmt.fractionBits

/-! ## Kinds -/

def isNaN (x : BinaryFloat fmt) : Bool := fmt.infinityWord < x.word

/-- A NaN without the quiet bit. -/
def isSignalingNaN (x : BinaryFloat fmt) : Bool :=
  x.isNaN && x.fractionField &&& fmt.quietBit == 0

def isInfinite (x : BinaryFloat fmt) : Bool := x.word == fmt.infinityWord

def isFinite (x : BinaryFloat fmt) : Bool := x.word < fmt.infinityWord

/-- A number with a hidden bit. -/
def isNormal (x : BinaryFloat fmt) : Bool :=
  x.exponentField != 0 && x.exponentField != fmt.exponentMask

/-- A nonzero number without a hidden bit. -/
def isSubnormal (x : BinaryFloat fmt) : Bool :=
  x.exponentField == 0 && x.fractionField != 0

def isZero (x : BinaryFloat fmt) : Bool := x.word == 0

/-- The sign bit is set, be it of a number, a zero or a NaN. -/
def isSignMinus (x : BinaryFloat fmt) : Bool := x.sign

/-- Arithmetic takes `x` for a zero. -/
def readsAsZero (mode : SubnormalMode) (x : BinaryFloat fmt) : Bool :=
  x.isZero || (mode == .flushToZero && x.isSubnormal)

/-- Arithmetic in this mode can produce `x`. -/
def isCanonical (mode : SubnormalMode) (x : BinaryFloat fmt) : Bool :=
  mode == .gradual || !x.isSubnormal

/-! ## Sign -/

/-- The opposite sign; exact, and of NaNs too. -/
def negated (x : BinaryFloat fmt) : BinaryFloat fmt := { x with sign := !x.sign }

instance : Neg (BinaryFloat fmt) := ⟨negated⟩

def abs (x : BinaryFloat fmt) : BinaryFloat fmt := { x with sign := false }

/-- The magnitude of `x` under the sign of `y`. -/
def copySign (x y : BinaryFloat fmt) : BinaryFloat fmt := { x with sign := y.sign }

/-! ## Constants -/

def zero (sign : Bool) : BinaryFloat fmt := ⟨sign, 0, fmt.signWeight_pos⟩

instance : Inhabited (BinaryFloat fmt) := ⟨zero false⟩

def infinity (sign : Bool) : BinaryFloat fmt := ofWord sign fmt.infinityWord

/-- The power of two `2^e`, in the range of the format. -/
def powerOfTwo (e : Int) : BinaryFloat fmt := ofWord false (fmt.powerOfTwoWord e)

def one : BinaryFloat fmt := powerOfTwo 0

/-- The quiet NaN that invalid operations give: positive, without payload. -/
def nan : BinaryFloat fmt := ofWord false (fmt.infinityWord ||| fmt.quietBit)

/-- A signaling NaN; with a single fraction bit there is none, and this is `nan`. -/
def signalingNaN : BinaryFloat fmt :=
  if 2 ≤ fmt.fractionBits then ofWord false (fmt.infinityWord ||| fmt.quietBit / 2) else nan

def greatestFinite : BinaryFloat fmt := ofWord false (fmt.infinityWord - 1)

def leastNormal : BinaryFloat fmt := ofWord false fmt.hiddenBit

/-- The least positive number. -/
def leastNonzero : BinaryFloat fmt := ofWord false 1

/-- The distance from one to the next greater number. -/
def ulpOfOne : BinaryFloat fmt := powerOfTwo (-fmt.fractionBits)

/-- The first 128 bits of π, the leading one of weight `2^1`. -/
def piDigits : Nat := 0xc90fdaa22168c234c4c6628b80dc1cd1

/-- π rounded toward zero. -/
def pi : BinaryFloat fmt :=
  ofWord false ((fmt.bias + 1) * Nat.pow 2 fmt.fractionBits
    + piDigits / Nat.pow 2 (128 - fmt.precision) % Nat.pow 2 fmt.fractionBits)

/-! ## NaNs -/

/-- With the quiet bit set: of a NaN, the quiet one of the same sign and payload. -/
def quieted (x : BinaryFloat fmt) : BinaryFloat fmt := ofWord x.sign (x.word ||| fmt.quietBit)

/-- The bits of a NaN below the two that tell quiet from signaling. -/
def payload (x : BinaryFloat fmt) : Nat := x.fractionField &&& fmt.maxPayload

/-- The first NaN of a list of operands, made quiet. -/
def propagatedNaN? (operands : List (BinaryFloat fmt)) : Option (BinaryFloat fmt) :=
  (operands.find? isNaN).map quieted

/-! ## Lemmas -/

theorem toBits_lt (x : BinaryFloat fmt) : x.toBits < Nat.pow 2 fmt.width := by
  have h := x.word_lt
  rw [← fmt.two_mul_signWeight, toBits]
  split <;> omega

theorem ofBits_toBits (x : BinaryFloat fmt) : ofBits x.toBits = x := by
  obtain ⟨sign, word, h⟩ := x
  have hp := fmt.signWeight_pos
  cases sign
  · simp [ofBits, toBits, ofWord, Nat.mod_eq_of_lt h, Nat.div_eq_of_lt h]
  · simp [ofBits, toBits, ofWord, Nat.mod_eq_of_lt h, Nat.add_div_left _ hp, Nat.div_eq_of_lt h]

/-- With `ofBits_toBits`: floats are the bit patterns of their width, each once. -/
theorem toBits_ofBits (bits : Nat) :
    (ofBits bits : BinaryFloat fmt).toBits = bits % Nat.pow 2 fmt.width := by
  rw [← fmt.two_mul_signWeight, Nat.mul_comm, Nat.mod_mul]
  unfold ofBits toBits ofWord
  rcases Nat.mod_two_eq_zero_or_one (bits / fmt.signWeight) with h | h
  · simp [h]
  · simp [h, Nat.add_comm]

theorem negated_negated (x : BinaryFloat fmt) : x.negated.negated = x := by
  obtain ⟨sign, word, h⟩ := x
  simp [negated]

end BinaryFloat

end MachineNumbers
