import MachineNumbers.BinaryFloat.Arithmetic.Product
import MachineNumbers.BinaryFloat.Conversion
import MachineNumbers.BinaryFloat.Order

/-!
# Strides

A `Stride` runs through `start + i × step` for `i = 0, 1, 2, …` up to an end, each element rounded once in
the native mode.
-/

namespace MachineNumbers

/-- Why there is no stride. -/
inductive StrideError where
  | zeroStep
  deriving DecidableEq, Repr

def StrideError.message : StrideError → String
  | zeroStep => "stride step must not be zero"

/-- Equally spaced numbers from `start` on. -/
structure Stride (fmt : FloatFormat) where
  start : BinaryFloat fmt
  step : BinaryFloat fmt
  stop : BinaryFloat fmt
  /-- The end itself is an element. -/
  inclusive : Bool
  /-- The index of the next element; none once the end has been passed. -/
  index : Option Nat
  deriving DecidableEq

namespace Stride

variable {fmt : FloatFormat}

/-- The stride before its first element. -/
def make (start stop step : BinaryFloat fmt) (inclusive : Bool) : Except StrideError (Stride fmt) :=
  if step.isZero then .error .zeroStep else .ok ⟨start, step, stop, inclusive, some 0⟩

def element (s : Stride fmt) (i : Nat) : BinaryFloat fmt :=
  s.start.addProduct .native (BinaryFloat.ofInt i) s.step

/-- Whether a number lies past the end in the direction of the step; what is unordered does. -/
def isPast (s : Stride fmt) (x : BinaryFloat fmt) : Bool :=
  match x.compare? s.stop with
  | none => true
  | some .eq => !s.inclusive
  | some ordering => ordering == if s.step.sign then .lt else .gt

/-- The index after `i`; indices are 64-bit words. -/
def nextIndex (i : Nat) : Option Nat := if i + 1 < Nat.pow 2 64 then some (i + 1) else none

/-- The next element, if there is one, and the stride after it. -/
def next? (s : Stride fmt) : Option (BinaryFloat fmt) × Stride fmt :=
  match s.index with
  | none => (none, s)
  | some i =>
    let x := s.element i
    if s.isPast x then (none, { s with index := none })
    else (some x, { s with index := nextIndex i })

/-- The elements up to a number of them, whether the end was met on the way, and what is left. -/
def take : Nat → Stride fmt → List (BinaryFloat fmt) × Bool × Stride fmt
  | 0, s => ([], false, s)
  | n + 1, s =>
    match s.next? with
    | (none, s) => ([], true, s)
    | (some x, s) => let (xs, ended, s) := take n s; (x :: xs, ended, s)

end Stride

end MachineNumbers
