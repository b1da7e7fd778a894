/-!
# Natural numbers in limbs

A natural number of any size in 32-bit limbs, lowest first, without zero limbs at the top; zero has none.
-/

namespace MachineNumbers

/-- Limbs of a natural number, lowest first. -/
structure Limbs where
  words : List UInt32
  deriving DecidableEq, Repr

namespace Limbs

/-- The weight of a limb in units of the one below. -/
def base : Nat := Nat.pow 2 32

/-- The number that limbs stand for. -/
def wordsToNat : List UInt32 → Nat
  | [] => 0
  | w :: ws => w.toNat + base * wordsToNat ws

def toNat (x : Limbs) : Nat := wordsToNat x.words

/-- No zero limb at the top. -/
def Trimmed (x : Limbs) : Prop := x.words.getLast? ≠ some 0

instance (x : Limbs) : Decidable x.Trimmed := inferInstanceAs (Decidable (_ ≠ _))

/-- Limbs without the zeros at the top. -/
def trimWords : List UInt32 → List UInt32
  | [] => []
  | w :: ws =>
    match trimWords ws with
    | [] => if w = 0 then [] else [w]
    | high => w :: high

/-- The same number, trimmed. -/
def trim (x : Limbs) : Limbs := ⟨trimWords x.words⟩

/-- A number below `2^64`. -/
def ofNat64 (n : Nat) : Limbs := trim ⟨[UInt32.ofNat n, UInt32.ofNat (n / base)]⟩

def isZero (x : Limbs) : Bool := x.words.isEmpty

def bitLength (x : Limbs) : Nat :=
  match x.words.getLast? with
  | some top => 32 * (x.words.length - 1) + top.toNat.log2 + 1
  | none => 0

/-! ## Multiplication by a limb and by powers -/

/-- `ws × factor + carry`, for a factor of one limb. -/
def mulAddWords (factor : Nat) : Nat → List UInt32 → List UInt32
  | carry, [] => if carry = 0 then [] else [UInt32.ofNat carry]
  | carry, w :: ws =>
    let wide := w.toNat * factor + carry
    UInt32.ofNat wide :: mulAddWords factor (wide / base) ws

def mulAddSmall (x : Limbs) (factor addend : UInt32) : Limbs :=
  trim ⟨mulAddWords factor.toNat addend.toNat x.words⟩

def mul10 (x : Limbs) : Limbs := x.mulAddSmall 10 0

/-- `x × 10^n`, nine places at a time, the most that fit a limb. -/
def mulPow10 (x : Limbs) (n : Nat) : Limbs :=
  let high := Nat.repeat (·.mulAddSmall 1000000000 0) (n / 9) x
  if n % 9 = 0 then high else high.mulAddSmall (UInt32.ofNat (Nat.pow 10 (n % 9))) 0

/-- `x × 2^n`: a shift by bits and then by whole limbs. -/
def mulPow2 (x : Limbs) (n : Nat) : Limbs :=
  if x.isZero then x
  else ⟨List.replicate (n / 32) 0 ++ mulAddWords (Nat.pow 2 (n % 32)) 0 x.words⟩

/-! ## Addition, subtraction and comparison -/

def addWords : Nat → List UInt32 → List UInt32 → List UInt32
  | carry, [], ys => mulAddWords 1 carry ys
  | carry, x :: xs, [] => mulAddWords 1 carry (x :: xs)
  | carry, x :: xs, y :: ys =>
    let wide := x.toNat + y.toNat + carry
    UInt32.ofNat wide :: addWords (wide / base) xs ys

def add (x y : Limbs) : Limbs := ⟨addWords 0 x.words y.words⟩

/-- `xs - ys - borrow`, which must not be negative. -/
def subWords : Nat → List UInt32 → List UInt32 → List UInt32
  | _, [], _ => []
  | borrow, x :: xs, ys =>
    let taken := (ys.headD 0).toNat + borrow
    if taken ≤ x.toNat then UInt32.ofNat (x.toNat - taken) :: subWords 0 xs ys.tail
    else UInt32.ofNat (x.toNat + base - taken) :: subWords 1 xs ys.tail

/-- `x - y`, for `y ≤ x`. -/
def sub (x y : Limbs) : Limbs := trim ⟨subWords 0 x.words y.words⟩

/-- The order of the numbers of trimmed limbs: more limbs, or the first difference from the top. -/
def compareWords : List UInt32 → List UInt32 → Ordering
  | [], [] => .eq
  | [], _ :: _ => .lt
  | _ :: _, [] => .gt
  | x :: xs, y :: ys => (compareWords xs ys).then (compare x.toNat y.toNat)

def compare (x y : Limbs) : Ordering := compareWords x.words y.words

instance : Ord Limbs := ⟨compare⟩

def le (x y : Limbs) : Bool := x.compare y != .gt

def lt (x y : Limbs) : Bool := x.compare y == .lt

/-! ## Division with a small quotient -/

/-- Takes `d` off `r` while it fits and counts, up to a number of times. -/
def takeOff (d : Limbs) : Nat → Nat → Limbs → Nat × Limbs
  | 0, count, r => (count, r)
  | times + 1, count, r => if d.le r then takeOff d times (count + 1) (r.sub d) else (count, r)

/-- Quotient and remainder by a nonzero divisor.  The quotient has at most one bit more than the
lengths differ by, which bounds the subtractions. -/
def divModSmall (x d : Limbs) : Nat × Limbs :=
  takeOff d (Nat.pow 2 (x.bitLength + 1 - d.bitLength)) 0 x

/-- The bits from `shift` on as a number, and whether any bit below is set. -/
def splitAtBit (x : Limbs) (shift : Nat) : Nat × Bool :=
  let below := x.words.take (shift / 32)
  let above := x.words.drop (shift / 32)
  let offset := shift % 32
  (wordsToNat above >>> offset,
    below.any (· != 0) || (above.headD 0).toNat % Nat.pow 2 offset != 0)

end Limbs

end MachineNumbers
