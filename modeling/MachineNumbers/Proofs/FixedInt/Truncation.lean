import Mathlib
import MachineNumbers.FixedInt.Conversion
import MachineNumbers.Proofs.FixedInt.RingOp

/-!
# Truncation commutes with wrapping arithmetic

The low bits of a sum, a difference, a product or an opposite depend on nothing but low bits
(`RingOp.apply_modEq`).  So it does not matter when high bits are dropped.  A `WrappingExpr` mixes
arithmetic and conversions in any order; as long as no step has fewer than `w` bits, its value is right to
the last `w` (`WrappingExpr.eval_modEq`), and all of it may as well be done in the type of the result
(`WrappingExpr.truncating_eval`, `truncating_homomorphism`).
-/

namespace MachineNumbers

namespace FixedInt

variable {ty : IntType}

/-- Wrapping keeps all of the low bits that the type has. -/
theorem value_wrap_modEq_of_le {w : ℕ} (h : w ≤ ty.width) (v : ℤ) :
    (wrap v : FixedInt ty).value ≡ v [ZMOD 2 ^ w] :=
  (value_wrap_modEq v).of_dvd (pow_dvd_pow 2 h)

end FixedInt

/-! ## Arithmetic with conversions on the way -/

/-- Wrapping arithmetic on values of any types, which are converted as it goes on. -/
inductive WrappingExpr : IntType → Type where
  | value {ty : IntType} (a : FixedInt ty) : WrappingExpr ty
  | binary {ty : IntType} (op : RingOp) (x y : WrappingExpr ty) : WrappingExpr ty
  | neg {ty : IntType} (x : WrappingExpr ty) : WrappingExpr ty
  | truncated {source : IntType} (target : IntType) (x : WrappingExpr source) : WrappingExpr target

namespace WrappingExpr

variable {ty source target : IntType} {w : ℕ}

/-- The result, each step in its own type. -/
def eval {ty : IntType} : WrappingExpr ty → Except Overflow (FixedInt ty)
  | value a => .ok a
  | binary op x y => do FixedInt.wrapping op.arithOp (← x.eval) (← y.eval)
  | neg x => do return (← x.eval).wrappingNeg
  | truncated target x => do return (← x.eval).truncating target

/-- The result without bounds. -/
def exact {ty : IntType} : WrappingExpr ty → ℤ
  | value a => a.value
  | binary op x y => op.apply x.exact y.exact
  | neg x => -x.exact
  | truncated _ x => x.exact

/-- No step is in a type of fewer than `w` bits; values may be. -/
def KeepsBits (w : ℕ) {ty : IntType} : WrappingExpr ty → Prop
  | value _ => True
  | binary _ x y => w ≤ ty.width ∧ x.KeepsBits w ∧ y.KeepsBits w
  | neg x => w ≤ ty.width ∧ x.KeepsBits w
  | truncated target x => w ≤ target.width ∧ x.KeepsBits w

/-- The same arithmetic in one type, into which the values are truncated first. -/
def inType (target : IntType) {ty : IntType} : WrappingExpr ty → WrappingExpr target
  | value a => truncated target (value a)
  | binary op x y => binary op (x.inType target) (y.inType target)
  | neg x => neg (x.inType target)
  | truncated _ x => x.inType target

theorem exact_inType (target : IntType) (x : WrappingExpr ty) : (x.inType target).exact = x.exact := by
  induction x with
  | value a => rfl
  | binary op x y ihx ihy => rw [inType, exact, exact, ihx, ihy]
  | neg x ih => rw [inType, exact, exact, ih]
  | truncated via x ih => rw [inType, exact, ih]

theorem keepsBits_inType (target : IntType) (x : WrappingExpr ty) :
    (x.inType target).KeepsBits target.width := by
  induction x with
  | value a => exact ⟨le_rfl, trivial⟩
  | binary op x y ihx ihy => exact ⟨le_rfl, ihx, ihy⟩
  | neg x ih => exact ⟨le_rfl, ih⟩
  | truncated via x ih => exact ih

/-- There is a result, and its bits are right as far as every step has them. -/
theorem eval_modEq (x : WrappingExpr ty) (h : x.KeepsBits w) :
    ∃ r, x.eval = .ok r ∧ r.value ≡ x.exact [ZMOD 2 ^ w] := by
  induction x with
  | value a => exact ⟨a, rfl, rfl⟩
  | binary op x y ihx ihy =>
    obtain ⟨hwidth, hx, hy⟩ := h
    obtain ⟨a, ha, hamod⟩ := ihx hx
    obtain ⟨b, hb, hbmod⟩ := ihy hy
    refine ⟨FixedInt.wrap (op.apply a.value b.value), ?_, ?_⟩
    · rw [eval, ha, hb, ← FixedInt.wrapping_eq]
      rfl
    · have hwrap := FixedInt.value_wrap_modEq_of_le hwidth (op.apply a.value b.value)
      exact hwrap.trans (op.apply_modEq hamod hbmod)
  | neg x ih =>
    obtain ⟨hwidth, hx⟩ := h
    obtain ⟨a, ha, hamod⟩ := ih hx
    refine ⟨a.wrappingNeg, ?_, ?_⟩
    · rw [eval, ha]
      rfl
    · rw [FixedInt.wrappingNeg_eq]
      exact (FixedInt.value_wrap_modEq_of_le hwidth _).trans hamod.neg
  | truncated target x ih =>
    obtain ⟨hwidth, hx⟩ := h
    obtain ⟨a, ha, hamod⟩ := ih hx
    refine ⟨a.truncating target, ?_, ?_⟩
    · rw [eval, ha]
      rfl
    · exact (FixedInt.value_wrap_modEq_of_le hwidth _).trans hamod

/-- Truncating the result is the same as doing everything on truncated values, and gives the exact result
as far as the type has bits. -/
theorem truncating_eval (x : WrappingExpr source) (h : x.KeepsBits target.width) :
    ∃ r, x.eval = .ok r ∧ (x.inType target).eval = .ok (r.truncating target) ∧
      r.truncating target = FixedInt.wrap x.exact := by
  obtain ⟨r, hr, hmod⟩ := x.eval_modEq h
  obtain ⟨s, hs, hmod'⟩ := (x.inType target).eval_modEq (x.keepsBits_inType target)
  have htruncated : r.truncating target = FixedInt.wrap x.exact := FixedInt.wrap_congr hmod
  refine ⟨r, hr, ?_, htruncated⟩
  rw [exact_inType] at hmod'
  rw [hs, htruncated, FixedInt.eq_wrap_of_modEq hmod']

end WrappingExpr

namespace FixedInt

variable {source target : IntType}

theorem truncating_wrap (h : target.width ≤ source.width) (v : ℤ) :
    (wrap v : FixedInt source).truncating target = wrap v :=
  wrap_congr (value_wrap_modEq_of_le h v)

/-- Truncation to a type that is not wider keeps zero, one and the ring operations, which give the exact
result wrapped, before as after.  Through any type that is at least as wide as the target it is the same as
directly, whatever the source.  So conversions may come before arithmetic or after it, in chains and mixed
with it. -/
theorem truncating_homomorphism :
    (target.width ≤ source.width →
      (zero : FixedInt source).truncating target = zero ∧
      (one : FixedInt source).truncating target = one ∧
      (∀ a : FixedInt source, a.wrappingNeg = wrap (-a.value) ∧
        a.wrappingNeg.truncating target = wrap (-a.value) ∧
        a.wrappingNeg.truncating target = (a.truncating target).wrappingNeg) ∧
      ∀ (op : RingOp) (a b : FixedInt source), ∃ r, wrapping op.arithOp a b = .ok r ∧
        r = wrap (op.apply a.value b.value) ∧
        r.truncating target = wrap (op.apply a.value b.value) ∧
        wrapping op.arithOp (a.truncating target) (b.truncating target) = .ok (r.truncating target)) ∧
    (∀ via : IntType, target.width ≤ via.width → ∀ a : FixedInt source,
      (a.truncating via).truncating target = a.truncating target) ∧
    ∀ x : WrappingExpr source, x.KeepsBits target.width →
      ∃ r, x.eval = .ok r ∧ (x.inType target).eval = .ok (r.truncating target) ∧
        r.truncating target = wrap x.exact := by
  refine ⟨?_, ?_, fun x hx => x.truncating_eval hx⟩
  · intro hwidth
    refine ⟨?_, truncating_wrap hwidth 1, ?_, ?_⟩
    · rw [zero_eq_wrap, truncating_wrap hwidth, zero_eq_wrap]
    · intro a
      have htruncated := truncating_wrap hwidth (-a.value)
      rw [wrappingNeg_eq, wrappingNeg_eq, htruncated]
      exact ⟨rfl, rfl, wrap_congr (value_wrap_modEq a.value).symm.neg⟩
    · intro op a b
      have htruncated := truncating_wrap hwidth (op.apply a.value b.value)
      refine ⟨_, wrapping_eq op a b, rfl, htruncated, ?_⟩
      rw [wrapping_eq, htruncated]
      exact congrArg Except.ok
        (wrap_congr (op.apply_modEq (value_wrap_modEq a.value) (value_wrap_modEq b.value)))
  · intro via hwidth a
    exact truncating_wrap hwidth a.value

/-- The square of the greatest integer of 64 bits, truncated to 8 bits directly and in a chain. -/
theorem truncating_homomorphism_square :
    let byte : IntType := { width := 8, signed := true }
    let short : IntType := { width := 16, signed := false }
    let greatest : FixedInt { width := 64, signed := false } := maximum
    let chain : WrappingExpr short :=
      .truncated short (.truncated { width := 32, signed := true }
        (.binary .mul (.value greatest) (.value greatest)))
    (8 ≤ 64 ∧ ∃ r, wrapping .mul greatest greatest = .ok r ∧ r.value = 1 ∧
      wrapping .mul (greatest.truncating byte) (greatest.truncating byte) =
        .ok (r.truncating byte)) ∧
    (8 ≤ 16 ∧ (greatest.truncating short).truncating byte = greatest.truncating byte) ∧
    chain.KeepsBits 8 ∧ ∃ r, chain.eval = .ok r ∧ (chain.inType byte).eval = .ok (r.truncating byte) := by
  intro byte short greatest chain
  have hkeeps : chain.KeepsBits 8 := ⟨by decide, by decide, by decide, trivial, trivial⟩
  obtain ⟨hring, hvia, -⟩ := @truncating_homomorphism { width := 64, signed := false } byte
  obtain ⟨-, -, -, hops⟩ := hring (by decide)
  obtain ⟨-, -, hchain⟩ := @truncating_homomorphism short byte
  obtain ⟨square, hsquare, hwrap, -, htruncated⟩ := hops .mul greatest greatest
  have hone : square.value = 1 := by
    rw [hwrap]
    decide +kernel
  obtain ⟨r, hr, hinType, -⟩ := hchain chain hkeeps
  exact ⟨⟨by decide, square, hsquare, hone, htruncated⟩, ⟨by decide, hvia short (by decide) greatest⟩,
    hkeeps, r, hr, hinType⟩

end FixedInt

end MachineNumbers
