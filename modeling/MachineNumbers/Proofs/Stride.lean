import Mathlib
import MachineNumbers.BinaryFloat.Stride
import MachineNumbers.Proofs.Conversion.FromInteger
import MachineNumbers.Proofs.NaN
import MachineNumbers.Proofs.Order

/-!
# Strides run along their step

An element of a stride is the start with a multiple of the step, and the multiple grows with the index, also
once it is rounded.  Rounding keeps the order, so elements move along the step, until an index overflows and
the rest are infinities, or NaNs if the start is the opposite one (`along_element_le`).  Hence what lies past
the end stays past it (`isPast_element_mono`).  A run of `take` yields the elements in turn up to the first
one that does (`take_run`), and so leaves out nothing that lies before the end (`take_runsAlong`).

The elements are those of the default build, whose native mode keeps subnormal numbers.
-/

namespace MachineNumbers

namespace BinaryFloat

variable {fmt : FloatFormat} {x y : BinaryFloat fmt} {i j : ℕ}

/-! ## Indices -/

theorem ofInt_natCast (i : ℕ) :
    (ofInt i : BinaryFloat fmt) = roundPack .gradual ⟨false, 0, i⟩ false := by
  unfold ofInt
  rw [decide_eq_false (by omega), Int.natAbs_natCast]
  rfl

theorem sign_ofInt (i : ℕ) : (ofInt i : BinaryFloat fmt).sign = false := by
  rw [ofInt_natCast, roundPack_sign]

theorem isNaN_ofInt (i : ℕ) : (ofInt i : BinaryFloat fmt).isNaN = false := by
  rw [ofInt_natCast]
  exact isNaN_roundPack ..

theorem index_isRounding (hi : i < 2 ^ 64) : IsRounding (i : ℝ) (ofInt i : BinaryFloat fmt) := by
  have h := @ofInt_isRounding fmt i (by rw [Int.natAbs_natCast]; omega)
  rwa [Int.cast_natCast] at h

theorem extended_ofInt_le (hij : i ≤ j) (hj : j < 2 ^ 64) :
    (ofInt i : BinaryFloat fmt).extended ≤ (ofInt j : BinaryFloat fmt).extended := by
  rcases hij.eq_or_lt with rfl | hlt
  · exact le_rfl
  · exact (index_isRounding (hij.trans_lt hj)).toIsNearestReal.extended_le
      (index_isRounding hj).toIsNearestReal (by exact_mod_cast hlt)

/-- From an index that overflows on, all of them do. -/
theorem isInfinite_ofInt_mono (hij : i ≤ j) (hj : j < 2 ^ 64)
    (h : (ofInt i : BinaryFloat fmt).isInfinite = true) :
    (ofInt j : BinaryFloat fmt).isInfinite = true := by
  have hle := @extended_ofInt_le fmt i j hij hj
  rw [extended_of_isInfinite h, sign_ofInt, if_neg Bool.false_ne_true, top_le_iff] at hle
  by_contra hji
  rw [extended, if_neg hji] at hle
  exact EReal.coe_ne_top _ hle

end BinaryFloat

namespace Stride

open BinaryFloat

variable {fmt : FloatFormat} {s : Stride fmt} {x : BinaryFloat fmt} {i j k n : ℕ}

/-! ## Elements -/

/-- The place of a number along the step: greater ones lie farther in its direction. -/
noncomputable def along (s : Stride fmt) (x : BinaryFloat fmt) : EReal :=
  if s.step.sign then -x.extended else x.extended

/-- The number lies before the end, or is the end itself where that is an element.  Nothing does so if the
end is a NaN, and no NaN does. -/
def Within (s : Stride fmt) (x : BinaryFloat fmt) : Prop :=
  x.isNaN = false ∧ s.stop.isNaN = false ∧
    if s.inclusive then s.along x ≤ s.along s.stop else s.along x < s.along s.stop

/-- Elements are NaNs if the start is one, and where it is the infinity opposite to an infinite multiple of
the step. -/
theorem isNaN_element_iff (hstep : s.step.isFinite = true) (hzero : s.step.isZero = false) (i : ℕ) :
    (s.element i).isNaN = true ↔ s.start.isNaN = true ∨
      (s.start.isInfinite = true ∧ (ofInt i : BinaryFloat fmt).isInfinite = true ∧
        s.start.sign ≠ s.step.sign) := by
  have hrule := (Operation.addProduct s.start (ofInt i) s.step).nanRule .gradual
  have hstepn := isNaN_of_isFinite hstep
  have hi : (ofInt i : BinaryFloat fmt).isNaN = false := isNaN_ofInt i
  cases hstart : s.start.isNaN with
  | true =>
    have helement : s.element i = s.start.quieted := by
      simp [element, addProduct, propagatedNaN?, hstart]
    rw [isNaN_iff_word] at hstart
    simp [helement, isNaN_quieted hstart.le]
  | false =>
    refine (hrule.isNaN_iff (by simp [Operation.operands, hstart, hstepn, hi])).trans ?_
    simp [Operation.Invalid, readsAsZero_gradual, hzero, isInfinite_of_isFinite hstep, sign_ofInt]

theorem not_isNaN_element (hstart : s.start.isFinite = true) (hstep : s.step.isFinite = true)
    (hzero : s.step.isZero = false) (i : ℕ) : (s.element i).isNaN = false := by
  rw [← Bool.not_eq_true, isNaN_element_iff hstep hzero]
  simp [isNaN_of_isFinite hstart, isInfinite_of_isFinite hstart]

/-- A multiple of the step that is a number is added and rounded. -/
theorem element_isRounding (hstart : s.start.isFinite = true) (hstep : s.step.isFinite = true)
    (hi : (ofInt i : BinaryFloat fmt).isFinite = true) :
    IsRounding (s.start.value + (ofInt i : BinaryFloat fmt).value * s.step.value : ℚ) (s.element i) :=
  addProduct_isRounding hstart hi hstep

theorem element_of_isInfinite (hstart : s.start.isInfinite = true) (hstep : s.step.isFinite = true)
    (hi : (ofInt i : BinaryFloat fmt).isFinite = true) : s.element i = s.start := by
  have hnan : propagatedNaN? [s.start, ofInt i, s.step] = none := by
    simp [propagatedNaN?, isNaN_of_isInfinite hstart, isNaN_ofInt, isNaN_of_isFinite hstep]
  simp [element, addProduct, hnan, hstart, isInfinite_of_isFinite hi, isInfinite_of_isFinite hstep]

/-- An infinite multiple of the step takes the element to infinity. -/
theorem element_of_overflow (hstep : s.step.isFinite = true) (hzero : s.step.isZero = false)
    (hi : (ofInt i : BinaryFloat fmt).isInfinite = true) (hnan : (s.element i).isNaN = false) :
    s.element i = infinity s.step.sign := by
  have hnumber := mt (isNaN_element_iff hstep hzero i).2 (by simp [hnan])
  rw [not_or, Bool.not_eq_true] at hnumber
  have hnone : propagatedNaN? [s.start, ofInt i, s.step] = none := by
    simp [propagatedNaN?, hnumber.1, isNaN_ofInt, isNaN_of_isFinite hstep]
  have heval : s.element i =
      if s.start.isInfinite && s.start.sign != s.step.sign then nan else infinity s.step.sign := by
    simp [element, addProduct, SubnormalMode.native, hnone, hi, isInfinite_of_isFinite hstep, hzero,
      isZero_of_isInfinite hi, readsAsZero_gradual, sign_ofInt]
  rw [heval, if_neg]
  rw [Bool.and_eq_true, bne_iff_ne]
  exact fun h => hnumber.2 ⟨h.1, hi, h.2⟩

/-! ## Along the step -/

theorem along_infinity (s : Stride fmt) : s.along (infinity s.step.sign) = ⊤ := by
  have hsign : (infinity s.step.sign : BinaryFloat fmt).sign = s.step.sign := rfl
  rw [along, extended_of_isInfinite (isInfinite_infinity _), hsign]
  split <;> simp

/-- NaNs do not end: after one there are no more numbers. -/
theorem isNaN_element_mono (hstep : s.step.isFinite = true) (hzero : s.step.isZero = false) (hij : i ≤ j)
    (hj : j < 2 ^ 64) (h : (s.element i).isNaN = true) : (s.element j).isNaN = true := by
  rw [isNaN_element_iff hstep hzero] at h ⊢
  exact h.imp_right fun ⟨hstart, hi, hsign⟩ => ⟨hstart, isInfinite_ofInt_mono hij hj hi, hsign⟩

/-- Of numbers, a greater multiple of the step is added: the sum lies farther along it, or is the same. -/
theorem along_element_le_of_isFinite (hstart : s.start.isFinite = true) (hstep : s.step.isFinite = true)
    (hzero : s.step.isZero = false) (hi : (ofInt i : BinaryFloat fmt).isFinite = true)
    (hj : (ofInt j : BinaryFloat fmt).isFinite = true)
    (hle : (ofInt i : BinaryFloat fmt).extended ≤ (ofInt j : BinaryFloat fmt).extended) :
    s.along (s.element i) ≤ s.along (s.element j) := by
  rw [extended_of_isFinite hi, extended_of_isFinite hj, EReal.coe_le_coe_iff, Rat.cast_le] at hle
  have hroundi := (element_isRounding hstart hstep hi).toIsNearestReal
  have hroundj := (element_isRounding hstart hstep hj).toIsNearestReal
  rcases hle.eq_or_lt with heq | hlt
  · -- equal multiples are the same float
    have hword : (ofInt i : BinaryFloat fmt) = ofInt j :=
      eq_of_value_eq (by rw [sign_ofInt, sign_ofInt]) heq
    rw [element, element, hword]
  unfold along
  cases hsign : s.step.sign with
  | false =>
    have hpos := value_pos hsign hzero
    simp only [Bool.false_eq_true, if_false]
    refine hroundi.extended_le hroundj ?_
    exact_mod_cast add_lt_add_right (mul_lt_mul_of_pos_right hlt hpos) s.start.value
  | true =>
    have hneg := value_lt_zero hsign hzero
    simp only [if_true, EReal.neg_le_neg_iff]
    refine hroundj.extended_le hroundi ?_
    exact_mod_cast add_lt_add_right (mul_lt_mul_of_neg_right hlt hneg) s.start.value

/-- Elements move along the step, or stay. -/
theorem along_element_le (hstep : s.step.isFinite = true) (hzero : s.step.isZero = false) (hij : i ≤ j)
    (hj : j < 2 ^ 64) (hnan : (s.element j).isNaN = false) :
    s.along (s.element i) ≤ s.along (s.element j) := by
  cases hji : (ofInt j : BinaryFloat fmt).isInfinite with
  | true =>
    rw [element_of_overflow hstep hzero hji hnan, along_infinity]
    exact le_top
  | false =>
  have hii : (ofInt i : BinaryFloat fmt).isInfinite = false := by
    by_contra hii
    exact Bool.false_ne_true (hji.symm.trans (isInfinite_ofInt_mono hij hj (by simpa using hii)))
  have hif := isFinite_of_not (isNaN_ofInt i) hii
  have hjf := isFinite_of_not (isNaN_ofInt j) hji
  cases hstart : s.start.isInfinite with
  | true => rw [element_of_isInfinite hstart hstep hif, element_of_isInfinite hstart hstep hjf]
  | false =>
    have hstartn : s.start.isNaN = false := by
      by_contra hstartn
      have := (isNaN_element_iff hstep hzero j).2 (.inl (by simpa using hstartn))
      exact Bool.false_ne_true (hnan.symm.trans this)
    exact along_element_le_of_isFinite (isFinite_of_not hstartn hstart) hstep hzero hif hjf
      (extended_ofInt_le hij hj)

theorem isPast_eq_false_iff (s : Stride fmt) (x : BinaryFloat fmt) :
    s.isPast x = false ↔ s.Within x := by
  unfold isPast Within along
  rw [compare?_eq]
  cases hx : x.isNaN with
  | true => simp
  | false =>
  cases hstop : s.stop.isNaN with
  | true => simp
  | false =>
    simp only [Bool.or_self, Bool.false_eq_true, if_false, true_and]
    rcases lt_trichotomy x.extended s.stop.extended with h | h | h
    · rw [compare_lt_iff_lt.2 h]
      cases s.step.sign <;> cases s.inclusive <;> simp [h, h.le, h.not_gt, h.not_ge]
    · rw [compare_eq_iff_eq.2 h, h]
      cases s.step.sign <;> cases s.inclusive <;> simp
    · rw [compare_gt_iff_gt.2 h]
      cases s.step.sign <;> cases s.inclusive <;> simp [h, h.le, h.not_gt, h.not_ge]

/-- What is past the end stays past it. -/
theorem isPast_element_mono (hstep : s.step.isFinite = true) (hzero : s.step.isZero = false) (hij : i ≤ j)
    (hj : j < 2 ^ 64) (h : s.isPast (s.element i) = true) : s.isPast (s.element j) = true := by
  by_contra hpast
  obtain ⟨hnan, hstop, hbound⟩ := (s.isPast_eq_false_iff _).1 (by simpa using hpast)
  have hle := along_element_le hstep hzero hij hj hnan
  have hwithin : s.Within (s.element i) := by
    refine ⟨?_, hstop, ?_⟩
    · by_contra hi
      have := isNaN_element_mono hstep hzero hij hj (by simpa using hi)
      exact Bool.false_ne_true (hnan.symm.trans this)
    · split at hbound
      · rw [if_pos ‹_›]
        exact hle.trans hbound
      · rw [if_neg ‹_›]
        exact hle.trans_lt hbound
  exact Bool.false_ne_true (((s.isPast_eq_false_iff _).2 hwithin).symm.trans h)

/-! ## Runs -/

/-- The stride before element `k`; there are as many elements as 64-bit words. -/
def atIndex (s : Stride fmt) (k : ℕ) : Stride fmt :=
  { s with index := if k < 2 ^ 64 then some k else none }

def passed (s : Stride fmt) : Stride fmt := { s with index := none }

theorem next?_passed (s : Stride fmt) : s.passed.next? = (none, s.passed) := rfl

/-- One step yields the element, unless that is past the end. -/
theorem next?_atIndex (s : Stride fmt) (k : ℕ) : (s.atIndex k).next? =
    if k < 2 ^ 64 ∧ s.isPast (s.element k) = false then (some (s.element k), s.atIndex (k + 1))
    else (none, s.passed) := by
  unfold next? atIndex
  by_cases hk : k < 2 ^ 64
  · rw [if_pos hk]
    cases hpast : s.isPast (s.element k) with
    | true =>
      rw [if_neg (by simp)]
      exact if_pos hpast
    | false =>
      rw [if_pos ⟨hk, rfl⟩]
      exact if_neg fun h => Bool.false_ne_true (hpast.symm.trans h)
  · rw [if_neg hk, if_neg fun h => hk h.1]
    rfl

/-- A run of at most `n` elements from element `k` on: it yields them in turn, none of them past the end, and
ends only where the next one is past it or there are no more. -/
structure Run (s : Stride fmt) (k n : ℕ) (run : List (BinaryFloat fmt) × Bool × Stride fmt) : Prop where
  elements : run.1 = (List.range' k run.1.length).map s.element
  index_le : k + run.1.length ≤ 2 ^ 64
  not_isPast : ∀ i, k ≤ i → i < k + run.1.length → s.isPast (s.element i) = false
  of_ended : run.2.1 = true → run.2.2 = s.passed ∧
    (k + run.1.length < 2 ^ 64 → s.isPast (s.element (k + run.1.length)) = true)
  of_not_ended : run.2.1 = false → run.1.length = n

variable {rest : Stride fmt} {xs : List (BinaryFloat fmt)} {ended : Bool}

theorem Run.zero (hk : k ≤ 2 ^ 64) : s.Run k 0 ([], false, rest) where
  elements := rfl
  index_le := hk
  not_isPast _ hle hlt := absurd hlt (not_lt.2 hle)
  of_ended h := absurd h Bool.false_ne_true
  of_not_ended _ := rfl

theorem Run.stop (hk : k ≤ 2 ^ 64) (hpast : k < 2 ^ 64 → s.isPast (s.element k) = true) :
    s.Run k n ([], true, s.passed) where
  elements := rfl
  index_le := hk
  not_isPast _ hle hlt := absurd hlt (not_lt.2 hle)
  of_ended _ := ⟨rfl, hpast⟩
  of_not_ended h := absurd h.symm Bool.false_ne_true

theorem Run.yield (hpast : s.isPast (s.element k) = false) (h : s.Run (k + 1) n (xs, ended, rest)) :
    s.Run k (n + 1) (s.element k :: xs, ended, rest) where
  elements := by
    rw [List.length_cons, List.range'_succ, List.map_cons]
    exact congrArg _ h.elements
  index_le := by
    rw [List.length_cons, Nat.add_comm xs.length, ← Nat.add_assoc]
    exact h.index_le
  not_isPast i hle hlt := by
    rw [List.length_cons, Nat.add_comm xs.length, ← Nat.add_assoc] at hlt
    rcases hle.eq_or_lt with rfl | hlt'
    · exact hpast
    · exact h.not_isPast i hlt' hlt
  of_ended hended := by
    rw [List.length_cons, Nat.add_comm xs.length, ← Nat.add_assoc]
    exact h.of_ended hended
  of_not_ended hended := congrArg (· + 1) (h.of_not_ended hended)

theorem take_run (s : Stride fmt) (n : ℕ) (hk : k ≤ 2 ^ 64) : s.Run k n (take n (s.atIndex k)) := by
  induction n generalizing k with
  | zero => exact .zero hk
  | succ n ih =>
    unfold take
    rw [next?_atIndex]
    split_ifs with h
    · exact .yield h.2 (ih h.1)
    · exact .stop hk fun hlt => Bool.eq_true_of_not_eq_false fun hpast => h ⟨hlt, hpast⟩

/-! ## From the start on -/

variable {start stop step : BinaryFloat fmt} {inclusive : Bool}

theorem make_eq_ok (h : make start stop step inclusive = .ok s) :
    step.isZero = false ∧ s = ⟨start, step, stop, inclusive, some 0⟩ := by
  unfold make at h
  split at h
  · cases h
  · next hzero => exact ⟨by simpa using hzero, (Except.ok.inj h).symm⟩

theorem run_of_make (h : make start stop step inclusive = .ok s) (n : ℕ) : s.Run 0 n (s.take n) := by
  obtain ⟨-, rfl⟩ := make_eq_ok h
  exact take_run _ n (Nat.zero_le _)

/-- A run that loses nothing: it yields the elements in turn, moves along the step or stays, keeps to this
side of the end, and once it has ended there is nothing more, nor would there be any other element on this
side of the end. -/
structure RunsAlong (s : Stride fmt) (run : List (BinaryFloat fmt) × Bool × Stride fmt) : Prop where
  elements : run.1 = (List.range run.1.length).map s.element
  along : run.1.Pairwise fun x y => s.along x ≤ s.along y
  within : ∀ x ∈ run.1, s.Within x
  fused : run.2.1 = true → run.2.2.next? = (none, run.2.2)
  complete : run.2.1 = true → ∀ i, run.1.length ≤ i → i < 2 ^ 64 → ¬s.Within (s.element i)

/-- Strides are monotone and lose nothing, whatever start and end they have and however far they run. -/
theorem take_runsAlong (hmake : make start stop step inclusive = .ok s) (hstep : step.isFinite = true)
    (n : ℕ) : s.RunsAlong (s.take n) := by
  have hrun := run_of_make hmake n
  obtain ⟨hzero, rfl⟩ := make_eq_ok hmake
  set s : Stride fmt := ⟨start, step, stop, inclusive, some 0⟩
  have helements := hrun.elements
  rw [← List.range_eq_range'] at helements
  have hpast : ∀ i < (s.take n).1.length, s.isPast (s.element i) = false :=
    fun i hi => hrun.not_isPast i (Nat.zero_le i) (by simpa using hi)
  have hwithin : ∀ i < (s.take n).1.length, s.Within (s.element i) :=
    fun i hi => (s.isPast_eq_false_iff _).1 (hrun.not_isPast i (Nat.zero_le i) (by simpa using hi))
  have hindex : (s.take n).1.length ≤ 2 ^ 64 := by simpa using hrun.index_le
  refine ⟨helements, ?_, ?_, fun hended => ?_, fun hended i hle hlt hi => ?_⟩
  · rw [helements, List.pairwise_map]
    refine List.pairwise_lt_range.imp_of_mem fun _ hj hij => ?_
    rw [List.mem_range] at hj
    exact along_element_le hstep hzero hij.le (hj.trans_le hindex) (hwithin _ hj).1
  · intro x hx
    rw [helements] at hx
    obtain ⟨i, hi, rfl⟩ := List.mem_map.1 hx
    exact hwithin i (List.mem_range.1 hi)
  · rw [(hrun.of_ended hended).1]
    exact s.next?_passed
  · have hpast := (hrun.of_ended hended).2 (by simpa using hle.trans_lt hlt)
    rw [Nat.zero_add] at hpast
    have := isPast_element_mono hstep hzero hle hlt hpast
    exact Bool.false_ne_true (((s.isPast_eq_false_iff _).2 hi).symm.trans this)

/-- From minus infinity on, all elements are that, until the index overflows, and NaNs from there on. -/
theorem take_runsAlong_cancelling :
    let fmt : FloatFormat := { exponentBits := 2, fractionBits := 5 }
    ∃ s : Stride fmt, make (infinity true) one one false = .ok s ∧
      (one : BinaryFloat fmt).isFinite = true ∧ s.RunsAlong (s.take 9) ∧
      s.take 9 = ([infinity true, infinity true, infinity true, infinity true], true, s.passed) := by
  intro fmt
  have hmake : make (infinity true) one one false =
      .ok (⟨infinity true, one, one, false, some 0⟩ : Stride fmt) := rfl
  have hstep : (one : BinaryFloat fmt).isFinite = true := by decide
  exact ⟨_, hmake, hstep, take_runsAlong hmake hstep 9, by decide⟩

end Stride

end MachineNumbers
