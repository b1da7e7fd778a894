import Mathlib
import MachineNumbers.Numeric
import MachineNumbers.Proofs.FixedInt.Conversion
import MachineNumbers.Proofs.FixedInt.RingOp

/-!
# Sums of integers

A sum of integers of a type goes wrong at its first partial sum that is out of range (`PassesBounds`).
`wrappingSum` says so and goes on with what is congruent to the exact sum, although it no longer is a
partial sum itself (`Accumulates`).  `sum` and `dot` stop there, and `dot` also stops at a product that
does not fit; both are a fold over terms that may fail (`Totals`).  Each invariant is kept by one more term
and so holds of a whole list (`folds_agree`).
-/

namespace MachineNumbers

namespace IntType

variable {ty : IntType}

theorem fits_zero : ty.Fits 0 := ⟨ty.minValue_nonpos, ty.maxValue_nonneg⟩

/-- Some partial sum is out of range. -/
def PassesBounds (ty : IntType) (vs : List ℤ) : Prop := ∃ us, us <+: vs ∧ ¬ty.Fits us.sum

theorem not_passesBounds_nil : ¬ty.PassesBounds [] := by
  rintro ⟨us, hprefix, hfits⟩
  rw [List.prefix_nil.1 hprefix] at hfits
  exact hfits fits_zero

theorem passesBounds_append_singleton (vs : List ℤ) (v : ℤ) :
    ty.PassesBounds (vs ++ [v]) ↔ ty.PassesBounds vs ∨ ¬ty.Fits (vs.sum + v) := by
  have hsum : (vs ++ [v]).sum = vs.sum + v := by simp
  constructor
  · rintro ⟨us, hprefix, hfits⟩
    rcases List.prefix_concat_iff.1 hprefix with rfl | hprefix
    · right
      rwa [hsum] at hfits
    · exact Or.inl ⟨us, hprefix, hfits⟩
  · rintro (⟨us, hprefix, hfits⟩ | hfits)
    · exact ⟨us, hprefix.trans (List.prefix_append vs [v]), hfits⟩
    · exact ⟨vs ++ [v], List.prefix_rfl, by rwa [hsum]⟩

theorem fits_sum {vs : List ℤ} (h : ¬ty.PassesBounds vs) : ty.Fits vs.sum := by
  by_contra hfits
  exact h ⟨vs, List.prefix_rfl, hfits⟩

end IntType

namespace FixedInt

variable {ty : IntType}

theorem overflowingAdd_eq (a b : FixedInt ty) :
    overflowingAdd a b = (wrap (a.value + b.value), decide (¬ty.Fits (a.value + b.value))) :=
  reduced_eq (wideExact a b).sum

/-! ## Sums that wrap -/

/-- What a wrapping sum is after some terms. -/
structure Accumulates (vs : List ℤ) (state : FixedInt ty × Bool) : Prop where
  congruent : state.1.value ≡ vs.sum [ZMOD 2 ^ ty.width]
  overflow : state.2 = true ↔ ty.PassesBounds vs

variable {vs : List ℤ} {state : FixedInt ty × Bool}

theorem Accumulates.nil : Accumulates [] ((zero, false) : FixedInt ty × Bool) := by
  constructor
  · rw [value_zero]
    rfl
  · simp [IntType.not_passesBounds_nil]

/-- Without overflow the sum is not only congruent. -/
theorem Accumulates.value_eq (h : Accumulates vs state) (hflag : state.2 = false) :
    state.1.value = vs.sum := by
  have hpasses : ¬ty.PassesBounds vs := by
    rw [← h.overflow, hflag]
    exact Bool.false_ne_true
  rw [eq_wrap_of_modEq h.congruent, value_wrap _ (IntType.fits_sum hpasses)]

theorem Accumulates.step (h : Accumulates vs state) (x : FixedInt ty) :
    Accumulates (vs ++ [x.value])
      ((overflowingAdd state.1 x).1, state.2 || (overflowingAdd state.1 x).2) := by
  rw [overflowingAdd_eq]
  constructor
  · rw [List.sum_append, List.sum_singleton]
    exact (value_wrap_modEq _).trans (h.congruent.add_right x.value)
  · rw [IntType.passesBounds_append_singleton, Bool.or_eq_true, h.overflow, decide_eq_true_iff]
    by_cases hpasses : ty.PassesBounds vs
    · simp [hpasses]
    · -- the partial sum so far is exact
      have hflag : state.2 = false := by
        rw [← Bool.not_eq_true, h.overflow]
        exact hpasses
      rw [h.value_eq hflag]

theorem wrappingSum_accumulates (xs : List (FixedInt ty)) :
    Accumulates (xs.map value) (wrappingSum xs) := by
  induction xs using List.reverseRecOn with
  | nil => exact .nil
  | append_singleton xs x ih =>
    have hstep : wrappingSum (xs ++ [x]) = ((overflowingAdd (wrappingSum xs).1 x).1,
        (wrappingSum xs).2 || (overflowingAdd (wrappingSum xs).1 x).2) := by
      unfold wrappingSum
      rw [List.foldl_append]
      rfl
    rw [hstep, List.map_append]
    exact ih.step x

/-! ## Sums that stop -/

/-- What a sum is that stops at the first term or partial sum that does not fit. -/
inductive Totals (vs : List ℤ) : Except Overflow (FixedInt ty) → Prop where
  | exact {total : FixedInt ty} (hvalue : total.value = vs.sum) (hterms : ∀ v ∈ vs, ty.Fits v)
      (hsums : ¬ty.PassesBounds vs) : Totals vs (.ok total)
  | overflow (h : (∃ v ∈ vs, ¬ty.Fits v) ∨ ty.PassesBounds vs) : Totals vs (.error .arithmetic)

/-- A term that is an integer of the type if its exact number `v` is one. -/
def IsTerm (v : ℤ) (term : Except Overflow (FixedInt ty)) : Prop :=
  term = if ty.Fits v then .ok (wrap v) else .error .arithmetic

/-- A term that fits is added, or the sum stops. -/
theorem Totals.add {total : FixedInt ty} (hvalue : total.value = vs.sum)
    (hterms : ∀ v ∈ vs, ty.Fits v) (hsums : ¬ty.PassesBounds vs) {x : FixedInt ty} :
    Totals (vs ++ [x.value]) (trapping .add total x) := by
  rw [trapping_add, hvalue]
  by_cases hsum : ty.Fits (vs.sum + x.value)
  · rw [if_pos hsum]
    refine .exact ?_ ?_ ?_
    · rw [value_wrap _ hsum, List.sum_append, List.sum_singleton]
    · intro v hv
      rcases List.mem_append.1 hv with hv | hv
      · exact hterms v hv
      · rw [List.mem_singleton.1 hv]
        exact fits_value x
    · rw [IntType.passesBounds_append_singleton]
      simp [hsums, hsum]
  · rw [if_neg hsum]
    exact .overflow (Or.inr ((IntType.passesBounds_append_singleton vs x.value).2 (Or.inr hsum)))

theorem Totals.step {result term : Except Overflow (FixedInt ty)} {v : ℤ} (h : Totals vs result)
    (hterm : IsTerm v term) :
    Totals (vs ++ [v]) (do let total ← result; trapping .add total (← term)) := by
  cases h with
  | overflow h =>
    apply Totals.overflow
    rcases h with ⟨u, hu, hfits⟩ | hpasses
    · exact Or.inl ⟨u, List.mem_append_left _ hu, hfits⟩
    · exact Or.inr ((IntType.passesBounds_append_singleton vs v).2 (Or.inl hpasses))
  | exact hvalue hterms hsums =>
    by_cases hv : ty.Fits v
    · rw [hterm, if_pos hv]
      have hadd := Totals.add hvalue hterms hsums (x := wrap v)
      rwa [value_wrap v hv] at hadd
    · rw [hterm, if_neg hv]
      exact .overflow (Or.inl ⟨v, by simp, hv⟩)

/-- A fold that adds terms one after the other. -/
theorem foldlM_totals {β : Type} {term : β → Except Overflow (FixedInt ty)} {number : β → ℤ}
    (hterm : ∀ b, IsTerm (number b) (term b)) (bs : List β) :
    Totals (bs.map number)
      (bs.foldlM (fun total b => do trapping .add total (← term b)) (zero : FixedInt ty)) := by
  induction bs using List.reverseRecOn with
  | nil => exact .exact value_zero (by simp) IntType.not_passesBounds_nil
  | append_singleton bs b ih =>
    have hstep := ih.step (hterm b)
    simpa only [List.foldlM_append, List.map_append, List.map_cons, List.map_nil, List.foldlM_cons,
      List.foldlM_nil, bind_pure] using hstep

theorem sum_totals (xs : List (FixedInt ty)) : Totals (xs.map value) (sum xs) := by
  have hterm : ∀ x : FixedInt ty, IsTerm x.value (.ok x) := by
    intro x
    unfold IsTerm
    rw [if_pos (fits_value x), wrap_value]
  exact foldlM_totals hterm xs

/-- The exact products of two lists, as far as the shorter one goes. -/
def products (xs ys : List (FixedInt ty)) : List ℤ := List.zipWith (fun x y => x.value * y.value) xs ys

theorem length_products (xs ys : List (FixedInt ty)) :
    (products xs ys).length = min xs.length ys.length := List.length_zipWith

theorem dot_totals (xs ys : List (FixedInt ty)) : Totals (products xs ys) (dot xs ys) := by
  have hproducts : products xs ys = (xs.zip ys).map fun (x, y) => x.value * y.value := by
    unfold products
    rw [List.zip_eq_zipWith, List.map_zipWith]
  rw [hproducts]
  exact foldlM_totals (fun (x, y) => trapping_mul x y) (xs.zip ys)

/-- The checked sum is the wrapping one if that does not overflow. -/
theorem sum_eq_wrappingSum (xs : List (FixedInt ty)) : sum xs =
    if (wrappingSum xs).2 then .error .arithmetic else .ok (wrappingSum xs).1 := by
  have hwrapping := wrappingSum_accumulates xs
  have htotals := sum_totals xs
  generalize sum xs = result at htotals
  cases htotals with
  | exact hvalue hterms hsums =>
    have hflag : ¬(wrappingSum xs).2 = true := fun h => hsums (hwrapping.overflow.1 h)
    rw [if_neg hflag, eq_wrap_of_modEq hwrapping.congruent, ← hvalue, wrap_value]
  | overflow h =>
    rw [if_pos (hwrapping.overflow.2 ?_)]
    rcases h with ⟨v, hv, hfits⟩ | hpasses
    · obtain ⟨x, -, rfl⟩ := List.mem_map.1 hv
      exact absurd (fits_value x) hfits
    · exact hpasses

/-! ## Single additions -/

/-- Only a negative number leads below the least value, and only another one above the greatest. -/
theorem value_clampingAdd (a b : FixedInt ty) :
    (FixedWidth.clampingAdd a b : FixedInt ty).value = ty.clamp (a.value + b.value) := by
  obtain ⟨hmin, hmax⟩ := a.fits_value
  have hsmall : ty.minValue ≤ ty.maxValue := ty.minValue_nonpos.trans ty.maxValue_nonneg
  show (if (overflowingAdd a b).2 then if decide (b.value < (zero : FixedInt ty).value) then minimum
    else maximum else (overflowingAdd a b).1).value = _
  rw [overflowingAdd_eq, value_zero]
  by_cases hfits : ty.Fits (a.value + b.value)
  · rw [if_neg (by simpa using hfits), IntType.clamp_of_fits hfits]
    exact value_wrap _ hfits
  · rw [if_pos (by simpa using hfits)]
    unfold IntType.Fits at hfits
    by_cases hneg : b.value < 0
    · rw [if_pos (decide_eq_true hneg), IntType.clamp_of_lt (by omega)]
      exact value_wrap _ ⟨le_rfl, hsmall⟩
    · rw [if_neg (by simpa using hneg), IntType.clamp_of_gt (by omega)]
      exact value_wrap _ ⟨hsmall, le_rfl⟩

theorem checkedAdd_eq (a b : FixedInt ty) :
    (FixedWidth.checkedAdd a b : Option (FixedInt ty)) = ofInt? (a.value + b.value) := by
  show (if (overflowingAdd a b).2 then none else some (overflowingAdd a b).1) = _
  rw [overflowingAdd_eq]
  unfold ofInt?
  by_cases hfits : ty.Fits (a.value + b.value)
  · rw [if_neg (by simpa using hfits), if_pos hfits]
  · rw [if_pos (by simpa using hfits), if_neg hfits]

/-- Folds over integers agree with exact sums.  The wrapping sum is congruent to the exact one, and its flag
tells whether some partial sum is out of range; the checked sum stops just then and is exact otherwise.
The dot product is the checked sum of the exact products of as many pairs as there are, each of which has to
fit too.  A single addition clamps the exact sum, or gives it if it fits. -/
theorem folds_agree (xs ys : List (FixedInt ty)) (a b : FixedInt ty) :
    (∃ total overflow, wrappingSum xs = (total, overflow) ∧
      total.value ≡ (xs.map value).sum [ZMOD 2 ^ ty.width] ∧
      (overflow = true ↔ ty.PassesBounds (xs.map value)) ∧
      if overflow then sum xs = .error .arithmetic
      else sum xs = .ok total ∧ total.value = (xs.map value).sum) ∧
    ((products xs ys).length = min xs.length ys.length ∧ Totals (products xs ys) (dot xs ys)) ∧
    (FixedWidth.clampingAdd a b : FixedInt ty).value = ty.clamp (a.value + b.value) ∧
    (∀ s : FixedInt ty, FixedWidth.checkedAdd a b = some s ↔ s.value = a.value + b.value) ∧
    ((FixedWidth.checkedAdd a b : Option (FixedInt ty)) = none ↔ ¬ty.Fits (a.value + b.value)) := by
  have hwrapping := wrappingSum_accumulates xs
  have hsum := sum_eq_wrappingSum xs
  refine ⟨⟨(wrappingSum xs).1, (wrappingSum xs).2, rfl, hwrapping.congruent, hwrapping.overflow, ?_⟩,
    ⟨length_products xs ys, dot_totals xs ys⟩, value_clampingAdd a b, ?_, ?_⟩
  · split
    · next hflag => rwa [if_pos hflag] at hsum
    · next hflag =>
      rw [if_neg hflag] at hsum
      exact ⟨hsum, hwrapping.value_eq (Bool.eq_false_iff.2 hflag)⟩
  · intro s
    rw [checkedAdd_eq]
    exact ofInt?_eq_some_iff
  · rw [checkedAdd_eq]
    exact ofInt?_eq_none_iff

/-- The sum of `127`, `1` and `1` overflows and is `129 - 256`. -/
example : wrappingSum [(maximum : FixedInt { width := 8, signed := true }), one, one] =
    (wrap (-127), true) := by decide +kernel

end FixedInt

end MachineNumbers
