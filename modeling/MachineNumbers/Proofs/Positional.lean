import Mathlib
import MachineNumbers.Text.Positional

/-!
# Digits and the numbers they write

`ofDigits` of digits below the radix is injective at each length (`ofDigits_injective`) and lies
between two powers of the radix (`ofDigits_lt`, `pow_le_ofDigits`).  `digits` writes every number
(`ofDigits_digits`) without a leading zero (`digits_eq_cons`).
-/

namespace MachineNumbers.Positional

variable {radix : Nat}

/-! ## Letters -/

/-- A wide character is no digit. -/
theorem hexValue?_of_wide {c : Char} (hc : 128 ≤ c.toNat) : hexValue? c = none := by
  have hle : ∀ n : Char, n.toNat < 128 → ¬c ≤ n := by
    intro n hn h
    have : c.toNat ≤ n.toNat := h
    omega
  unfold hexValue?
  rw [if_neg fun h => hle '9' (by decide) h.2, if_neg fun h => hle 'f' (by decide) h.2,
    if_neg fun h => hle 'F' (by decide) h.2]

/-! ## Reading digits -/

theorem ofDigits_nil : ofDigits radix [] = 0 := rfl

theorem ofDigits_append_singleton (ds : List Nat) (d : Nat) :
    ofDigits radix (ds ++ [d]) = ofDigits radix ds * radix + d := by
  simp [ofDigits]

/-- The upper digits move up by the places of the lower ones. -/
theorem ofDigits_append (xs ys : List Nat) :
    ofDigits radix (xs ++ ys) = ofDigits radix xs * radix ^ ys.length + ofDigits radix ys := by
  induction ys using List.reverseRecOn with
  | nil => simp [ofDigits_nil]
  | append_singleton ys y ih =>
    rw [← List.append_assoc, ofDigits_append_singleton, ih, ofDigits_append_singleton,
      List.length_append, List.length_singleton, pow_succ]
    ring

theorem ofDigits_singleton (d : Nat) : ofDigits radix [d] = d := by simp [ofDigits]

theorem ofDigits_cons (d : Nat) (ds : List Nat) :
    ofDigits radix (d :: ds) = d * radix ^ ds.length + ofDigits radix ds := by
  rw [← List.singleton_append, ofDigits_append, ofDigits_singleton]

theorem ofDigits_replicate_zero (n : Nat) : ofDigits radix (List.replicate n 0) = 0 := by
  induction n with
  | zero => rfl
  | succ n ih => rw [List.replicate_succ, ofDigits_cons, ih, Nat.zero_mul]

/-- Leading zeros do not count. -/
theorem ofDigits_zeros_append (n : Nat) (ds : List Nat) :
    ofDigits radix (List.replicate n 0 ++ ds) = ofDigits radix ds := by
  rw [ofDigits_append, ofDigits_replicate_zero, Nat.zero_mul, Nat.zero_add]

/-- Trailing zeros are a power of the radix. -/
theorem ofDigits_append_zeros (ds : List Nat) (n : Nat) :
    ofDigits radix (ds ++ List.replicate n 0) = ofDigits radix ds * radix ^ n := by
  rw [ofDigits_append, ofDigits_replicate_zero, List.length_replicate, Nat.add_zero]

/-- A value with `k` digits is below the radix to the `k`. -/
theorem ofDigits_lt {ds : List Nat} (h : ∀ d ∈ ds, d < radix) :
    ofDigits radix ds < radix ^ ds.length := by
  induction ds with
  | nil => simp [ofDigits_nil]
  | cons d ds ih =>
    have hd : d + 1 ≤ radix := h d (by simp)
    have hds := ih fun x hx => h x (by simp [hx])
    rw [ofDigits_cons, List.length_cons, pow_succ, Nat.mul_comm _ radix]
    have := Nat.mul_le_mul_right (radix ^ ds.length) hd
    rw [Nat.add_mul, Nat.one_mul] at this
    omega

/-- A leading digit that is not zero counts its whole place. -/
theorem pow_le_ofDigits {d : Nat} (hd : d ≠ 0) (ds : List Nat) :
    radix ^ ds.length ≤ ofDigits radix (d :: ds) := by
  rw [ofDigits_cons]
  have := Nat.mul_le_mul_right (radix ^ ds.length) (Nat.one_le_iff_ne_zero.2 hd)
  omega

/-- Lists of digits of one length are told apart by their values. -/
theorem ofDigits_injective {xs ys : List Nat} (hx : ∀ d ∈ xs, d < radix) (hy : ∀ d ∈ ys, d < radix)
    (hlen : xs.length = ys.length) (h : ofDigits radix xs = ofDigits radix ys) : xs = ys := by
  induction xs generalizing ys with
  | nil => exact (List.length_eq_zero_iff.1 hlen.symm).symm
  | cons x xs ih =>
    cases ys with
    | nil => simp at hlen
    | cons y ys =>
      have hxs : ∀ d ∈ xs, d < radix := fun d hd => hx d (by simp [hd])
      have hys : ∀ d ∈ ys, d < radix := fun d hd => hy d (by simp [hd])
      have hlen' : xs.length = ys.length := by simpa using hlen
      have h1 := ofDigits_lt hxs
      have h2 := ofDigits_lt hys
      rw [ofDigits_cons, ofDigits_cons, hlen'] at h
      rw [hlen'] at h1
      have hpos : 0 < radix ^ ys.length := by omega
      -- the leading digits are the quotients by the power of the radix
      have hxy : x = y := by
        have hquot := congrArg (· / radix ^ ys.length) h
        rwa [Nat.add_comm, Nat.add_mul_div_right _ _ hpos, Nat.div_eq_of_lt h1, Nat.zero_add,
          Nat.add_comm, Nat.add_mul_div_right _ _ hpos, Nat.div_eq_of_lt h2, Nat.zero_add] at hquot
      rw [hxy] at h ⊢
      rw [ih hxs hys hlen' (by omega)]

/-! ## Writing digits -/

theorem lowDigits_lt (hr : 0 < radix) (count n : Nat) : ∀ d ∈ lowDigits radix count n, d < radix := by
  induction count generalizing n with
  | zero => simp [lowDigits]
  | succ count ih =>
    rw [lowDigits]
    split
    · simpa
    · intro d hd
      rcases List.mem_cons.1 hd with rfl | hd
      · exact Nat.mod_lt _ hr
      · exact ih _ d hd

/-- With room for all digits, they write the number and the highest is not zero. -/
theorem lowDigits_spec (hr : 1 < radix) {count n : Nat} (hn : n < radix ^ count) (hc : 0 < count) :
    ofDigits radix (lowDigits radix count n).reverse = n ∧
      ∃ d ds, (lowDigits radix count n).reverse = d :: ds ∧ (n ≠ 0 → d ≠ 0) := by
  induction count generalizing n with
  | zero => omega
  | succ count ih =>
    rw [lowDigits]
    split
    · next hlt =>
      exact ⟨ofDigits_singleton n, n, [], rfl, id⟩
    · next hge =>
      have hq0 : n / radix ≠ 0 := (Nat.div_pos (by omega) (by omega)).ne'
      have hq : n / radix < radix ^ count := by
        rw [Nat.div_lt_iff_lt_mul (by omega), ← pow_succ]
        exact hn
      have hcount : 0 < count := Nat.pos_of_ne_zero fun h0 => by
        rw [h0, pow_zero, Nat.lt_one_iff] at hq
        exact hq0 hq
      obtain ⟨hval, d, ds, hds, hd⟩ := ih hq hcount
      rw [List.reverse_cons]
      refine ⟨?_, d, ds ++ [n % radix], by rw [hds, List.cons_append], fun _ => hd hq0⟩
      rw [ofDigits_append_singleton, hval, Nat.mul_comm, Nat.div_add_mod]

theorem lt_pow_log2_succ (hr : 1 < radix) (n : Nat) : n < radix ^ (n.log2 + 1) :=
  Nat.lt_log2_self.trans_le (Nat.pow_le_pow_left hr _)

theorem digits_lt (hr : 0 < radix) (n : Nat) : ∀ d ∈ digits radix n, d < radix := by
  intro d hd
  exact lowDigits_lt hr _ _ d (List.mem_reverse.1 hd)

/-- The digits of a number spell it. -/
theorem ofDigits_digits (hr : 1 < radix) (n : Nat) : ofDigits radix (digits radix n) = n :=
  (lowDigits_spec hr (lt_pow_log2_succ hr n) (by omega)).1

theorem digits_eq_cons (hr : 1 < radix) (n : Nat) :
    ∃ d ds, digits radix n = d :: ds ∧ (n ≠ 0 → d ≠ 0) :=
  (lowDigits_spec hr (lt_pow_log2_succ hr n) (by omega)).2

/-- The digits of a number are as many as put it between two powers of the radix. -/
theorem pow_length_digits (hr : 1 < radix) {n : Nat} (hn : n ≠ 0) :
    radix ^ ((digits radix n).length - 1) ≤ n ∧ n < radix ^ (digits radix n).length := by
  have hval := ofDigits_digits hr n
  obtain ⟨d, ds, hds, hd⟩ := digits_eq_cons hr n
  have hlt := ofDigits_lt (digits_lt (by omega : 0 < radix) n)
  rw [hval] at hlt
  refine ⟨?_, hlt⟩
  have : radix ^ ds.length ≤ _ := pow_le_ofDigits (hd hn) ds
  rw [← hds, hval] at this
  rwa [hds, List.length_cons, Nat.add_sub_cancel]

/-! ## Powers with an exponent of either sign -/

theorem pow_toNat {b : ℚ} (hb : b ≠ 0) (k : ℤ) : b ^ k.toNat = b ^ k * b ^ (-k).toNat := by
  rw [← zpow_natCast, ← zpow_natCast, ← zpow_add₀ hb]
  congr 1
  omega

end MachineNumbers.Positional
