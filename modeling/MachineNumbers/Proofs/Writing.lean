import Mathlib
import MachineNumbers.Proofs.Decimal.Digits.Width
import MachineNumbers.Proofs.Reading

/-!
# Text of floats reads back

Both layouts of a digit string are numerals of its number (`positional_writes`, `scientific_writes`).
The digits of a float are few and its point is near (`shortest_size`), so its text is short enough to
be read, and what a float is displayed as reads back as the same float (`parse_display`).
-/

namespace MachineNumbers

namespace DigitString

open Decimal (digitsOf fractionLengthOf IsMantissa IsExponent IsSign numeralValue signFactor)

/-! ## Letters -/

theorem digitChar_spec {d : ℕ} (hd : d < 10) : (Positional.digitChar false d).isDigit = true ∧
    (Positional.digitChar false d).toNat - '0'.toNat = d := by
  have h : ∀ d < 10, (Positional.digitChar false d).isDigit = true ∧
    (Positional.digitChar false d).toNat - '0'.toNat = d := by decide
  exact h d hd

def chars (ds : List ℕ) : List Char := ds.map (Positional.digitChar false)

theorem toList_letters (ds : List ℕ) : (letters ds).toList = chars ds := by
  unfold letters
  rw [String.toList_ofList, chars]

theorem isDigit_chars {ds : List ℕ} (h : ∀ d ∈ ds, d < 10) : ∀ c ∈ chars ds, c.isDigit = true := by
  intro c hc
  obtain ⟨d, hd, rfl⟩ := List.mem_map.1 hc
  exact (digitChar_spec (h d hd)).1

theorem ne_point_of_mem_chars {ds : List ℕ} (h : ∀ d ∈ ds, d < 10) :
    ∀ c ∈ chars ds, (c != '.') = true := by
  intro c hc
  rw [bne_iff_ne]
  rintro rfl
  exact absurd (isDigit_chars h _ hc) (by decide)

/-- Letters written for digits read back as these digits. -/
theorem digitsOf_chars {ds : List ℕ} (h : ∀ d ∈ ds, d < 10) : digitsOf (chars ds) = ds := by
  induction ds with
  | nil => rfl
  | cons d ds ih =>
    obtain ⟨hdigit, hvalue⟩ := digitChar_spec (h d (by simp))
    rw [chars, List.map_cons, Decimal.digitsOf_cons, if_pos hdigit, hvalue, ← chars,
      ih fun x hx => h x (by simp [hx])]

theorem count_point_chars {ds : List ℕ} (h : ∀ d ∈ ds, d < 10) : (chars ds).count '.' = 0 :=
  List.count_eq_zero.2 fun hc => absurd (isDigit_chars h _ hc) (by decide)

/-! ## Mantissas -/

/-- Digits with a point among them, or without one, are a mantissa. -/
theorem isMantissa_of_chars {cs : List Char} (hletters : ∀ c ∈ cs, c.isDigit = true ∨ c = '.')
    (hpoints : cs.count '.' ≤ 1) (hdigits : digitsOf cs ≠ []) : IsMantissa cs := by
  refine ⟨fun c hc => (hletters c hc).imp id Or.inl, hpoints, ?_, ?_⟩
  · intro before after heq
    have hmem : '_' ∈ cs := by simp [heq]
    exact absurd (hletters _ hmem) (by decide)
  · simpa [digitsOf] using hdigits

variable {xs ys : List ℕ}

/-- Digits with a point between them are a mantissa with these digits and places. -/
theorem pointed_spec (hx : ∀ d ∈ xs, d < 10) (hy : ∀ d ∈ ys, d < 10) (hne : xs ++ ys ≠ []) :
    IsMantissa (chars xs ++ '.' :: chars ys) ∧
      digitsOf (chars xs ++ '.' :: chars ys) = xs ++ ys ∧
      fractionLengthOf (chars xs ++ '.' :: chars ys) = ys.length := by
  have hdigits : digitsOf (chars xs ++ '.' :: chars ys) = xs ++ ys := by
    rw [Decimal.digitsOf_append, Decimal.digitsOf_cons, if_neg (by decide), digitsOf_chars hx,
      digitsOf_chars hy]
  refine ⟨isMantissa_of_chars ?_ ?_ (by rwa [hdigits]), hdigits, ?_⟩
  · intro c hc
    rcases List.mem_append.1 hc with hc | hc
    · exact Or.inl (isDigit_chars hx c hc)
    · rcases List.mem_cons.1 hc with rfl | hc
      · exact Or.inr rfl
      · exact Or.inl (isDigit_chars hy c hc)
  · rw [List.count_append, List.count_cons_self, count_point_chars hx, count_point_chars hy]
  · have hdrop : (chars xs ++ '.' :: chars ys).dropWhile (· != '.') = '.' :: chars ys := by
      rw [List.dropWhile_append_of_pos (ne_point_of_mem_chars hx),
        List.dropWhile_cons_of_neg (by simp)]
    unfold fractionLengthOf
    rw [hdrop, Decimal.digitsOf_cons, if_neg (by decide), digitsOf_chars hy]

/-- Digits without a point are a mantissa without places. -/
theorem unpointed_spec (hx : ∀ d ∈ xs, d < 10) (hne : xs ≠ []) : IsMantissa (chars xs) ∧
    digitsOf (chars xs) = xs ∧ fractionLengthOf (chars xs) = 0 := by
  have hdigits := digitsOf_chars hx
  refine ⟨isMantissa_of_chars (fun c hc => Or.inl (isDigit_chars hx c hc)) ?_ (by rwa [hdigits]),
    hdigits, ?_⟩
  · rw [count_point_chars hx]
    exact Nat.zero_le _
  · have hdrop : (chars xs).dropWhile (· != '.') = [] :=
      List.dropWhile_eq_nil_iff.2 (ne_point_of_mem_chars hx)
    unfold fractionLengthOf
    rw [hdrop]
    rfl

/-! ## Layouts -/

/-- The text is a mantissa and an exponent of this number. -/
def Writes (cs : List Char) (v : ℚ) : Prop :=
  ∃ mantissa exponent e, cs = mantissa ++ exponent ∧ IsMantissa mantissa ∧ IsExponent exponent e ∧
    numeralValue mantissa e = v

theorem zeros_lt {n : ℕ} : ∀ d ∈ zeros n, d < 10 := by
  intro d hd
  rw [List.eq_of_mem_replicate hd]
  decide

theorem append_lt (hx : ∀ d ∈ xs, d < 10) (hy : ∀ d ∈ ys, d < 10) : ∀ d ∈ xs ++ ys, d < 10 :=
  fun d hd => (List.mem_append.1 hd).elim (hx d) (hy d)

/-- A pointed mantissa alone writes the number of its digits. -/
theorem pointed_writes (hx : ∀ d ∈ xs, d < 10) (hy : ∀ d ∈ ys, d < 10) (hne : xs ++ ys ≠ []) {v : ℚ}
    (hv : v = Positional.ofDigits 10 (xs ++ ys) * 10 ^ (-(ys.length : ℤ))) :
    Writes (chars xs ++ '.' :: chars ys) v := by
  obtain ⟨hmantissa, hdigits, hlength⟩ := pointed_spec hx hy hne
  refine ⟨_, [], 0, (List.append_nil _).symm, hmantissa, .absent, ?_⟩
  unfold numeralValue
  rw [hdigits, hlength, hv, zero_sub]

variable {s : DigitString}

/-- A digit string cut at its point, with a digit on each side and zeros where there are none of its
own. -/
structure IsPointed (s : DigitString) (xs ys : List ℕ) : Prop where
  integral : xs ≠ []
  fraction : ys ≠ []
  digits : ∃ before after, xs ++ ys = zeros before ++ s.digits ++ zeros after ∧
    (after - ys.length : ℤ) = s.lastExp

theorem IsPointed.digits_lt (hp : s.IsPointed xs ys) (h : s.Normal) : ∀ d ∈ xs ++ ys, d < 10 := by
  obtain ⟨before, after, heq, -⟩ := hp.digits
  rw [heq]
  exact append_lt (append_lt zeros_lt h.digits_lt) zeros_lt

/-- All three positional layouts are of one form. -/
theorem exists_isPointed (h : s.Normal) :
    ∃ xs ys, s.positional.toList = chars xs ++ '.' :: chars ys ∧ s.IsPointed xs ys := by
  have hlen := h.length_pos
  have hne : s.digits ≠ [] := List.length_pos_iff.1 hlen
  unfold positional
  split
  · next hpoint =>
    refine ⟨[0], zeros (-s.point).toNat ++ s.digits, ?_, by simp, by simp [hne], ?_⟩
    · rw [String.toList_append, toList_letters]
      rfl
    · refine ⟨(-s.point).toNat + 1, 0, ?_, ?_⟩
      · simp [zeros, List.replicate_succ]
      · rw [lastExp, List.length_append, zeros, List.length_replicate]
        push_cast
        omega
  · next hpoint =>
    simp only
    split
    · next hplace =>
      refine ⟨s.digits.take s.point.toNat, s.digits.drop s.point.toNat, ?_, ?_, ?_, ?_⟩
      · rw [String.toList_append, String.toList_append, toList_letters, toList_letters,
          List.append_assoc]
        rfl
      · rw [← List.length_pos_iff, List.length_take]
        omega
      · rw [← List.length_pos_iff, List.length_drop]
        omega
      · refine ⟨0, 0, ?_, ?_⟩
        · simp [zeros]
        · rw [lastExp, List.length_drop]
          omega
    · next hplace =>
      refine ⟨s.digits ++ zeros (s.point.toNat - s.digits.length), [0], ?_, by simp [hne], by simp, ?_⟩
      · rw [String.toList_append, toList_letters]
        rfl
      · refine ⟨0, s.point.toNat - s.digits.length + 1, ?_, ?_⟩
        · simp [zeros, List.replicate_succ']
        · rw [lastExp, List.length_singleton]
          omega

/-- The plain layout writes its own value. -/
theorem positional_writes (h : s.Normal) : Writes s.positional.toList s.value := by
  obtain ⟨xs, ys, hlist, hpointed⟩ := exists_isPointed h
  have hlt := hpointed.digits_lt h
  obtain ⟨before, after, hdigits, hexp⟩ := hpointed.digits
  rw [hlist]
  refine pointed_writes (fun d hd => hlt d (List.mem_append_left _ hd))
    (fun d hd => hlt d (List.mem_append_right _ hd)) (by simp [hpointed.integral]) ?_
  rw [hdigits, zeros, zeros, List.append_assoc, Positional.ofDigits_zeros_append,
    Positional.ofDigits_append_zeros, value, ← hexp, mantissa, zpow_sub₀ (by norm_num), zpow_natCast,
    zpow_neg]
  push_cast
  ring

/-- An exponent with its sign and at least `width` digits. -/
def exponentChars (width : ℕ) (e : ℤ) : List Char :=
  'e' :: (if e < 0 then '-' else '+') ::
    chars (zeros (width - (Positional.digits 10 e.natAbs).length) ++ Positional.digits 10 e.natAbs)

/-- A padded exponent with its sign is one of the grammar. -/
theorem isExponent_chars (width : ℕ) (e : ℤ) : IsExponent (exponentChars width e) e := by
  unfold exponentChars
  generalize width - (Positional.digits 10 e.natAbs).length = padding
  have hlt : ∀ d ∈ zeros padding ++ Positional.digits 10 e.natAbs, d < 10 :=
    append_lt zeros_lt (Positional.digits_lt (by decide) _)
  have hne : chars (zeros padding ++ Positional.digits 10 e.natAbs) ≠ [] := by
    obtain ⟨d, ds, hds, -⟩ := Positional.digits_eq_cons (by decide : 1 < 10) e.natAbs
    simp [chars, hds]
  have hvalue : Positional.ofDigits 10 (digitsOf (chars (zeros padding ++
      Positional.digits 10 e.natAbs))) = e.natAbs := by
    rw [digitsOf_chars hlt, zeros, Positional.ofDigits_zeros_append,
      Positional.ofDigits_digits (by decide)]
  split
  · next hneg =>
    have h := IsExponent.literal (Or.inl rfl) .minus hne (isDigit_chars hlt)
    rwa [hvalue, signFactor, if_pos rfl, show -1 * (e.natAbs : ℤ) = e by omega] at h
  · next hnonneg =>
    have h := IsExponent.literal (Or.inl rfl) .plus hne (isDigit_chars hlt)
    rwa [hvalue, signFactor, if_neg (by simp), show 1 * (e.natAbs : ℤ) = e by omega] at h

/-- One digit before the point and the others after it, with the point left out if there are none. -/
def leadingChars (d : ℕ) (ds : List ℕ) : List Char :=
  chars [d] ++ if ds.isEmpty then [] else '.' :: chars ds

theorem leading_spec {d : ℕ} {ds : List ℕ} (hlt : ∀ x ∈ d :: ds, x < 10) :
    IsMantissa (leadingChars d ds) ∧ digitsOf (leadingChars d ds) = d :: ds ∧
      fractionLengthOf (leadingChars d ds) = ds.length := by
  have hd : ∀ x ∈ [d], x < 10 := fun x hx => hlt x (List.mem_cons.2 (Or.inl (List.mem_singleton.1 hx)))
  unfold leadingChars
  cases ds with
  | nil =>
    rw [List.isEmpty_nil, if_pos rfl, List.append_nil]
    exact unpointed_spec hd (by simp)
  | cons x xs =>
    rw [List.isEmpty_cons, if_neg (by simp)]
    exact pointed_spec hd (fun y hy => hlt y (by simp [hy])) (by simp)

theorem toList_scientific (style : DecimalStyle) {d : ℕ} {ds : List ℕ} (hds : s.digits = d :: ds) :
    (s.scientific style).toList =
      leadingChars d ds ++ exponentChars style.exponentDigits (s.point - 1) := by
  unfold scientific leadingChars exponentChars
  rw [hds]
  simp only [List.take_succ_cons, List.take_zero, List.drop_succ_cons, List.drop_zero,
    String.toList_append, toList_letters, List.append_assoc]
  congr 1
  cases ds.isEmpty
  · by_cases hneg : s.point - 1 < 0
    · simp [hneg, toList_letters]
    · simp [hneg, toList_letters]
  · by_cases hneg : s.point - 1 < 0
    · simp [hneg]
    · simp [hneg]

/-- The scientific layout writes its own value. -/
theorem scientific_writes (style : DecimalStyle) (h : s.Normal) :
    Writes (s.scientific style).toList s.value := by
  obtain ⟨d, ds, hds, -⟩ := h.head
  have hlt := h.digits_lt
  rw [hds] at hlt
  obtain ⟨hmantissa, hdigits, hlength⟩ := leading_spec hlt
  refine ⟨_, _, s.point - 1, toList_scientific style hds, hmantissa, isExponent_chars _ _, ?_⟩
  unfold numeralValue
  rw [hdigits, hlength, value, lastExp, mantissa, hds, List.length_cons]
  congr 2
  push_cast
  omega

/-! ## Lengths -/

theorem length_digits_le (n : ℕ) : (Positional.digits 10 n).length ≤ n + 1 := by
  rcases Nat.eq_zero_or_pos n with rfl | hpos
  · decide
  · have h1 := (Positional.pow_length_digits (by decide : 1 < 10) hpos.ne').1
    have h2 : (Positional.digits 10 n).length - 1 < 10 ^ ((Positional.digits 10 n).length - 1) :=
      Nat.lt_pow_self (by decide)
    omega

theorem length_chars (ds : List ℕ) : (chars ds).length = ds.length := List.length_map _

theorem length_letters (ds : List ℕ) : (letters ds).toList.length = ds.length := by
  rw [toList_letters, length_chars]

/-- Plain texts are as long as their digits and the zeros up to the point. -/
theorem length_positional_le (s : DigitString) :
    s.positional.toList.length ≤ s.digits.length + s.point.natAbs + 2 := by
  unfold positional
  split
  · simp only [String.toList_append, List.length_append, length_letters, zeros, List.length_replicate]
    have : "0.".toList.length = 2 := rfl
    omega
  · simp only
    split
    · simp only [String.toList_append, List.length_append, length_letters, List.length_take,
        List.length_drop]
      have : ".".toList.length = 1 := rfl
      omega
    · simp only [String.toList_append, List.length_append, length_letters, zeros,
        List.length_replicate]
      have : ".0".toList.length = 2 := rfl
      omega

theorem length_scientific_le (s : DigitString) :
    (s.scientific .standard).toList.length ≤ s.digits.length + s.point.natAbs + 8 := by
  have hexp := length_digits_le (s.point - 1).natAbs
  have hrest : (if (s.digits.drop 1).isEmpty then "" else "." ++ letters (s.digits.drop 1)).toList.length
      ≤ (s.digits.drop 1).length + 1 := by
    split
    · exact Nat.zero_le _
    · simp only [String.toList_append, List.length_append, length_letters]
      have : ".".toList.length = 1 := rfl
      omega
  have hsign : (if s.point - 1 < 0 then "-" else "+").toList.length = 1 := by split <;> rfl
  have hmark : "e".toList.length = 1 := rfl
  simp only [scientific, String.toList_append, List.length_append, length_letters, zeros,
    List.length_replicate, hsign, hmark]
  simp only [List.length_drop, List.length_take, DecimalStyle.standard] at hrest ⊢
  omega

end DigitString

namespace BinaryFloat

variable {fmt : FloatFormat}

/-! ## Round trip -/

def signText (negative : Bool) : String := if negative then "-" else ""

theorem isSign_signText (negative : Bool) : Decimal.IsSign (signText negative).toList negative := by
  cases negative
  · exact .absent
  · exact .minus

/-- A text of a number that rounds to the word of `x`, with the sign of `x`, reads as `x`. -/
theorem parse_of_writes {x : BinaryFloat fmt} {text : String} {v : ℚ}
    (h : DigitString.Writes text.toList v) (hlen : text.toList.length < 2 ^ 27) (hv : 0 ≤ v)
    (hround : fmt.RoundsTo v x.word) : parse (signText x.sign ++ text) = .ok x := by
  obtain ⟨mantissa, exponent, e, htext, hmantissa, hexponent, hvalue⟩ := h
  have hdenotes := Decimal.Denotes.numeral (isSign_signText x.sign) hmantissa hexponent
  rw [← htext, ← String.toList_append, hvalue] at hdenotes
  have hsign : (signText x.sign).toList.length ≤ 1 := by
    unfold signText
    split <;> decide
  have hsize : (signText x.sign ++ text).toList.length < 2 ^ 28 := by
    rw [String.toList_append, List.length_append]
    omega
  obtain ⟨y, hparse, hy, hyround, -⟩ := @parse_of_denotes fmt _ _ _ hdenotes hsize
  have habs : |(Decimal.signFactor x.sign : ℚ) * v| = v := by
    cases x.sign
    · simp [Decimal.signFactor, abs_of_nonneg hv]
    · simp [Decimal.signFactor, abs_of_nonneg hv]
  rw [habs] at hyround
  rw [hparse, ext_word hy (hyround.unique hround)]

theorem parse_infinity {x : BinaryFloat fmt} (hx : x.isInfinite = true) :
    parse (signText x.sign ++ "inf") = .ok x := by
  have hword := (isInfinite_iff_word x).1 hx
  have hinf : ∀ s : Bool, (infinity s : BinaryFloat fmt).word = x.word := fun s => by
    unfold infinity
    rw [word_ofWord le_rfl, hword]
  have hspecial : (parseSpecial? ['i', 'n', 'f'] : Except _ (Option (BinaryFloat fmt))) =
      .ok (some (infinity false)) := if_pos (Or.inl rfl)
  cases hs : x.sign with
  | true =>
    have hscan : Decimal.scanSign (signText true ++ "inf").toList = (true, ['i', 'n', 'f']) := rfl
    simp only [parse, hscan, hspecial, if_true]
    exact congrArg Except.ok (ext_word hs.symm (hinf false))
  | false =>
    have hscan : Decimal.scanSign (signText false ++ "inf").toList = (false, ['i', 'n', 'f']) := rfl
    simp only [parse, hscan, hspecial, Bool.false_eq_true, if_false]
    exact congrArg Except.ok (ext_word hs.symm (hinf false))

theorem parse_zero {x : BinaryFloat fmt} (hx : x.isZero = true) :
    parse (signText x.sign ++ "0.0") = .ok x := by
  have hword : x.word = 0 := by simpa [isZero] using hx
  have hwrites : DigitString.Writes (DigitString.chars [0] ++ '.' :: DigitString.chars [0]) 0 :=
    DigitString.pointed_writes (by simp) (by simp) (by simp) (by simp [Positional.ofDigits])
  refine parse_of_writes hwrites (by decide) le_rfl ?_
  rw [hword]
  exact roundsTo_zero false

/-- The exponents that digits are made for, over all formats. -/
theorem exp_ofFloat_bounds {x : BinaryFloat fmt} (hx : x.isFinite = true) :
    -16500 ≤ (DigitTarget.ofFloat x).exp ∧ (DigitTarget.ofFloat x).exp ≤ 16500 := by
  have hbias := fmt.bias_lt
  have hfrac := fmt.fractionBits_le
  have hmin := fmt.minExp_eq
  have hword := (isFinite_iff x).1 hx
  obtain ⟨e, hexp, hbinade, -⟩ := DigitTarget.ofFloat_binade x
  have he : e < 2 * fmt.bias + 1 := by
    rw [fmt.infinityWord_eq, hbinade] at hword
    exact Nat.lt_of_mul_lt_mul_right (Nat.lt_of_le_of_lt (Nat.le_add_right _ _) hword)
  omega

/-- The digits of a float are at most eighteen, and its point is within the range of exponents. -/
theorem shortest_size {x : BinaryFloat fmt} (hx : x.isFinite = true) (h0 : x.isZero = false) :
    (DigitTarget.ofFloat x).shortest.digits.length ≤ 18 ∧
      (DigitTarget.ofFloat x).shortest.point.natAbs ≤ 17000 := by
  have hsig := DigitTarget.sig_ofFloat_pos ((isZero_eq_false_iff x).1 h0)
  have hsiglt : (DigitTarget.ofFloat x).sig < 2 ^ 53 := unpack_sig_lt_two_pow x
  have hlen := DigitTarget.length_shortest_le h0
  obtain ⟨hexp, hexp'⟩ := exp_ofFloat_bounds hx
  have h := DigitTarget.shortest_ofFloat h0
  obtain ⟨hlow, hhigh⟩ := h.shortest.exp_bounds hsig hsiglt
  unfold DigitString.lastExp at hlow hhigh
  omega

/-- The number of the digits of a float rounds to its word. -/
theorem shortest_roundsTo {x : BinaryFloat fmt} (hx : x.isFinite = true) (h0 : x.isZero = false) :
    fmt.RoundsTo (DigitTarget.ofFloat x).shortest.value x.word := by
  have hword := (isZero_eq_false_iff x).1 h0
  have h := DigitTarget.shortest_ofFloat h0
  have hfin : x.word < fmt.infinityWord := (isFinite_iff x).1 hx
  exact ⟨x.word, (DigitTarget.covers_ofFloat_iff hword _).1 h.shortest.covers,
    (Nat.min_eq_left hfin.le).symm⟩

theorem numberText_eq (x : BinaryFloat fmt) : x.numberText =
    if x.isInfinite then signText x.sign ++ "inf"
    else if x.isZero then signText x.sign ++ "0.0"
    else signText x.sign ++
      if DecimalStyle.standard.leastPoint ≤ (DigitTarget.ofFloat x).shortest.point ∧
        (x.unpack .gradual).leadExp < fmt.precision
      then (DigitTarget.ofFloat x).shortest.positional
      else (DigitTarget.ofFloat x).shortest.scientific .standard := rfl

/-- What a float that is not a NaN is displayed as reads back as the same float. -/
theorem parse_display (x : BinaryFloat fmt) (hx : x.isNaN = false) : parse x.display = .ok x := by
  unfold display
  rw [hx, if_neg (by simp), numberText_eq]
  cases hinf : x.isInfinite with
  | true => exact parse_infinity hinf
  | false =>
    cases hzero : x.isZero with
    | true => exact parse_zero hzero
    | false =>
      have hfin : x.isFinite = true := by
        rw [isFinite_iff]
        have h1 := (isNaN_eq_false_iff x).1 hx
        have h2 : x.word ≠ fmt.infinityWord := fun h => by
          simp [(isInfinite_iff_word x).2 h] at hinf
        omega
      have hsig := DigitTarget.sig_ofFloat_pos ((isZero_eq_false_iff x).1 hzero)
      have hnormal := (DigitTarget.shortest_isShortestOf hsig (DigitTarget.sig_ofFloat_lt x)).normal
      obtain ⟨hlen, hpoint⟩ := shortest_size hfin hzero
      have hround := shortest_roundsTo hfin hzero
      rw [if_neg (by simp), if_neg (by simp)]
      generalize (DigitTarget.ofFloat x).shortest = s at hnormal hlen hpoint hround ⊢
      split
      · have hsize := s.length_positional_le
        exact parse_of_writes (DigitString.positional_writes hnormal) (by omega) s.value_nonneg hround
      · have hsize := s.length_scientific_le
        exact parse_of_writes (DigitString.scientific_writes _ hnormal) (by omega) s.value_nonneg
          hround

/-- The greatest number of double precision, with a minus sign. -/
theorem parse_display_greatest : (greatestFinite : BinaryFloat .binary64).negated.isNaN = false ∧
    parse (greatestFinite : BinaryFloat .binary64).negated.display =
      .ok (greatestFinite : BinaryFloat .binary64).negated :=
  ⟨by decide, parse_display _ (by decide)⟩

end BinaryFloat

end MachineNumbers
