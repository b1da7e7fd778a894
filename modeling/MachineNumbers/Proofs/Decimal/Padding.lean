import Mathlib
import MachineNumbers.Proofs.ByteReader.Literal
import MachineNumbers.Proofs.Decimal.Checked
import MachineNumbers.Proofs.Decimal.Literal

/-!
# Reading takes off zeros and keeps the number

A literal reads as its digits without the zeros around them, and the exponent of the last one that is left
(`lex_padded`).  Separators are not among the digits, zeros in front move neither the last digit nor the
point, and each zero behind a fraction moves both by one place; so a literal with any of these more or less
reads as the same decimal (`lex_eq_of_padded`).  Up to the saturation of exponents, that is the number of the
literal, and only zeros have none (`lex_normalises`).
-/

namespace MachineNumbers.Decimal

variable {cs cs' text text' : List Char} {e : ℤ} {n before after : ℕ}

/-! ## Without separators -/

theorem digitsOf_filter (cs : List Char) : digitsOf (cs.filter (· != '_')) = digitsOf cs := by
  unfold digitsOf
  rw [List.filter_filter]
  congr 1
  refine List.filter_congr fun c _ => ?_
  by_cases hc : c = '_'
  · subst hc
    rfl
  · simp [hc]

theorem fractionLengthOf_filter (cs : List Char) :
    fractionLengthOf (cs.filter (· != '_')) = fractionLengthOf cs := by
  induction cs with
  | nil => rfl
  | cons c cs ih =>
    by_cases hc : c = '_'
    · subst hc
      rw [List.filter_cons_of_neg (by decide), ih, fractionLengthOf_cons, if_neg (by decide)]
    · rw [List.filter_cons_of_pos (by simpa using hc), fractionLengthOf_cons, fractionLengthOf_cons, ih,
        digitsOf_filter]

theorem IsMantissa.filter (h : IsMantissa cs) : IsMantissa (cs.filter (· != '_')) where
  letters c hc := h.letters c (List.mem_filter.1 hc).1
  points := (List.filter_sublist.count_le '.').trans h.points
  separators before after heq := by
    have hmem : '_' ∈ cs.filter (· != '_') := by simp [heq]
    simp at hmem
  digits := by
    obtain ⟨c, hc, hdigit⟩ := h.digits
    refine ⟨c, List.mem_filter.2 ⟨hc, ?_⟩, hdigit⟩
    rw [bne_iff_ne]
    rintro rfl
    cases hdigit

/-- An exponent has no separators. -/
theorem IsExponent.filter (h : IsExponent text e) : text.filter (· != '_') = text := by
  refine List.filter_eq_self.2 fun c hc => ?_
  rw [bne_iff_ne]
  rintro rfl
  cases h with
  | absent => cases hc
  | literal hmark hsign hne hds =>
    rcases List.mem_cons.1 hc with rfl | hc
    · simp at hmark
    · rcases List.mem_append.1 hc with hc | hc
      · cases hsign <;> simp at hc
      · have := hds _ hc
        simp at this

/-! ## With more zeros -/

theorem digitsOf_zeros (n : ℕ) : digitsOf (List.replicate n '0') = List.replicate n 0 := by
  unfold digitsOf
  rw [List.filter_replicate, if_pos (by decide), List.map_replicate]
  rfl

theorem fractionLengthOf_zeros_append (n : ℕ) (cs : List Char) :
    fractionLengthOf (List.replicate n '0' ++ cs) = fractionLengthOf cs := by
  induction n with
  | zero => rfl
  | succ n ih => rw [List.replicate_succ, List.cons_append, fractionLengthOf_cons, if_neg (by decide), ih]

/-- Behind the point, every digit counts. -/
theorem fractionLengthOf_append (h : '.' ∈ cs) (rest : List Char) :
    fractionLengthOf (cs ++ rest) = fractionLengthOf cs + (digitsOf rest).length := by
  induction cs with
  | nil => cases h
  | cons c cs ih =>
    rw [List.cons_append, fractionLengthOf_cons, fractionLengthOf_cons]
    by_cases hc : c = '.'
    · rw [if_pos hc, if_pos hc, digitsOf_append, List.length_append]
    · rw [if_neg hc, if_neg hc, ih ((List.mem_cons.1 h).resolve_left (Ne.symm hc))]

/-- After a digit nothing less is allowed. -/
theorem Separated.of_true {pointed : Bool} (h : Separated false pointed cs) : Separated true pointed cs := by
  cases cs with
  | nil => trivial
  | cons c cs =>
    rw [Separated] at h ⊢
    rcases h with h | ⟨-, hafter, -⟩ | h
    · exact Or.inl h
    · cases hafter
    · exact Or.inr (Or.inr h)

theorem Separated.zeros_append {pointed : Bool} (h : Separated false pointed cs) (n : ℕ) :
    Separated false pointed (List.replicate n '0' ++ cs) := by
  induction n with
  | zero => exact h
  | succ n ih =>
    rw [List.replicate_succ, List.cons_append, Separated]
    exact Or.inl ⟨by decide, ih.of_true⟩

theorem Separated.append_zeros {afterDigit pointed : Bool} (h : Separated afterDigit pointed cs) (n : ℕ) :
    Separated afterDigit pointed (cs ++ List.replicate n '0') := by
  induction cs generalizing afterDigit pointed with
  | nil =>
    have hnil : Separated false pointed [] := trivial
    have hzeros := hnil.zeros_append n
    rw [List.append_nil] at hzeros
    cases afterDigit with
    | false => exact hzeros
    | true => exact hzeros.of_true
  | cons c cs ih =>
    rw [Separated] at h
    rw [List.cons_append, Separated]
    rcases h with ⟨hc, h⟩ | ⟨hc, hafter, ⟨d, hd, hdigit⟩, h⟩ | ⟨hc, hpointed, h⟩
    · exact Or.inl ⟨hc, ih h⟩
    · exact Or.inr (Or.inl ⟨hc, hafter, ⟨d, by simp [List.head?_append, hd], hdigit⟩, ih h⟩)
    · exact Or.inr (Or.inr ⟨hc, hpointed, ih h⟩)

theorem IsMantissa.zeros_append (h : IsMantissa cs) (n : ℕ) : IsMantissa (List.replicate n '0' ++ cs) := by
  obtain ⟨hsep, hne⟩ := (isMantissa_iff cs).1 h
  refine (isMantissa_iff _).2 ⟨hsep.zeros_append n, ?_⟩
  rw [digitsOf_append]
  exact List.append_ne_nil_of_right_ne_nil _ hne

theorem IsMantissa.append_zeros (h : IsMantissa cs) (n : ℕ) : IsMantissa (cs ++ List.replicate n '0') := by
  obtain ⟨hsep, hne⟩ := (isMantissa_iff cs).1 h
  refine (isMantissa_iff _).2 ⟨hsep.append_zeros n, ?_⟩
  rw [digitsOf_append]
  exact List.append_ne_nil_of_left_ne_nil hne _

/-! ## What is read -/

/-- Zeros only are no decimal. -/
theorem lex_zeros (hm : IsMantissa cs) (he : IsExponent text e) (hzeros : digitsOf cs = List.replicate n 0) :
    lex (cs ++ text) = .ok none := by
  obtain ⟨m, hdigits, -, hlex⟩ := lex_complete hm he
  rw [hzeros, List.reverse_replicate] at hdigits
  rw [hlex, ofMantissa?_zeros hdigits]

/-- More zeros in front, and as many more zeros behind as places behind the point, leave the digits and the
exponent of the last one. -/
theorem lex_eq_of_padded (before after : ℕ) (hm : IsMantissa cs) (he : IsExponent text e)
    (hm' : IsMantissa cs') (he' : IsExponent text' e) (hexp : |e| < 2 ^ 62)
    (hlength : cs.length + after < 2 ^ 62)
    (hdigits : digitsOf cs' = List.replicate before 0 ++ digitsOf cs ++ List.replicate after 0)
    (hfraction : fractionLengthOf cs' = fractionLengthOf cs + after) :
    lex (cs' ++ text') = lex (cs ++ text) := by
  have hle := fractionLengthOf_le cs
  rcases zeros_or_padded (digitsOf cs) with ⟨n, hzeros⟩ | ⟨front, ds, back, htrimmed, hpadded⟩
  · have hzeros' : digitsOf cs' = List.replicate (before + n + after) 0 := by
      rw [hdigits, hzeros, List.replicate_append_replicate, List.replicate_append_replicate]
    rw [lex_zeros hm he hzeros, lex_zeros hm' he' hzeros']
  · have hback := after_le_length hpadded
    have hpadded' : digitsOf cs' =
        List.replicate (before + front) 0 ++ ds ++ List.replicate (back + after) 0 := by
      rw [hdigits, hpadded, ← List.replicate_append_replicate, ← List.replicate_append_replicate]
      simp only [List.append_assoc]
    rw [lex_padded htrimmed hm he hpadded (by omega) (by omega) hexp,
      lex_padded htrimmed hm' he' hpadded' (by omega) (by omega) hexp, hfraction]
    congr 3
    push_cast
    omega

theorem lex_filter (hm : IsMantissa cs) (he : IsExponent text e) (hexp : |e| < 2 ^ 62)
    (hlength : cs.length < 2 ^ 62) : lex ((cs ++ text).filter (· != '_')) = lex (cs ++ text) := by
  rw [List.filter_append, he.filter]
  exact lex_eq_of_padded 0 0 hm he hm.filter he hexp hlength
    (by rw [digitsOf_filter]; simp) (fractionLengthOf_filter cs)

theorem lex_zeros_append (hm : IsMantissa cs) (he : IsExponent text e) (hexp : |e| < 2 ^ 62)
    (hlength : cs.length < 2 ^ 62) (n : ℕ) :
    lex (List.replicate n '0' ++ (cs ++ text)) = lex (cs ++ text) := by
  rw [← List.append_assoc]
  exact lex_eq_of_padded n 0 hm he (hm.zeros_append n) he hexp hlength
    (by rw [digitsOf_append, digitsOf_zeros]; simp) (fractionLengthOf_zeros_append n cs)

theorem lex_append_zeros (hm : IsMantissa cs) (he : IsExponent text e) (hexp : |e| < 2 ^ 62)
    (hpoint : '.' ∈ cs) (hlength : cs.length + n < 2 ^ 62) :
    lex (cs ++ List.replicate n '0' ++ text) = lex (cs ++ text) := by
  refine lex_eq_of_padded 0 n hm he (hm.append_zeros n) he hexp hlength
    (by rw [digitsOf_append, digitsOf_zeros]; simp) ?_
  rw [fractionLengthOf_append hpoint, digitsOf_zeros, List.length_replicate]

/-- The digits that are left are those of the number, and their exponent makes up for the places after the
point and the zeros behind. -/
theorem value_padded {ds : List ℕ}
    (hdigits : digitsOf cs = List.replicate before 0 ++ ds ++ List.replicate after 0) (e : ℤ) :
    (Decimal.mk ds (e - fractionLengthOf cs + after)).value = numeralValue cs e :=
  value_add_trailing (by rw [hdigits, ofDigits_padded]) _

/-- A literal with a digit that is not zero has a decimal, which is its number. -/
theorem lex_ne_zero (hm : IsMantissa cs) (he : IsExponent text e) (hexp : |e| < 2 ^ 62)
    (hlength : cs.length < 2 ^ 62) (hne : ∃ x ∈ digitsOf cs, x ≠ 0) :
    ∃ d, lex (cs ++ text) = .ok (some d) ∧ (∀ x ∈ d.digits, x < 10) ∧ Trimmed d.digits ∧
      d.value = numeralValue cs e := by
  have hle := fractionLengthOf_le cs
  rcases zeros_or_padded (digitsOf cs) with ⟨n, hzeros⟩ | ⟨before, ds, after, htrimmed, hpadded⟩
  · obtain ⟨x, hx, hne⟩ := hne
    rw [hzeros] at hx
    exact absurd (List.eq_of_mem_replicate hx) hne
  · have hafter := after_le_length hpadded
    refine ⟨_, lex_padded htrimmed hm he hpadded (by omega) (by omega) hexp, fun x hx => ?_, htrimmed,
      value_padded hpadded e⟩
    apply digitsOf_lt cs
    rw [hpadded]
    exact List.mem_append_left _ (List.mem_append_right _ hx)

/-- A literal of zeros has no decimal, and any other one has one whose digits neither begin nor end with zero
and whose number is that of the literal; the digits are put together without loss in one word, if they are
few, and in limbs.  Without separators, with zeros in front and with zeros behind its fraction a literal reads
as the same. -/
theorem lex_normalises (hm : IsMantissa cs) (he : IsExponent text e) (hexp : |e| < 2 ^ 62)
    (hlength : cs.length < 2 ^ 62) :
    (lex (cs ++ text) = .ok none ↔ ∀ x ∈ digitsOf cs, x = 0) ∧
    ((∃ x ∈ digitsOf cs, x ≠ 0) → ∃ d, lex (cs ++ text) = .ok (some d) ∧
      (∀ x ∈ d.digits, x < 10) ∧ Trimmed d.digits ∧ d.value = numeralValue cs e ∧
      CheckedDecimal.small? d = some (if 19 < d.digits.length then none else some d.mantissa) ∧
      ∃ w, CheckedDecimal.big? d = some w ∧ w.Represents d.mantissa) ∧
    lex ((cs ++ text).filter (· != '_')) = lex (cs ++ text) ∧
    (∀ n, lex (List.replicate n '0' ++ (cs ++ text)) = lex (cs ++ text)) ∧
    ('.' ∈ cs → ∀ n, cs.length + n < 2 ^ 62 →
      lex (cs ++ List.replicate n '0' ++ text) = lex (cs ++ text)) ∧
    ByteReader.lex (Utf8.bytes (cs ++ text)) = some (lex (cs ++ text)) := by
  refine ⟨⟨fun hnone x hx => ?_, fun hzeros => ?_⟩, fun hne => ?_, lex_filter hm he hexp hlength,
    lex_zeros_append hm he hexp hlength,
    fun hpoint n hn => lex_append_zeros hm he hexp hpoint hn, ByteReader.lex_bytes _⟩
  · by_contra h0
    obtain ⟨d, hlex, -⟩ := lex_ne_zero hm he hexp hlength ⟨x, hx, h0⟩
    rw [hnone] at hlex
    cases hlex
  · exact lex_zeros hm he (List.eq_replicate_of_mem hzeros)
  · obtain ⟨d, hlex, hlt, htrimmed, hvalue⟩ := lex_ne_zero hm he hexp hlength hne
    exact ⟨d, hlex, hlt, htrimmed, hvalue, CheckedDecimal.small?_eq hlt,
      CheckedDecimal.big?_represents hlt⟩

/-- Zeros at both ends, a separator, a point and a negative exponent. -/
theorem lex_normalises_both_ends : ∃ cs, cs = ['0', '_', '1', '2', '0', '.', '0', '5', '0'] ∧
    lex (cs ++ ['E', '-', '7']) = .ok (some ⟨[1, 2, 0, 0, 5], -9⟩) ∧
    lex ((cs ++ ['E', '-', '7']).filter (· != '_')) = .ok (some ⟨[1, 2, 0, 0, 5], -9⟩) := by
  have hm : IsMantissa ['0', '_', '1', '2', '0', '.', '0', '5', '0'] :=
    (isMantissa_iff _).2 ⟨by simp [Separated, BeginsWithDigit], by decide⟩
  have he : IsExponent ['E', '-', '7'] (signFactor true * Positional.ofDigits 10 (digitsOf ['7'])) :=
    .literal (Or.inr rfl) .minus (by decide) (by simp)
  have hexp : |signFactor true * (Positional.ofDigits 10 (digitsOf ['7']) : ℤ)| < 2 ^ 62 := by
    rw [show signFactor true * (Positional.ofDigits 10 (digitsOf ['7']) : ℤ) = -7 by decide]
    norm_num
  obtain ⟨-, -, hfilter, -⟩ := lex_normalises hm he hexp (by decide)
  have hlex : lex (['0', '_', '1', '2', '0', '.', '0', '5', '0'] ++ ['E', '-', '7']) =
      .ok (some ⟨[1, 2, 0, 0, 5], -9⟩) := by decide
  exact ⟨_, rfl, hlex, hfilter.trans hlex⟩

end MachineNumbers.Decimal
