import Mathlib
import MachineNumbers.BinaryFloat.Text
import MachineNumbers.Proofs.Decimal.Literal

/-!
# Reading floats from text

A decimal numeral is read to the float nearest to its number (`parse_isNearest`), and a text that is
read is a numeral or a special name.  Exponents saturate only where the size of the decimal decides
(`ofDecimal_eq_of_beyond`), so the number is that of the grammar.
-/

namespace MachineNumbers

namespace BinaryFloat

variable {fmt : FloatFormat}

/-! ## Saturated exponents -/

/-- Two exponents that are equal, or beyond every cut-off on the same side. -/
def SameOrBeyond (e e' : ℤ) : Prop :=
  e = e' ∨ (2 ^ 61 ≤ e ∧ 2 ^ 61 ≤ e') ∨ (e ≤ -2 ^ 61 ∧ e' ≤ -2 ^ 61)

theorem ofDecimal_of_large {d : Decimal} (h : 2 ^ 61 ≤ d.exp) (negative : Bool) :
    (ofDecimal negative d : BinaryFloat fmt) = infinity negative := by
  have hbias := fmt.bias_lt
  have hlarge : fmt.maxPlaces < d.places - 1 := by
    unfold FloatFormat.maxPlaces FloatFormat.maxLead Decimal.places
    rw [Decimal.saturated_eq]
    omega
  unfold ofDecimal
  rw [if_pos hlarge]

theorem ofDecimal_of_small {d : Decimal} (h : d.exp ≤ -2 ^ 61) (hlen : d.digits.length < 2 ^ 28)
    (negative : Bool) : (ofDecimal negative d : BinaryFloat fmt) = zero negative := by
  have hbias := fmt.bias_lt
  have hfrac := fmt.fractionBits_le
  have hmin := fmt.minExp_eq
  have hsmall : d.places < fmt.minPlaces := by
    unfold FloatFormat.minPlaces Decimal.places
    rw [Decimal.saturated_eq]
    omega
  have hlarge : ¬fmt.maxPlaces < d.places - 1 := by
    unfold FloatFormat.maxPlaces FloatFormat.maxLead Decimal.places
    rw [Decimal.saturated_eq]
    omega
  unfold ofDecimal
  rw [if_neg hlarge, if_pos hsmall]

/-- Past the bound on exponents the exact exponent no longer matters. -/
theorem ofDecimal_eq_of_beyond {e e' : ℤ} (h : SameOrBeyond e e') {ds : List Nat}
    (hlen : ds.length < 2 ^ 28) (negative : Bool) :
    (ofDecimal negative ⟨ds, e⟩ : BinaryFloat fmt) = ofDecimal negative ⟨ds, e'⟩ := by
  rcases h with rfl | ⟨h, h'⟩ | ⟨h, h'⟩
  · rfl
  · rw [ofDecimal_of_large h, ofDecimal_of_large h']
  · rw [ofDecimal_of_small h hlen, ofDecimal_of_small h' hlen]

/-- The exponent that is kept for a mantissa of this size is the one of the grammar, or both are
beyond every cut-off. -/
theorem sameOrBeyond_saturated (e : ℤ) {fractionLength trailing : Nat}
    (hf : fractionLength < 2 ^ 28) (ht : trailing < 2 ^ 28) :
    SameOrBeyond (Decimal.saturated (Decimal.saturated (Decimal.saturated (-fractionLength) +
      Decimal.readExponent e) + trailing)) (e - fractionLength + trailing) := by
  simp only [SameOrBeyond, Decimal.saturated_eq, Decimal.readExponent, Decimal.maxExponent]
  omega

/-! ## Numerals -/

def ofLiteral (negative : Bool) : Option Decimal → BinaryFloat fmt
  | none => zero negative
  | some d => ofDecimal negative d

theorem ofLiteral_roundsTo {m : Decimal.Mantissa} {cs : List Char}
    (hdigits : m.digits = (Decimal.digitsOf cs).reverse)
    (hlength : m.fractionLength = Decimal.fractionLengthOf cs) (hcs : cs.length < 2 ^ 28) (e : ℤ)
    (negative : Bool) :
    fmt.RoundsTo (Decimal.numeralValue cs e) (ofLiteral negative
        (Decimal.ofMantissa? m (Decimal.readExponent e)) : BinaryFloat fmt).word ∧
      (ofLiteral negative
        (Decimal.ofMantissa? m (Decimal.readExponent e)) : BinaryFloat fmt).sign = negative := by
  have hle := Decimal.length_digitsOf_le cs
  have hfraction := Decimal.fractionLengthOf_le cs
  have hlt : ∀ d ∈ m.digits, d < 10 := by
    rw [hdigits]
    intro d hd
    exact Decimal.digitsOf_lt cs d (List.mem_reverse.1 hd)
  unfold Decimal.numeralValue
  rcases Decimal.ofMantissa?_cases hlt (Decimal.readExponent e) with
    ⟨hnone, hzero⟩ | ⟨ds, trailing, hnormal, hlen, hvalue, hsome⟩
  · rw [hdigits, List.reverse_reverse] at hzero
    rw [hnone, hzero, Nat.cast_zero, zero_mul]
    exact ⟨roundsTo_zero negative, rfl⟩
  · rw [hdigits, List.reverse_reverse] at hvalue
    rw [hdigits, List.length_reverse] at hlen
    have hsame := sameOrBeyond_saturated e (by omega : m.fractionLength < 2 ^ 28)
      (by omega : trailing < 2 ^ 28)
    rw [hsome, ofLiteral, ofDecimal_eq_of_beyond hsame (by omega), hlength,
      ← Decimal.value_add_trailing hvalue]
    exact ofDecimal_roundsTo (hnormal _) negative

/-! ## Special names -/

/-- The text begins with a special name, in any case. -/
def IsSpecialName (text : List Char) : Prop :=
  ∃ name ∈ ["inf", "nan", "snan"], name.toList <+: text.map Char.toLower

theorem dropName_eq_some_iff {name text rest : List Char} : dropName name text = some rest ↔
    ∃ head, head.map Char.toLower = name ∧ text = head ++ rest := by
  induction name generalizing text with
  | nil =>
    rw [dropName]
    constructor
    · intro h
      exact ⟨[], rfl, Option.some.inj h⟩
    · rintro ⟨head, hhead, rfl⟩
      obtain rfl := List.map_eq_nil_iff.1 hhead
      rfl
  | cons n name ih =>
    cases text with
    | nil =>
      rw [dropName]
      constructor
      · intro h
        cases h
      · rintro ⟨head, hhead, htext⟩
        obtain ⟨rfl, rfl⟩ := List.append_eq_nil_iff.1 htext.symm
        cases hhead
    | cons c text =>
      rw [dropName]
      constructor
      · intro h
        split at h
        · next hc =>
          obtain ⟨head, rfl, rfl⟩ := ih.1 h
          exact ⟨c :: head, by rw [List.map_cons, hc], rfl⟩
        · cases h
      · rintro ⟨head, hhead, htext⟩
        cases head with
        | nil => cases hhead
        | cons d head =>
          obtain ⟨rfl, rfl⟩ := List.cons.inj htext
          obtain ⟨hc, rfl⟩ := List.cons.inj hhead
          rw [if_pos hc]
          exact ih.2 ⟨head, rfl, rfl⟩

theorem dropName_isPrefix {name text rest : List Char} (h : dropName name text = some rest) :
    name <+: text.map Char.toLower := by
  obtain ⟨head, rfl, rfl⟩ := dropName_eq_some_iff.1 h
  rw [List.map_append]
  exact List.prefix_append _ _

/-- Whatever is read as special bears one of the names. -/
theorem parseSpecial?_sound {text : List Char} {x? : Option (BinaryFloat fmt)}
    (h : parseSpecial? text = .ok x?) (hx : x? ≠ none) : IsSpecialName text := by
  unfold parseSpecial? at h
  split at h
  · next hname =>
    refine ⟨"inf", by simp, ?_⟩
    rcases hname with hname | hname
    · exact dropName_isPrefix hname
    · exact List.IsPrefix.trans (by decide) (dropName_isPrefix hname)
  · split at h
    · next hname => exact ⟨"snan", by simp, dropName_isPrefix hname⟩
    · split at h
      · next hname => exact ⟨"nan", by simp, dropName_isPrefix hname⟩
      · exact absurd (Except.ok.inj h).symm hx

theorem toLower_of_mantissa {c : Char} (h : c.isDigit = true ∨ c = '.' ∨ c = '_') :
    c.toLower = c := by
  rcases h with h | rfl | rfl
  · have : c.toNat ≤ 57 := by
      simp only [Char.isDigit, Bool.and_eq_true, decide_eq_true_eq] at h
      exact h.2
    rw [Char.toLower, dif_neg]
    intro h
    exact absurd (Nat.le_trans h.1 this) (by decide)
  · rfl
  · rfl

/-- No mantissa is taken for a name. -/
theorem parseSpecial?_of_mantissa {c : Char} (hc : c.isDigit = true ∨ c = '.' ∨ c = '_')
    (text : List Char) :
    (parseSpecial? (c :: text) : Except _ (Option (BinaryFloat fmt))) = .ok none := by
  have hne : ∀ n : Char, n.isAlpha = true → c.toLower ≠ n := by
    intro n hn heq
    rw [toLower_of_mantissa hc] at heq
    subst heq
    rcases hc with hc | rfl | rfl
    · simp only [Char.isAlpha, Char.isUpper, Char.isLower, Char.isDigit, Bool.or_eq_true,
        Bool.and_eq_true, decide_eq_true_eq] at hn hc
      rcases hn with hn | hn
      · exact absurd (Nat.le_trans hn.1 hc.2) (by decide)
      · exact absurd (Nat.le_trans hn.1 hc.2) (by decide)
    · exact absurd hn (by decide)
    · exact absurd hn (by decide)
  simp [parseSpecial?, dropName, hne]

/-! ## Texts -/

/-- A numeral is read, and as the rounded magnitude of its number with its sign. -/
theorem parse_of_denotes {text : String} {negative : Bool} {v : ℚ}
    (h : Decimal.Denotes text.toList negative v) (hlen : text.toList.length < 2 ^ 28) :
    ∃ x : BinaryFloat fmt, parse text = .ok x ∧ x.sign = negative ∧ fmt.RoundsTo |v| x.word ∧
      SignAgrees v x := by
  generalize htext : text.toList = cs at h hlen
  obtain ⟨hsign, hmantissa, hexponent⟩ := h
  next sign mantissa exponent e =>
  obtain ⟨m, hdigits, hlength, hlex⟩ := Decimal.lex_complete hmantissa hexponent
  obtain ⟨c, rest, rfl, hc⟩ := hmantissa.head
  have hscan : Decimal.scanSign (sign ++ (c :: rest ++ exponent)) =
      (negative, c :: rest ++ exponent) := by
    apply Decimal.scanSign_complete hsign
    intro d hd
    obtain rfl := Option.some.inj hd
    exact Decimal.ne_sign_of_mantissa hc
  have hcs : (c :: rest).length < 2 ^ 28 := by
    simp only [List.length_append] at hlen
    omega
  obtain ⟨hround, hs⟩ := @ofLiteral_roundsTo fmt m _ hdigits hlength hcs e negative
  have hparse : (parse text : Except _ (BinaryFloat fmt)) =
      .ok (ofLiteral negative (Decimal.ofMantissa? m (Decimal.readExponent e))) := by
    unfold parse
    rw [htext, hscan]
    simp only [List.cons_append, parseSpecial?_of_mantissa hc]
    rw [List.cons_append] at hlex
    rw [hlex]
    cases Decimal.ofMantissa? m (Decimal.readExponent e) with
    | none => rfl
    | some d => rfl
  have hvalue := Decimal.numeralValue_nonneg (c :: rest) e
  refine ⟨_, hparse, hs, ?_, ?_⟩
  · cases negative
    · simpa [Decimal.signFactor, abs_of_nonneg hvalue] using hround
    · simpa [Decimal.signFactor, abs_of_nonneg hvalue] using hround
  · unfold SignAgrees
    rw [hs]
    cases negative
    · simpa [Decimal.signFactor] using hvalue
    · simpa [Decimal.signFactor] using hvalue

/-- What is read and is not a special name is a numeral. -/
theorem denotes_of_parse {text : String} {x : BinaryFloat fmt} (h : parse text = .ok x) :
    IsSpecialName (Decimal.scanSign text.toList).2 ∨
      ∃ negative v, Decimal.Denotes text.toList negative v := by
  obtain ⟨⟨negative, body⟩, hscan⟩ : ∃ split, Decimal.scanSign text.toList = split := ⟨_, rfl⟩
  obtain ⟨sign, hsign, htext⟩ := Decimal.scanSign_sound hscan
  unfold parse at h
  rw [hscan] at h
  rw [hscan, htext]
  cases hspecial : (parseSpecial? body : Except _ (Option (BinaryFloat fmt))) with
  | error fault => simp [hspecial] at h
  | ok special =>
    cases special with
    | some special => exact Or.inl (parseSpecial?_sound hspecial (by simp))
    | none =>
      cases hlex : Decimal.lex body with
      | error fault => simp [hspecial, hlex] at h
      | ok d? =>
        obtain ⟨cs, rest, e, rfl, hmantissa, hexponent⟩ := Decimal.lex_sound hlex
        exact Or.inr ⟨_, _, .numeral hsign hmantissa hexponent⟩

/-- A text has no more characters than bytes. -/
theorem length_le_utf8ByteSize (text : String) : text.toList.length ≤ text.utf8ByteSize := by
  rw [← String.ofList_toList (s := text), String.utf8ByteSize_ofList, String.toList_ofList]
  induction text.toList with
  | nil => exact Nat.zero_le _
  | cons c cs ih =>
    have := c.utf8Size_pos
    rw [String.utf8Len_cons, List.length_cons]
    omega

/-- Reading is correctly rounded: every numeral is read to the float nearest to its number, with its
sign, and nothing else is read but special names. -/
theorem parse_isNearest (fmt : FloatFormat) (text : String) (hsize : text.utf8ByteSize < 2 ^ 28) :
    (∀ negative v, Decimal.Denotes text.toList negative v →
      ∃ x : BinaryFloat fmt, parse text = .ok x ∧ x.sign = negative ∧ IsNearest v x) ∧
    (∀ x : BinaryFloat fmt, parse text = .ok x →
      IsSpecialName (Decimal.scanSign text.toList).2 ∨
        ∃ negative v, Decimal.Denotes text.toList negative v) := by
  refine ⟨?_, fun x h => denotes_of_parse h⟩
  intro negative v h
  have hlen := (length_le_utf8ByteSize text).trans_lt hsize
  obtain ⟨x, hparse, hsign, hround, hagrees⟩ := @parse_of_denotes fmt text negative v h hlen
  exact ⟨x, hparse, hsign, isNearest_of_roundsTo hround hagrees⟩

theorem parse_isNearest_tenth : "-.1".utf8ByteSize < 2 ^ 28 ∧
    ∃ x : BinaryFloat .binary64, parse "-.1" = .ok x ∧ x.sign = true ∧ IsNearest (-(1 / 10)) x := by
  have hsize : "-.1".utf8ByteSize < 2 ^ 28 := by decide
  have hmantissa : Decimal.IsMantissa ['.', '1'] :=
    (Decimal.isMantissa_iff _).2 ⟨by simp [Decimal.Separated], by decide⟩
  have hvalue : (Decimal.signFactor true : ℚ) * Decimal.numeralValue ['.', '1'] 0 = -(1 / 10) := by
    have hdigits : Decimal.digitsOf ['.', '1'] = [1] := by decide
    have hlength : Decimal.fractionLengthOf ['.', '1'] = 1 := by decide
    unfold Decimal.numeralValue
    rw [hdigits, hlength, Positional.ofDigits_singleton, Decimal.signFactor]
    norm_num
  refine ⟨hsize, (parse_isNearest .binary64 "-.1" hsize).1 true _ ?_⟩
  rw [← hvalue]
  exact .numeral .minus hmantissa .absent

end BinaryFloat

end MachineNumbers
