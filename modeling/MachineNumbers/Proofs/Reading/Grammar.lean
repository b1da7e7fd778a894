import Mathlib
import MachineNumbers.Proofs.ByteReader
import MachineNumbers.Proofs.Reading.Special

/-!
# What a reader of floats accepts

`IsFloatText` is the grammar: an optional sign and then a numeral or a special name.  Such a text is
read, unless it names a NaN that the format does not have, and every other text is malformed; reading
stops in no step, whatever the characters (`parse_grammar`).
-/

namespace MachineNumbers.BinaryFloat

variable {fmt : FloatFormat}

/-! ## The grammar -/

/-- What may follow a sign: a mantissa with an optional exponent, or a special name. -/
inductive IsBody : List Char → Prop where
  | numeral {mantissa exponent : List Char} {e : ℤ} (hmantissa : Decimal.IsMantissa mantissa)
      (hexponent : Decimal.IsExponent exponent e) : IsBody (mantissa ++ exponent)
  | special {text : List Char} {payload : ℕ} (h : IsSpecial text payload) : IsBody text

/-- An optional sign and a body. -/
inductive IsFloatText : List Char → Prop where
  | signed {sign body : List Char} {negative : Bool} (hsign : Decimal.IsSign sign negative)
      (hbody : IsBody body) : IsFloatText (sign ++ body)

/-- A NaN is named whose payload is beyond those of the format. -/
inductive NamesMissingNaN (fmt : FloatFormat) : List Char → Prop where
  | signed {sign body : List Char} {negative : Bool} {payload : ℕ}
      (hsign : Decimal.IsSign sign negative) (hbody : IsSpecial body payload)
      (hlt : fmt.maxPayload < payload) : NamesMissingNaN fmt (sign ++ body)

/-! ## Bodies -/

/-- A name begins with a letter, which no sign is. -/
theorem IsSpecial.head_isAlpha {text : List Char} {payload : ℕ} (h : IsSpecial text payload) :
    ∃ c rest, text = c :: rest ∧ c.isAlpha = true := by
  obtain ⟨name, rest, rfl, hname⟩ : ∃ name rest, text = name ++ rest ∧ name.map Char.toLower ∈
      ["inf".toList, "infinity".toList, "nan".toList, "snan".toList] := by
    cases h with
    | name h => exact ⟨text, [], (List.append_nil text).symm, h⟩
    | @payload name rest _ hname hrest =>
      exact ⟨name, rest, rfl, List.mem_cons_of_mem _ (List.mem_cons_of_mem _ hname)⟩
  cases name with
  | nil => simp at hname
  | cons c name =>
    refine ⟨c, name ++ rest, rfl, ?_⟩
    rw [← Char.isAlpha_toLower_eq_isAlpha]
    simp only [List.mem_cons, List.not_mem_nil, or_false, List.map_cons] at hname
    rcases hname with h | h | h | h
    all_goals
      rw [(List.cons.inj h).1]
      rfl

theorem IsBody.head_ne_sign {body : List Char} (h : IsBody body) :
    ∀ c, body.head? = some c → c ≠ '-' ∧ c ≠ '+' := by
  intro c hc
  cases h with
  | numeral hmantissa hexponent =>
    obtain ⟨d, rest, rfl, hd⟩ := hmantissa.head
    obtain rfl := Option.some.inj hc
    exact Decimal.ne_sign_of_mantissa hd
  | special h =>
    obtain ⟨d, rest, rfl, hd⟩ := h.head_isAlpha
    obtain rfl := Option.some.inj hc
    constructor
    · rintro rfl
      exact absurd hd (by decide)
    · rintro rfl
      exact absurd hd (by decide)

/-- What `parse` reads after the sign. -/
def parseBody (negative : Bool) (body : List Char) : Except NumericError (BinaryFloat fmt) :=
  match parseSpecial? body with
  | .error e => .error e
  | .ok (some special) => .ok (if negative then -special else special)
  | .ok none =>
    match Decimal.lex body with
    | .error fault => .error (.malformedText fault)
    | .ok d? => .ok (ofLiteral negative d?)

theorem parse_eq_parseBody {text : String} {negative : Bool} {body : List Char}
    (h : Decimal.scanSign text.toList = (negative, body)) :
    (parse text : Except _ (BinaryFloat fmt)) = parseBody negative body := by
  unfold parse parseBody
  rw [h]
  dsimp only
  cases (parseSpecial? body : Except _ (Option (BinaryFloat fmt))) with
  | error fault => rfl
  | ok special =>
    cases special with
    | some special => rfl
    | none =>
      cases Decimal.lex body with
      | error fault => rfl
      | ok d? => cases d? <;> rfl

theorem parseBody_numeral (negative : Bool) {mantissa exponent : List Char} {e : ℤ}
    (hmantissa : Decimal.IsMantissa mantissa) (hexponent : Decimal.IsExponent exponent e) :
    ∃ x : BinaryFloat fmt, parseBody negative (mantissa ++ exponent) = .ok x := by
  obtain ⟨m, -, -, hlex⟩ := Decimal.lex_complete hmantissa hexponent
  obtain ⟨c, rest, rfl, hc⟩ := hmantissa.head
  refine ⟨ofLiteral negative (Decimal.ofMantissa? m (Decimal.readExponent e)), ?_⟩
  unfold parseBody
  rw [hlex, List.cons_append, parseSpecial?_of_mantissa hc]

theorem parseBody_special (negative : Bool) {body : List Char} {payload : ℕ}
    (h : IsSpecial body payload) :
    (payload ≤ fmt.maxPayload → ∃ x : BinaryFloat fmt, parseBody negative body = .ok x) ∧
    (fmt.maxPayload < payload →
      (parseBody negative body : Except _ (BinaryFloat fmt)) = .error .range) := by
  obtain ⟨hfits, hbeyond⟩ := @parseSpecial?_of_isSpecial fmt _ _ h
  constructor
  · intro hle
    obtain ⟨x, hx⟩ := hfits hle
    unfold parseBody
    rw [hx]
    exact ⟨_, rfl⟩
  · intro hlt
    unfold parseBody
    rw [hbeyond hlt]

theorem parseBody_cases (negative : Bool) (body : List Char) :
    IsBody body ∨ ∃ fault,
      (parseBody negative body : Except _ (BinaryFloat fmt)) = .error (.malformedText fault) := by
  unfold parseBody
  rcases @parseSpecial?_cases fmt body with ⟨payload, h⟩ | ⟨fault, h⟩ | h
  · exact Or.inl (.special h)
  · exact Or.inr ⟨fault, by rw [h]⟩
  · rw [h]
    cases hlex : Decimal.lex body with
    | error fault => exact Or.inr ⟨fault, rfl⟩
    | ok d? =>
      obtain ⟨mantissa, exponent, e, rfl, hmantissa, hexponent⟩ := Decimal.lex_sound hlex
      exact Or.inl (.numeral hmantissa hexponent)

/-! ## Texts -/

/-- All ways to read a text. -/
theorem parse_cases (fmt : FloatFormat) (text : String) :
    (IsFloatText text.toList ∧ ∃ x : BinaryFloat fmt, parse text = .ok x) ∨
    (IsFloatText text.toList ∧ NamesMissingNaN fmt text.toList ∧
      (parse text : Except _ (BinaryFloat fmt)) = .error .range) ∨
    ∃ fault, (parse text : Except _ (BinaryFloat fmt)) = .error (.malformedText fault) := by
  obtain ⟨⟨negative, body⟩, hscan⟩ : ∃ split, Decimal.scanSign text.toList = split := ⟨_, rfl⟩
  obtain ⟨sign, hsign, htext⟩ := Decimal.scanSign_sound hscan
  rw [parse_eq_parseBody hscan, htext]
  rcases @parseBody_cases fmt negative body with hbody | hfault
  · cases hbody with
    | numeral hmantissa hexponent =>
      exact Or.inl ⟨.signed hsign (.numeral hmantissa hexponent),
        parseBody_numeral negative hmantissa hexponent⟩
    | @special _ payload h =>
      obtain ⟨hfits, hbeyond⟩ := @parseBody_special fmt negative _ _ h
      rcases le_or_gt payload fmt.maxPayload with hle | hlt
      · exact Or.inl ⟨.signed hsign (.special h), hfits hle⟩
      · exact Or.inr (Or.inl ⟨.signed hsign (.special h), .signed hsign h hlt, hbeyond hlt⟩)
  · exact Or.inr (Or.inr hfault)

theorem parse_signed {text : String} {sign body : List Char} {negative : Bool}
    (hsign : Decimal.IsSign sign negative) (hbody : IsBody body)
    (htext : text.toList = sign ++ body) :
    (parse text : Except _ (BinaryFloat fmt)) = parseBody negative body := by
  apply parse_eq_parseBody
  rw [htext]
  exact Decimal.scanSign_complete hsign hbody.head_ne_sign

/-- What is of the grammar is not called malformed. -/
theorem ne_malformed_of_isFloatText {text : String} (h : IsFloatText text.toList)
    (fault : TextError) :
    (parse text : Except _ (BinaryFloat fmt)) ≠ .error (.malformedText fault) := by
  generalize htext : text.toList = cs at h
  obtain ⟨hsign, hbody⟩ := h
  next sign body negative =>
  rw [parse_signed hsign hbody htext]
  cases hbody with
  | numeral hmantissa hexponent =>
    obtain ⟨x, hx⟩ := @parseBody_numeral fmt negative _ _ _ hmantissa hexponent
    rw [hx]
    simp
  | @special _ payload h =>
    obtain ⟨hfits, hbeyond⟩ := @parseBody_special fmt negative _ _ h
    rcases le_or_gt payload fmt.maxPayload with hle | hlt
    · obtain ⟨x, hx⟩ := hfits hle
      rw [hx]
      simp
    · rw [hbeyond hlt]
      simp

theorem range_of_namesMissingNaN {text : String} (h : NamesMissingNaN fmt text.toList) :
    (parse text : Except _ (BinaryFloat fmt)) = .error .range := by
  generalize htext : text.toList = cs at h
  obtain ⟨hsign, hbody, hlt⟩ := h
  rw [parse_signed hsign (.special hbody) htext]
  exact (parseBody_special _ hbody).2 hlt

/-- How a text is read. -/
structure ReadByGrammar (fmt : FloatFormat) (text : String) : Prop where
  /-- On the bytes no step fails, and the result is this one. -/
  runs : ByteReader.parse fmt text.toUTF8.data.toList = some (parse text)
  /-- What is malformed is what is not of the grammar. -/
  malformed : (∃ fault, (parse text : Except _ (BinaryFloat fmt)) = .error (.malformedText fault)) ↔
    ¬IsFloatText text.toList
  /-- What is out of range is a payload. -/
  range : (parse text : Except _ (BinaryFloat fmt)) = .error .range ↔
    NamesMissingNaN fmt text.toList
  /-- There is no other failure. -/
  failures : ∀ e, (parse text : Except _ (BinaryFloat fmt)) = .error e →
    e = .range ∨ ∃ fault, e = .malformedText fault

/-- A reader of floats accepts the texts of the grammar, but for NaNs that the format does not have,
and stops on no text. -/
theorem parse_grammar (fmt : FloatFormat) (text : String) (hsize : text.utf8ByteSize < 2 ^ 28) :
    ReadByGrammar fmt text where
  runs := by
    rw [← Utf8.bytes_toList]
    exact ByteReader.parse_bytes fmt hsize
  malformed := by
    constructor
    · rintro ⟨fault, hfault⟩ h
      exact ne_malformed_of_isFloatText h fault hfault
    · intro h
      rcases parse_cases fmt text with ⟨hgrammar, -⟩ | ⟨hgrammar, -⟩ | hfault
      · exact absurd hgrammar h
      · exact absurd hgrammar h
      · exact hfault
  range := by
    refine ⟨fun h => ?_, range_of_namesMissingNaN⟩
    rcases parse_cases fmt text with ⟨-, x, hx⟩ | ⟨-, hmissing, -⟩ | ⟨fault, hfault⟩
    · rw [h] at hx
      cases hx
    · exact hmissing
    · rw [h] at hfault
      cases hfault
  failures := by
    intro e h
    rcases parse_cases fmt text with ⟨-, x, hx⟩ | ⟨-, -, hrange⟩ | ⟨fault, hfault⟩
    · rw [h] at hx
      cases hx
    · rw [h] at hrange
      exact Or.inl (Except.error.inj hrange)
    · rw [h] at hfault
      exact Or.inr ⟨fault, Except.error.inj hfault⟩

/-- A character of two bytes among the digits of a payload. -/
theorem parse_grammar_wide : "-nan(0xFé)".utf8ByteSize < 2 ^ 28 ∧
    ByteReader.parse .binary32 "-nan(0xFé)".toUTF8.data.toList =
      some (.error (.malformedText .invalidDigit)) := by
  have hsize : "-nan(0xFé)".utf8ByteSize < 2 ^ 28 := by decide
  refine ⟨hsize, ?_⟩
  rw [(parse_grammar .binary32 "-nan(0xFé)" hsize).runs]
  rfl

end MachineNumbers.BinaryFloat
