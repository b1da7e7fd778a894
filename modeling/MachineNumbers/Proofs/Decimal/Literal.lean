import Mathlib
import MachineNumbers.Proofs.Decimal.Nearest
import MachineNumbers.Proofs.Decimal.Numeral

/-!
# Literals are read by the grammar

Reading a mantissa takes off what the grammar allows (`Mantissa.scan_sound`, `Mantissa.scan_complete`),
and so does reading an exponent, which saturates (`scanExponent_sound`, `scanExponent_complete`).
Digits are zeros only or have zeros around them, which are taken off (`zeros_or_padded`,
`ofMantissa?_padded`), without changing the number (`ofMantissa?_cases`).  `lex_sound`, `lex_complete` and
`lex_padded` put these together.
-/

namespace MachineNumbers.Decimal

/-! ## Mantissas -/

namespace Mantissa

variable {m m' : Mantissa} {cs rest : List Char}

/-- `m'` is `m` with some characters read on. -/
structure ReadsTo (m : Mantissa) (cs : List Char) (m' : Mantissa) : Prop where
  digits : m'.digits = (digitsOf cs).reverse ++ m.digits
  fractionLength : m'.fractionLength =
    m.fractionLength + if m.pointed then (digitsOf cs).length else fractionLengthOf cs

theorem ReadsTo.nil (m : Mantissa) : m.ReadsTo [] m :=
  ⟨rfl, by simp [digitsOf, fractionLengthOf]⟩

theorem ReadsTo.digit {c : Char} (hc : c.isDigit = true)
    (h : (m.push (c.toNat - '0'.toNat)).ReadsTo cs m') : m.ReadsTo (c :: cs) m' := by
  have hpoint : c ≠ '.' := by rintro rfl; simp at hc
  have hdigits := h.digits
  have hlength := h.fractionLength
  unfold push at hdigits hlength
  constructor
  · rw [hdigits, digitsOf_cons, if_pos hc, List.reverse_cons, List.append_assoc]
    rfl
  · rw [hlength, digitsOf_cons, if_pos hc, fractionLengthOf_cons, if_neg hpoint]
    cases m.pointed
    · simp
    · simp
      omega

theorem ReadsTo.separator (h : m.ReadsTo cs m') : m.ReadsTo ('_' :: cs) m' := by
  constructor
  · rw [h.digits, digitsOf_cons]
    rfl
  · rw [h.fractionLength, digitsOf_cons, fractionLengthOf_cons]
    rfl

theorem ReadsTo.point (hm : m.pointed = false)
    (h : ReadsTo { m with pointed := true } cs m') : m.ReadsTo ('.' :: cs) m' := by
  constructor
  · rw [h.digits, digitsOf_cons]
    rfl
  · rw [h.fractionLength, fractionLengthOf_cons, if_pos rfl, hm]
    rfl

/-- What a mantissa leaves does not go on with a digit, and what it takes is in order. -/
theorem scan_sound {afterDigit : Bool} {text : List Char}
    (h : m.scan afterDigit text = .ok (m', rest)) :
    ¬BeginsWithDigit rest ∧
      ∃ cs, text = cs ++ rest ∧ Separated afterDigit m.pointed cs ∧ m.ReadsTo cs m' := by
  induction text generalizing m afterDigit with
  | nil =>
    obtain ⟨rfl, rfl⟩ := Prod.mk.inj (Except.ok.inj h)
    exact ⟨by simp [BeginsWithDigit], [], rfl, trivial, .nil m⟩
  | cons c text ih =>
    rw [scan, digit?_eq] at h
    cases hc : c.isDigit with
    | true =>
      simp only [hc, if_true] at h
      obtain ⟨hrest, cs, rfl, hsep, hreads⟩ := ih h
      exact ⟨hrest, c :: cs, rfl, Or.inl ⟨hc, hsep⟩, hreads.digit hc⟩
    | false =>
      simp only [hc, Bool.false_eq_true, if_false] at h
      split_ifs at h with hunder hdigit hpoint
      · obtain ⟨hafter, hstart⟩ := Bool.and_eq_true_iff.1 hdigit
        obtain ⟨hrest, cs, htext, hsep, hreads⟩ := ih h
        have hbegin : BeginsWithDigit cs := by
          rw [startsWithDigit_iff, htext] at hstart
          cases cs with
          | nil => exact absurd hstart hrest
          | cons d ds => simpa [BeginsWithDigit] using hstart
        subst hunder htext
        exact ⟨hrest, '_' :: cs, rfl, Or.inr (Or.inl ⟨rfl, hafter, hbegin, hsep⟩),
          hreads.separator⟩
      · obtain ⟨hrest, cs, rfl, hsep, hreads⟩ := ih h
        obtain ⟨rfl, hpointed⟩ := hpoint
        exact ⟨hrest, '.' :: cs, rfl, Or.inr (Or.inr ⟨rfl, hpointed, hsep⟩), hreads.point hpointed⟩
      · obtain ⟨rfl, rfl⟩ := Prod.mk.inj (Except.ok.inj h)
        exact ⟨by simp [BeginsWithDigit, hc], [], rfl, trivial, .nil m⟩

/-- Nothing that a mantissa could go on with. -/
def Stops (rest : List Char) : Prop :=
  ∀ c, rest.head? = some c → c.isDigit = false ∧ c ≠ '_' ∧ c ≠ '.'

theorem scan_stops (hrest : Stops rest) (afterDigit : Bool) :
    m.scan afterDigit rest = .ok (m, rest) := by
  cases rest with
  | nil => rfl
  | cons c rest =>
    obtain ⟨hdigit, hunder, hpoint⟩ := hrest c rfl
    simp [scan, digit?_eq, hdigit, hunder, hpoint]

theorem scan_complete {afterDigit : Bool} (h : Separated afterDigit m.pointed cs)
    (hrest : Stops rest) :
    ∃ m', m.scan afterDigit (cs ++ rest) = .ok (m', rest) ∧ m.ReadsTo cs m' := by
  induction cs generalizing m afterDigit with
  | nil => exact ⟨m, scan_stops hrest afterDigit, .nil m⟩
  | cons c cs ih =>
    rw [Separated] at h
    rw [List.cons_append, scan, digit?_eq]
    rcases h with ⟨hc, h⟩ | ⟨rfl, hafter, hbegin, h⟩ | ⟨rfl, hpointed, h⟩
    · obtain ⟨m', hscan, hreads⟩ := @ih (m.push (c.toNat - '0'.toNat)) true h
      exact ⟨m', by simpa [hc] using hscan, hreads.digit hc⟩
    · obtain ⟨m', hscan, hreads⟩ := ih h
      have hstart : startsWithDigit (cs ++ rest) = true := by
        obtain ⟨d, hd, hdigit⟩ := hbegin
        exact (startsWithDigit_iff _).2 ⟨d, by simp [List.head?_append, hd], hdigit⟩
      exact ⟨m', by simpa [hafter, hstart] using hscan, hreads.separator⟩
    · obtain ⟨m', hscan, hreads⟩ := @ih { m with pointed := true } false h
      exact ⟨m', by simpa [hpointed] using hscan, hreads.point hpointed⟩

end Mantissa

/-! ## Exponents -/

def maxExponent : ℤ := 2 ^ 63 - 1

/-- What an exponent literal of the number `e` gives. -/
def readExponent (e : ℤ) : ℤ := max (-maxExponent) (min e maxExponent)

theorem exponentOfDigits_eq (ds : List Nat) :
    exponentOfDigits ds = min (Positional.ofDigits 10 ds : ℤ) maxExponent := by
  induction ds using List.reverseRecOn with
  | nil => rfl
  | append_singleton ds d ih =>
    rw [exponentOfDigits, List.foldl_append, ← exponentOfDigits, List.foldl_cons, List.foldl_nil, ih,
      Positional.ofDigits_append_singleton]
    simp only [saturated_eq, maxExponent]
    push_cast
    omega

theorem scanDigits_eq (text : List Char) : scanDigits text =
    (digitsOf (text.takeWhile Char.isDigit), text.dropWhile Char.isDigit) := by
  induction text with
  | nil => rfl
  | cons c text ih =>
    rw [scanDigits, digit?_eq]
    cases hc : c.isDigit with
    | true => simp [hc, ih, digitsOf_cons]
    | false => simp [hc, digitsOf]

theorem scanExponent_complete {text : List Char} {e : ℤ} (h : IsExponent text e) :
    scanExponent text = .ok (readExponent e, []) := by
  cases h with
  | absent => rfl
  | @literal mark sign ds negative hmark hsign hne hds =>
    have hscan : scanSign (sign ++ ds) = (negative, ds) := by
      apply scanSign_complete hsign
      intro c hc
      exact ne_sign_of_mantissa (Or.inl (hds c (List.mem_of_mem_head? hc)))
    have htake : ds.takeWhile Char.isDigit = ds := List.takeWhile_eq_self_iff.2 hds
    have hdrop : ds.dropWhile Char.isDigit = [] := List.dropWhile_eq_nil_iff.2 hds
    have hnonempty : digitsOf ds ≠ [] := by
      unfold digitsOf
      rw [List.filter_eq_self.2 hds]
      simpa using hne
    have hvalue : (if negative then -exponentOfDigits (digitsOf ds)
        else exponentOfDigits (digitsOf ds)) =
        readExponent (signFactor negative * Positional.ofDigits 10 (digitsOf ds)) := by
      rw [exponentOfDigits_eq, readExponent, signFactor, maxExponent]
      cases negative
      · simp only [Bool.false_eq_true, if_false, one_mul]
        omega
      · simp only [if_true, neg_one_mul]
        omega
    rw [scanExponent, if_pos hmark]
    simp only [hscan, scanDigits_eq, htake, hdrop]
    rw [if_neg (by simpa using hnonempty), hvalue]

theorem scanExponent_sound {text : List Char} {e' : ℤ} (h : scanExponent text = .ok (e', [])) :
    ∃ e, IsExponent text e := by
  cases text with
  | nil => exact ⟨0, .absent⟩
  | cons mark text =>
    rw [scanExponent] at h
    split at h
    · next hmark =>
      obtain ⟨⟨negative, rest⟩, hscan⟩ : ∃ split, scanSign text = split := ⟨_, rfl⟩
      obtain ⟨sign, hsign, rfl⟩ := scanSign_sound hscan
      simp only [hscan, scanDigits_eq] at h
      split at h
      · cases h
      · next hne =>
        have hdrop := (Prod.mk.inj (Except.ok.inj h)).2
        refine ⟨_, .literal hmark hsign (fun hnil => hne ?_) (List.dropWhile_eq_nil_iff.1 hdrop)⟩
        rw [hnil]
        rfl
    · cases h

/-- An exponent does not go on with what a mantissa could. -/
theorem IsExponent.stops {text : List Char} {e : ℤ} (h : IsExponent text e) :
    Mantissa.Stops text := by
  cases h with
  | absent => simp [Mantissa.Stops]
  | literal hmark =>
    intro c hc
    obtain rfl := Option.some.inj hc
    rcases hmark with rfl | rfl <;> decide

/-! ## Zeros at both ends -/

/-- Digits that neither begin nor end with zero. -/
structure Trimmed (ds : List ℕ) : Prop where
  head : ∃ d rest, ds = d :: rest ∧ d ≠ 0
  last : ∃ init d, ds = init ++ [d] ∧ d ≠ 0

theorem takeWhile_zero (ds : List Nat) :
    ds.takeWhile (· == 0) = List.replicate (ds.length - (ds.dropWhile (· == 0)).length) 0 := by
  have hlength := congrArg List.length (List.takeWhile_append_dropWhile (p := (· == 0)) (l := ds))
  rw [List.length_append] at hlength
  refine List.eq_replicate_iff.2 ⟨by omega, ?_⟩
  intro d hd
  simpa using List.mem_takeWhile_imp hd

/-- Digits are zeros only, or zeros before a digit that is not. -/
theorem zeros_or_append (ds : List ℕ) :
    (∃ n, ds = List.replicate n 0) ∨ ∃ n x xs, ds = List.replicate n 0 ++ x :: xs ∧ x ≠ 0 := by
  have hsplit := List.takeWhile_append_dropWhile (p := (· == 0)) (l := ds)
  rw [takeWhile_zero] at hsplit
  cases h : ds.dropWhile (· == 0) with
  | nil =>
    rw [h, List.append_nil] at hsplit
    exact Or.inl ⟨_, hsplit.symm⟩
  | cons x xs =>
    rw [h] at hsplit
    refine Or.inr ⟨_, x, xs, hsplit.symm, ?_⟩
    have := List.head?_dropWhile_not (· == 0) ds
    simpa [h] using this

/-- Digits are zeros only, or zeros around digits without. -/
theorem zeros_or_padded (ds : List ℕ) :
    (∃ n, ds = List.replicate n 0) ∨ ∃ before kept after, Trimmed kept ∧
      ds = List.replicate before 0 ++ kept ++ List.replicate after 0 := by
  rcases zeros_or_append ds with hzeros | ⟨before, x, xs, rfl, hx⟩
  · exact Or.inl hzeros
  · right
    rcases zeros_or_append xs.reverse with ⟨after, hrest⟩ | ⟨after, y, ys, hrest, hy⟩
    · rw [List.reverse_eq_iff, List.reverse_replicate] at hrest
      exact ⟨before, [x], after, ⟨⟨x, [], rfl, hx⟩, [], x, rfl, hx⟩, by simp [hrest]⟩
    · rw [List.reverse_eq_iff, List.reverse_append, List.reverse_cons, List.reverse_replicate] at hrest
      exact ⟨before, x :: (ys.reverse ++ [y]), after,
        ⟨⟨x, _, rfl, hx⟩, x :: ys.reverse, y, rfl, hy⟩, by simp [hrest]⟩

theorem dropWhile_zeros {ds : List ℕ} (h : ∃ d rest, ds = d :: rest ∧ d ≠ 0) (n : ℕ) :
    (List.replicate n 0 ++ ds).dropWhile (· == 0) = ds := by
  obtain ⟨d, rest, rfl, hd⟩ := h
  have hzeros : ∀ z ∈ List.replicate n 0, (z == 0) = true := by
    intro z hz
    rw [List.eq_of_mem_replicate hz]
    rfl
  rw [List.dropWhile_append_of_pos hzeros, List.dropWhile_cons_of_neg (by simpa using hd)]

variable {m : Mantissa} {ds : List ℕ} {before after : ℕ}

theorem ofMantissa?_zeros {n : ℕ} (hdigits : m.digits = List.replicate n 0) (exponent : ℤ) :
    ofMantissa? m exponent = none := by
  have hlow : m.digits.dropWhile (· == 0) = [] := by
    rw [hdigits]
    simp
  unfold ofMantissa?
  simp only [hlow]
  rfl

theorem ofMantissa?_padded (h : Trimmed ds)
    (hdigits : m.digits = (List.replicate before 0 ++ ds ++ List.replicate after 0).reverse)
    (exponent : ℤ) :
    ofMantissa? m exponent = some ⟨ds, saturated
      (saturated (saturated (-m.fractionLength) + exponent) + after)⟩ := by
  obtain ⟨init, d, hinit, hd⟩ := h.last
  obtain ⟨e, rest, hrest, -⟩ := h.head
  have hlow : m.digits.dropWhile (· == 0) = (List.replicate before 0 ++ ds).reverse := by
    rw [hdigits, List.reverse_append, List.reverse_replicate]
    apply dropWhile_zeros
    exact ⟨d, (List.replicate before 0 ++ init).reverse, by rw [hinit]; simp, hd⟩
  have htrailing : m.digits.length - (List.replicate before 0 ++ ds).reverse.length = after := by
    rw [hdigits, List.length_reverse, List.length_reverse, List.length_append, List.length_replicate]
    omega
  unfold ofMantissa?
  simp only [hlow, List.reverse_reverse, dropWhile_zeros h.head]
  rw [htrailing, if_neg (by simp [hrest])]

/-- Zeros behind the digits are a power of ten. -/
theorem ofDigits_padded (before after : ℕ) (ds : List ℕ) :
    Positional.ofDigits 10 (List.replicate before 0 ++ ds ++ List.replicate after 0) =
      Positional.ofDigits 10 ds * 10 ^ after := by
  rw [Positional.ofDigits_append_zeros, Positional.ofDigits_zeros_append]

/-- Zeros taken off behind the digits go into the exponent. -/
theorem value_add_trailing {N trailing : ℕ} (hvalue : N = Positional.ofDigits 10 ds * 10 ^ trailing)
    (k : ℤ) : (Decimal.mk ds (k + trailing)).value = N * 10 ^ k := by
  unfold value mantissa
  rw [hvalue, zpow_add₀ (by norm_num), zpow_natCast]
  push_cast
  ring

/-- Without the zeros at both ends the digits are zero's or a normal decimal's. -/
theorem ofMantissa?_cases (hlt : ∀ d ∈ m.digits, d < 10) (exponent : ℤ) :
    (ofMantissa? m exponent = none ∧ Positional.ofDigits 10 m.digits.reverse = 0) ∨
      ∃ (ds : List Nat) (trailing : Nat), (∀ e, Normal ⟨ds, e⟩) ∧
        ds.length + trailing ≤ m.digits.length ∧
        Positional.ofDigits 10 m.digits.reverse = Positional.ofDigits 10 ds * 10 ^ trailing ∧
        ofMantissa? m exponent = some ⟨ds, saturated
          (saturated (saturated (-m.fractionLength) + exponent) + trailing)⟩ := by
  rcases zeros_or_padded m.digits.reverse with ⟨n, hzeros⟩ | ⟨before, ds, after, htrimmed, hpadded⟩
  · refine Or.inl ⟨ofMantissa?_zeros (n := n) ?_ exponent, ?_⟩
    · rwa [List.reverse_eq_iff, List.reverse_replicate] at hzeros
    · rw [hzeros, Positional.ofDigits_replicate_zero]
  · have hdigits := List.reverse_eq_iff.1 hpadded
    refine Or.inr ⟨ds, after, fun e => ⟨fun d hd => hlt d ?_, htrimmed.head⟩, ?_, ?_,
      ofMantissa?_padded htrimmed hdigits exponent⟩
    · rw [hdigits, List.mem_reverse]
      exact List.mem_append_left _ (List.mem_append_right _ hd)
    · rw [hdigits, List.length_reverse, List.length_append, List.length_append, List.length_replicate,
        List.length_replicate]
      omega
    · rw [hpadded, ofDigits_padded]

/-! ## Literals -/

theorem lex_complete {cs text : List Char} {e : ℤ} (hm : IsMantissa cs) (he : IsExponent text e) :
    ∃ m : Mantissa, m.digits = (digitsOf cs).reverse ∧ m.fractionLength = fractionLengthOf cs ∧
      lex (cs ++ text) = .ok (ofMantissa? m (readExponent e)) := by
  obtain ⟨hsep, hne⟩ := (isMantissa_iff cs).1 hm
  obtain ⟨m, hscan, hreads⟩ := Mantissa.scan_complete (m := .start) hsep he.stops
  have hdigits : m.digits = (digitsOf cs).reverse := by simpa [Mantissa.start] using hreads.digits
  refine ⟨m, hdigits, by simpa [Mantissa.start] using hreads.fractionLength, ?_⟩
  unfold lex
  rw [hscan]
  simp [hdigits, hne, scanExponent_complete he]

/-- The zeros behind the digits are no more than the characters. -/
theorem after_le_length {cs : List Char}
    (hdigits : digitsOf cs = List.replicate before 0 ++ ds ++ List.replicate after 0) :
    after ≤ cs.length := by
  have hle := length_digitsOf_le cs
  rw [hdigits, List.length_append, List.length_replicate] at hle
  omega

/-- A literal of padded digits is read as the digits.  With counters and exponent below `2^62` no sum
saturates. -/
theorem lex_padded (h : Trimmed ds) {cs text : List Char} {e : ℤ} (hm : IsMantissa cs)
    (he : IsExponent text e) (hdigits : digitsOf cs = List.replicate before 0 ++ ds ++ List.replicate after 0)
    (hfraction : fractionLengthOf cs < 2 ^ 62) (hafter : after < 2 ^ 62) (hexp : |e| < 2 ^ 62) :
    lex (cs ++ text) = .ok (some ⟨ds, e - fractionLengthOf cs + after⟩) := by
  obtain ⟨m, hm', hlength, hlex⟩ := lex_complete hm he
  rw [hdigits] at hm'
  obtain ⟨hmin, hmax⟩ := abs_lt.1 hexp
  rw [hlex, ofMantissa?_padded h hm', hlength]
  simp only [saturated_eq, readExponent, maxExponent]
  congr 4
  omega

theorem lex_sound {text : List Char} {d? : Option Decimal} (h : lex text = .ok d?) :
    ∃ cs rest e, text = cs ++ rest ∧ IsMantissa cs ∧ IsExponent rest e := by
  unfold lex at h
  cases hscan : Mantissa.start.scan false text with
  | error fault => simp [hscan] at h
  | ok read =>
    obtain ⟨m, rest⟩ := read
    obtain ⟨-, cs, rfl, hsep, hreads⟩ := Mantissa.scan_sound hscan
    simp only [hscan] at h
    split at h
    · cases h
    · next hne =>
      have hdigits : digitsOf cs ≠ [] := by
        rw [hreads.digits] at hne
        simpa [Mantissa.start] using hne
      cases hexp : scanExponent rest with
      | error fault => simp [hexp] at h
      | ok result =>
        obtain ⟨e', rest'⟩ := result
        simp only [hexp] at h
        split at h
        · next hnil =>
          rw [List.isEmpty_iff.1 hnil] at hexp
          obtain ⟨e, he⟩ := scanExponent_sound hexp
          exact ⟨cs, rest, e, rfl, (isMantissa_iff cs).2 ⟨hsep, hdigits⟩, he⟩
        · cases h

/-- The decimal of a literal has no more digits than the text, and its exponent is a word. -/
theorem lex_some {text : List Char} {d : Decimal} (h : lex text = .ok (some d)) :
    d.Normal ∧ d.digits.length ≤ text.length ∧ -2 ^ 63 ≤ d.exp := by
  obtain ⟨cs, rest, e, rfl, hm, he⟩ := lex_sound h
  obtain ⟨m, hdigits, -, hlex⟩ := lex_complete hm he
  rw [h] at hlex
  have hlt : ∀ x ∈ m.digits, x < 10 := by
    rw [hdigits]
    intro x hx
    exact digitsOf_lt cs x (List.mem_reverse.1 hx)
  rcases ofMantissa?_cases hlt (readExponent e) with
    ⟨hnone, -⟩ | ⟨ds, trailing, hnormal, hlength, -, hsome⟩
  · rw [hnone] at hlex
    cases hlex
  · rw [hsome] at hlex
    obtain rfl := Option.some.inj (Except.ok.inj hlex)
    have hle := length_digitsOf_le cs
    rw [hdigits, List.length_reverse] at hlength
    refine ⟨hnormal _, ?_, ?_⟩
    · rw [List.length_append]
      dsimp only
      omega
    · rw [saturated_eq]
      exact le_max_left _ _

end MachineNumbers.Decimal
