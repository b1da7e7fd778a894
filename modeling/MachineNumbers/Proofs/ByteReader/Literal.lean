import Mathlib
import MachineNumbers.BinaryFloat.ByteReader
import MachineNumbers.Proofs.Decimal.Literal
import MachineNumbers.Proofs.MachineWord
import MachineNumbers.Proofs.Positional
import MachineNumbers.Proofs.Utf8

/-!
# Literals in bytes

On the bytes of a text each scanner stops where the one on its characters does, and finds the same
(`run_bytes`, `scanExponent_bytes`).  What has been read is `done` and what is left is `rest`; the place
is the number of bytes of `done`.  So the whole literal is read alike, and no step fails (`lex_bytes`).
-/

namespace MachineNumbers.ByteReader

open MachineWord
open Utf8

/-! ## Bytes at places -/

theorem ne_of_wide {c n : Char} (hc : 128 ≤ c.toNat) (hn : n.toNat < 128) : c ≠ n := by
  rintro rfl
  omega

theorem digit?_of_wide {c : Char} (hc : 128 ≤ c.toNat) : Decimal.digit? c = none := by
  rw [Decimal.digit?, Positional.digitValue?, Positional.hexValue?_of_wide hc,
    Option.filter_none]

/-- The byte at a place inside a text is the next character, or both are wide. -/
theorem place_cases (done : List Char) (c : Char) (cs : List Char) :
    ∃ b, (bytes (done ++ c :: cs))[(bytes done).length]? = some b ∧
      ((charOf b = c ∧ (bytes (done ++ [c])).length = (bytes done).length + 1) ∨
        (128 ≤ c.toNat ∧ 128 ≤ (charOf b).toNat)) := by
  have hplace : (bytes (done ++ c :: cs))[(bytes done).length]? = (bytes (c :: cs)).head? := by
    rw [bytes_append, List.getElem?_append_right le_rfl, Nat.sub_self, List.head?_eq_getElem?]
  rw [hplace, bytes_cons, bytes_append, bytes_cons, bytes_nil, List.append_nil]
  rcases encodeChar_cases c with ⟨b, -, hc, h⟩ | ⟨hc, b, bs, hb, -, h⟩
  · exact ⟨b, by rw [h]; rfl, Or.inl ⟨hc, by rw [h, List.length_append]; rfl⟩⟩
  · exact ⟨b, by rw [h]; rfl, Or.inr ⟨hc, by rw [toNat_charOf]; omega⟩⟩

/-- The last byte of a text is its last character, or both are wide. -/
theorem concat_cases (done : List Char) (c : Char) :
    ∃ init b, bytes (done ++ [c]) = init ++ [b] ∧ (init = bytes done ∧ charOf b = c ∨
      128 ≤ c.toNat ∧ 128 ≤ (charOf b).toNat) := by
  rw [bytes_append, bytes_cons, bytes_nil, List.append_nil]
  rcases encodeChar_cases c with ⟨b, -, hc, h⟩ | ⟨hc, b, bs, hb, hbs, h⟩
  · exact ⟨bytes done, b, by rw [h], Or.inl ⟨rfl, hc⟩⟩
  · simp only [h, toNat_charOf]
    rcases List.eq_nil_or_concat' bs with rfl | ⟨bs, x, rfl⟩
    · exact ⟨bytes done, b, rfl, Or.inr ⟨hc, by omega⟩⟩
    · exact ⟨bytes done ++ b :: bs, x, by simp, Or.inr ⟨hc, (hbs x (by simp)).1⟩⟩

theorem place_end (done : List Char) : (bytes (done ++ []))[(bytes done).length]? = none := by
  rw [List.append_nil]
  exact List.getElem?_eq_none le_rfl

theorem isDigitAt_place (done rest : List Char) :
    isDigitAt (bytes (done ++ rest)) (bytes done).length = Decimal.startsWithDigit rest := by
  unfold isDigitAt
  cases rest with
  | nil =>
    rw [place_end]
    rfl
  | cons c cs =>
    obtain ⟨b, hb, ⟨hc, -⟩ | ⟨hc, hbc⟩⟩ := place_cases done c cs
    · rw [hb, Option.bind_some, hc]
      rfl
    · rw [hb, Option.bind_some, Decimal.startsWithDigit, digit?_of_wide hc, digit?_of_wide hbc]

def endsWithDigit (done : List Char) : Bool := (done.getLast?.bind Decimal.digit?).isSome

theorem endsWithDigit_concat (done : List Char) (c : Char) :
    endsWithDigit (done ++ [c]) = (Decimal.digit? c).isSome := by
  rw [endsWithDigit, List.getLast?_concat]
  rfl

theorem isBetweenDigits_place (done rest : List Char) :
    isBetweenDigits (bytes (done ++ '_' :: rest)) (bytes done).length =
      (endsWithDigit done && Decimal.startsWithDigit rest) := by
  have hafter : isDigitAt (bytes (done ++ '_' :: rest)) ((bytes done).length + 1) =
      Decimal.startsWithDigit rest := by
    have := isDigitAt_place (done ++ ['_']) rest
    rwa [List.append_assoc, bytes_append done ['_'], List.length_append] at this
  rcases List.eq_nil_or_concat' done with rfl | ⟨done, c, rfl⟩
  · rfl
  · obtain ⟨init, b, hlast, hb⟩ := concat_cases done c
    have hbefore : isDigitAt (bytes (done ++ [c] ++ '_' :: rest)) init.length =
        (Decimal.digit? (charOf b)).isSome := by
      unfold isDigitAt
      rw [bytes_append, hlast, List.append_assoc, List.getElem?_append_right le_rfl, Nat.sub_self]
      rfl
    rw [hlast, List.length_append, List.length_singleton] at hafter ⊢
    rw [isBetweenDigits, hafter, hbefore, endsWithDigit_concat]
    rcases hb with ⟨-, hb⟩ | ⟨hc, hb⟩
    · rw [hb]
    · rw [digit?_of_wide hc, digit?_of_wide hb]

/-! ## Mantissas -/

/-- What a scan knows of a mantissa. -/
def scanOf (done : List Char) (m : Decimal.Mantissa) : MantissaScan where
  digits := m.digits.reverse
  exp := Decimal.saturated (-m.fractionLength)
  pointed := m.pointed
  place := (bytes done).length

theorem scanOf_push (done : List Char) (c : Char) (m : Decimal.Mantissa) (d : Nat) :
    { (scanOf done m).push d with place := (bytes (done ++ [c])).length } =
      scanOf (done ++ [c]) (m.push d) := by
  have hexp : (if m.pointed then Decimal.saturated (Decimal.saturated (-m.fractionLength) - 1)
      else Decimal.saturated (-m.fractionLength)) =
      Decimal.saturated (-(m.fractionLength + m.pointed.toNat : Nat)) := by
    simp only [Decimal.saturated_eq]
    cases m.pointed
    · simp
    · simp only [if_true, Bool.toNat_true]
      omega
  unfold scanOf MantissaScan.push Decimal.Mantissa.push
  dsimp only
  rw [hexp, List.reverse_cons]

theorem run_of_none {text : List UInt8} {s : MantissaScan} (h : text[s.place]? = none) :
    s.run text = .ok s := by
  rw [MantissaScan.run, dif_neg (Nat.not_lt.2 (List.getElem?_eq_none_iff.1 h))]

theorem run_of_some {text : List UInt8} {s : MantissaScan} {b : UInt8}
    (h : text[s.place]? = some b) :
    s.run text = match Decimal.digit? (charOf b) with
      | some d => MantissaScan.run text { s.push d with place := s.place + 1 }
      | none =>
        if charOf b = '_' then
          if isBetweenDigits text s.place then MantissaScan.run text { s with place := s.place + 1 }
          else .error .misplacedSeparator
        else if charOf b = '.' ∧ s.pointed = false then
          MantissaScan.run text { s with pointed := true, place := s.place + 1 }
        else .ok s := by
  obtain ⟨hlt, rfl⟩ := List.getElem?_eq_some_iff.1 h
  rw [MantissaScan.run, dif_pos hlt]
  rfl

/-- On the bytes of a text the scan of a mantissa fails alike, or stops at the same place. -/
theorem run_bytes (done rest : List Char) (m : Decimal.Mantissa) :
    (∃ fault, m.scan (endsWithDigit done) rest = .error fault ∧
      (scanOf done m).run (bytes (done ++ rest)) = .error fault) ∨
    ∃ m' done' rest', m.scan (endsWithDigit done) rest = .ok (m', rest') ∧
      done ++ rest = done' ++ rest' ∧
      (scanOf done m).run (bytes (done ++ rest)) = .ok (scanOf done' m') := by
  induction rest generalizing done m with
  | nil => exact Or.inr ⟨m, done, [], rfl, rfl, run_of_none (place_end done)⟩
  | cons c cs ih =>
    obtain ⟨b, hplace, ⟨hc, hlength⟩ | ⟨hc, hbc⟩⟩ := place_cases done c cs
    · have hnext := ih (done ++ [c])
      rw [List.append_assoc, List.singleton_append, endsWithDigit_concat] at hnext
      rw [run_of_some hplace, Decimal.Mantissa.scan, hc]
      cases hd : Decimal.digit? c with
      | some d =>
        rw [hd] at hnext
        have := hnext (m.push d)
        rw [← scanOf_push, hlength] at this
        exact this
      | none =>
        rw [hd] at hnext
        dsimp only
        by_cases hunder : c = '_'
        · subst hunder
          rw [if_pos rfl, if_pos rfl, scanOf, isBetweenDigits_place]
          split
          · have := hnext m
            rw [scanOf, hlength] at this
            exact this
          · exact Or.inl ⟨_, rfl, rfl⟩
        · have hpointed : (scanOf done m).pointed = m.pointed := rfl
          rw [if_neg hunder, if_neg hunder, hpointed]
          by_cases hpoint : c = '.' ∧ m.pointed = false
          · rw [if_pos hpoint, if_pos hpoint]
            have := hnext { m with pointed := true }
            rw [scanOf, hlength] at this
            exact this
          · rw [if_neg hpoint, if_neg hpoint]
            exact Or.inr ⟨m, done, c :: cs, rfl, rfl, rfl⟩
    · -- a wide character ends a mantissa, and so does its first byte
      rw [run_of_some hplace, Decimal.Mantissa.scan, digit?_of_wide hc, digit?_of_wide hbc]
      dsimp only
      rw [if_neg (ne_of_wide hc (by decide)), if_neg (ne_of_wide hbc (by decide)),
        if_neg fun h => ne_of_wide hc (by decide) h.1,
        if_neg fun h => ne_of_wide hbc (by decide) h.1]
      exact Or.inr ⟨m, done, c :: cs, rfl, rfl, rfl⟩

/-! ## Exponents -/

theorem scanDigits_of_none {text : List UInt8} {place : Nat} (h : text[place]? = none) (e : ℤ) :
    scanDigits text place e = (e, place) := by
  rw [scanDigits, dif_neg (Nat.not_lt.2 (List.getElem?_eq_none_iff.1 h))]

theorem scanDigits_of_some {text : List UInt8} {place : Nat} {b : UInt8} (h : text[place]? = some b)
    (e : ℤ) : scanDigits text place e = match Decimal.digit? (charOf b) with
      | some d => scanDigits text (place + 1) (Decimal.saturated (Decimal.saturated (e * 10) + d))
      | none => (e, place) := by
  obtain ⟨hlt, rfl⟩ := List.getElem?_eq_some_iff.1 h
  rw [scanDigits, dif_pos hlt]
  rfl

/-- On the bytes of a text the same digits are read, of one byte each. -/
theorem scanDigits_bytes (done rest : List Char) (e : ℤ) :
    ∃ done', done ++ rest = done' ++ (Decimal.scanDigits rest).2 ∧
      (bytes done').length = (bytes done).length + (Decimal.scanDigits rest).1.length ∧
      scanDigits (bytes (done ++ rest)) (bytes done).length e =
        ((Decimal.scanDigits rest).1.foldl
          (fun (e : ℤ) (d : ℕ) => Decimal.saturated (Decimal.saturated (e * 10) + d)) e,
          (bytes done').length) := by
  induction rest generalizing done e with
  | nil => exact ⟨done, rfl, rfl, scanDigits_of_none (place_end done) e⟩
  | cons c cs ih =>
    obtain ⟨b, hplace, ⟨hc, hlength⟩ | ⟨hc, hbc⟩⟩ := place_cases done c cs
    · rw [scanDigits_of_some hplace, hc, Decimal.scanDigits]
      cases Decimal.digit? c with
      | none => exact ⟨done, rfl, rfl, rfl⟩
      | some d =>
        obtain ⟨done', hsplit, hlength', hscan⟩ :=
          ih (done ++ [c]) (Decimal.saturated (Decimal.saturated (e * 10) + d))
        rw [List.append_assoc, List.singleton_append] at hsplit hscan
        rw [hlength] at hlength' hscan
        refine ⟨done', hsplit, ?_, hscan⟩
        rw [hlength', List.length_cons]
        omega
    · rw [scanDigits_of_some hplace, Decimal.scanDigits, digit?_of_wide hc, digit?_of_wide hbc]
      exact ⟨done, rfl, rfl, rfl⟩

theorem scanSign_of_ne {c : Char} (hminus : c ≠ '-') (hplus : c ≠ '+') (cs : List Char) :
    Decimal.scanSign (c :: cs) = (false, c :: cs) := by
  have := @Decimal.scanSign_complete [] (c :: cs) false .absent (by simp [hminus, hplus])
  rwa [List.nil_append] at this

theorem scanSign_bytes (done rest : List Char) :
    ∃ done', done ++ rest = done' ++ (Decimal.scanSign rest).2 ∧
      scanSign (bytes (done ++ rest)) (bytes done).length =
        ((Decimal.scanSign rest).1, (bytes done').length) := by
  unfold scanSign
  cases rest with
  | nil =>
    rw [place_end]
    exact ⟨done, rfl, rfl⟩
  | cons c cs =>
    obtain ⟨b, hplace, hcases⟩ := place_cases done c cs
    rw [hplace]
    dsimp only
    rcases hcases with ⟨hc, hlength⟩ | ⟨hc, hbc⟩
    · rw [hc, ← hlength]
      by_cases hminus : c = '-'
      · subst hminus
        exact ⟨done ++ ['-'], List.append_cons _ _ _, rfl⟩
      · by_cases hplus : c = '+'
        · subst hplus
          exact ⟨done ++ ['+'], List.append_cons _ _ _, rfl⟩
        · rw [if_neg hminus, if_neg hplus, scanSign_of_ne hminus hplus]
          exact ⟨done, rfl, rfl⟩
    · rw [if_neg (ne_of_wide hbc (by decide)), if_neg (ne_of_wide hbc (by decide)),
        scanSign_of_ne (ne_of_wide hc (by decide)) (ne_of_wide hc (by decide))]
      exact ⟨done, rfl, rfl⟩

theorem saturated_saturated (n : ℤ) :
    Decimal.saturated (Decimal.saturated n) = Decimal.saturated n := by
  simp only [Decimal.saturated_eq]
  omega

/-- The negative of an exponent literal is a word too. -/
theorem signed_exponent (negative : Bool) (ds : List Nat) :
    (if negative then signed? 64 (-Decimal.exponentOfDigits ds)
      else some (Decimal.exponentOfDigits ds)) =
    some (if negative then -Decimal.exponentOfDigits ds else Decimal.exponentOfDigits ds) := by
  have hbounds : 0 ≤ Decimal.exponentOfDigits ds ∧ Decimal.exponentOfDigits ds < 2 ^ 63 := by
    rw [Decimal.exponentOfDigits_eq, Decimal.maxExponent]
    omega
  rw [signed?_of_bounds (by omega) (by omega)]
  cases negative
  · rfl
  · rfl

/-- On the bytes of a text an exponent fails alike, or is added and ends at the same place. -/
theorem scanExponent_bytes (done rest : List Char) (n : ℤ) :
    (∃ fault, Decimal.scanExponent rest = .error fault ∧
      scanExponent (bytes (done ++ rest)) (Decimal.saturated n) (bytes done).length =
        some (.error fault)) ∨
    ∃ e done' rest', Decimal.scanExponent rest = .ok (e, rest') ∧
      done ++ rest = done' ++ rest' ∧
      scanExponent (bytes (done ++ rest)) (Decimal.saturated n) (bytes done).length =
        some (.ok (Decimal.saturated (Decimal.saturated n + e), (bytes done').length)) := by
  -- without an exponent zero is added
  have habsent : done ++ rest = done ++ rest ∧
      some (Except.ok (Decimal.saturated n, (bytes done).length) : Except TextError _) =
        some (.ok (Decimal.saturated (Decimal.saturated n + 0), (bytes done).length)) :=
    ⟨rfl, by rw [add_zero, saturated_saturated]⟩
  unfold scanExponent
  cases rest with
  | nil =>
    rw [place_end]
    exact Or.inr ⟨0, done, [], rfl, habsent⟩
  | cons c cs =>
    obtain ⟨b, hplace, hcases⟩ := place_cases done c cs
    rw [hplace, Decimal.scanExponent]
    dsimp only
    rcases hcases with ⟨hc, hlength⟩ | ⟨hc, hbc⟩
    · rw [hc, ← hlength]
      by_cases hmark : c = 'e' ∨ c = 'E'
      · rw [if_pos hmark, if_pos hmark]
        obtain ⟨signed, hsplit, hsign⟩ := scanSign_bytes (done ++ [c]) cs
        generalize Decimal.scanSign cs = split at hsplit hsign ⊢
        obtain ⟨negative, body⟩ := split
        obtain ⟨done', hsplit', hlength', hdigits⟩ := scanDigits_bytes signed body 0
        dsimp only
        generalize Decimal.scanDigits body = read at hsplit' hlength' hdigits ⊢
        obtain ⟨ds, rest'⟩ := read
        rw [← hsplit] at hsplit' hdigits
        rw [List.append_assoc, List.singleton_append] at hsplit' hsign hdigits
        rw [hsign, hdigits]
        dsimp only at hlength' ⊢
        rw [← Decimal.exponentOfDigits]
        by_cases hempty : ds = []
        · subst hempty
          exact Or.inl ⟨_, rfl, if_pos hlength'⟩
        · have hstop : (bytes done').length ≠ (bytes signed).length := by
            have := List.length_pos_iff.2 hempty
            omega
          rw [if_neg (mt List.isEmpty_iff.1 hempty), if_neg hstop, signed_exponent]
          exact Or.inr ⟨_, done', rest', rfl, hsplit', rfl⟩
      · rw [if_neg hmark, if_neg hmark]
        exact Or.inr ⟨0, done, c :: cs, rfl, habsent⟩
    · have hmark : ∀ {d : Char}, 128 ≤ d.toNat → ¬(d = 'e' ∨ d = 'E') := by
        rintro d hd (rfl | rfl) <;> exact absurd hd (by decide)
      rw [if_neg (hmark hc), if_neg (hmark hbc)]
      exact Or.inr ⟨0, done, c :: cs, rfl, habsent⟩

/-! ## Literals -/

theorem findIdx?_nonzero {ds : List Nat} (h : ∃ d ∈ ds, d ≠ 0) :
    ds.findIdx? (· != 0) = some (ds.findIdx (· != 0)) ∧ ds.findIdx (· != 0) < ds.length := by
  have hlt : ds.findIdx (· != 0) < ds.length :=
    List.findIdx_lt_length_of_exists (by simpa using h)
  exact ⟨List.findIdx?_eq_some_iff_findIdx_eq.2 ⟨hlt, rfl⟩, hlt⟩

theorem dropWhile_zero (ds : List Nat) :
    ds.dropWhile (· == 0) = ds.drop (ds.findIdx (· != 0)) := List.dropWhile_eq_drop_findIdx_not

/-- Up to the last nonzero digit the digits are those left when the zeros at the other end are gone. -/
theorem take_reverse (ds : List Nat) {t : Nat} (ht : t < ds.length) :
    ds.reverse.take (ds.length - 1 - t + 1) = (ds.drop t).reverse := by
  rw [List.reverse_drop]
  congr 1
  omega

/-- The first nonzero digit stands before the zeros at the end, and so where it did. -/
theorem findIdx_reverse_drop {ds : List Nat} (h : ∃ d ∈ ds, d ≠ 0) :
    (ds.drop (ds.findIdx (· != 0))).reverse.findIdx (· != 0) = ds.reverse.findIdx (· != 0) ∧
      ds.reverse.findIdx (· != 0) < (ds.drop (ds.findIdx (· != 0))).reverse.length := by
  obtain ⟨-, hlt⟩ := findIdx?_nonzero h
  have hmem : ∃ d ∈ (ds.drop (ds.findIdx (· != 0))).reverse, d ≠ 0 := by
    refine ⟨ds[ds.findIdx (· != 0)], ?_, bne_iff_ne.1 (List.findIdx_getElem (w := hlt))⟩
    rw [List.mem_reverse, List.drop_eq_getElem_cons hlt]
    exact List.mem_cons_self
  obtain ⟨-, hkept⟩ := findIdx?_nonzero hmem
  have hsame : ds.reverse.findIdx (· != 0) =
      (ds.drop (ds.findIdx (· != 0))).reverse.findIdx (· != 0) := by
    conv_lhs => rw [← List.take_append_drop (ds.findIdx (· != 0)) ds, List.reverse_append]
    rw [List.findIdx_append, if_pos hkept]
  exact ⟨hsame.symm, hsame ▸ hkept⟩

/-- The zeros at both ends of the digits are found by their places. -/
theorem trimmed_eq (m : Decimal.Mantissa) (exponent : ℤ) :
    trimmed m.digits.reverse
        (Decimal.saturated (Decimal.saturated (-m.fractionLength) + exponent)) =
      some (Decimal.ofMantissa? m exponent) := by
  generalize hn : Decimal.saturated (Decimal.saturated (-m.fractionLength) + exponent) = n
  unfold trimmed Decimal.ofMantissa? lastNonzero?
  rw [hn]
  dsimp only
  by_cases hzeros : ∀ d ∈ m.digits, d = 0
  · have hnone : m.digits.reverse.findIdx? (· != 0) = none :=
      List.findIdx?_eq_none_iff.2 (by simpa using hzeros)
    have hlow : m.digits.dropWhile (· == 0) = [] :=
      List.dropWhile_eq_nil_iff.2 (by simpa using hzeros)
    rw [hnone, hlow]
    rfl
  · have hnonzero : ∃ d ∈ m.digits, d ≠ 0 := by simpa using hzeros
    obtain ⟨hlast, hlt⟩ := findIdx?_nonzero hnonzero
    obtain ⟨hfirst, -⟩ := @findIdx?_nonzero m.digits.reverse (by simpa using hnonzero)
    obtain ⟨hsame, hkept⟩ := findIdx_reverse_drop hnonzero
    rw [hfirst, List.reverse_reverse, hlast, dropWhile_zero, dropWhile_zero, hsame]
    generalize m.digits.findIdx (· != 0) = t at hlt hkept ⊢
    simp only [Option.map_some, Option.getD_some, List.length_reverse]
    rw [bind_of_some (difference?_of_le (by omega)), bind_of_some (difference?_of_le (by omega)),
      take_reverse _ hlt, bind_of_some (difference?_of_le hkept.le), if_neg]
    · rw [List.length_drop, show m.digits.length - 1 - (m.digits.length - 1 - t) =
        m.digits.length - (m.digits.length - t) by omega]
    · rw [List.isEmpty_iff, List.drop_eq_nil_iff]
      omega

/-- The bytes of a text are read as the literal that the text is, and no step fails. -/
theorem lex_bytes (text : List Char) : lex (bytes text) = some (Decimal.lex text) := by
  have hstart : scanOf [] .start = .start := rfl
  have hlength : ∀ {done rest : List Char}, text = done ++ rest →
      ((bytes done).length = (bytes text).length ↔ rest = []) := by
    rintro done rest rfl
    rw [bytes_append, List.length_append, ← bytes_eq_nil_iff, ← List.length_eq_zero_iff]
    omega
  have hrun := run_bytes [] text .start
  rw [List.nil_append, hstart, show endsWithDigit [] = false from rfl] at hrun
  unfold lex Decimal.lex
  rcases hrun with ⟨fault, hscan, hrun⟩ | ⟨m, done, rest, hscan, hsplit, hrun⟩
  · rw [hrun, hscan]
  · rw [hrun, hscan]
    have hempty : (scanOf done m).digits.isEmpty = m.digits.isEmpty := List.isEmpty_reverse
    dsimp only
    rw [hempty]
    by_cases hnone : m.digits.isEmpty = true
    · have hplace : (scanOf done m).place = (bytes done).length := rfl
      rw [if_pos hnone, if_pos hnone, hplace]
      simp only [hlength hsplit, List.isEmpty_iff]
    · rw [if_neg hnone, if_neg hnone, hsplit, scanOf]
      rcases scanExponent_bytes done rest (-m.fractionLength) with
        ⟨fault, hexp, hread⟩ | ⟨e, done', rest', hexp, hsplit', hread⟩
      · rw [hread, hexp]
        rfl
      · rw [hread, hexp]
        rw [hsplit] at hlength
        simp only [Option.bind_eq_bind, Option.bind_some, hlength hsplit', List.isEmpty_iff, trimmed_eq]
        split <;> rfl

end MachineNumbers.ByteReader
