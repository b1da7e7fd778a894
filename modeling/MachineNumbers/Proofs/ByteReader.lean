import Mathlib
import MachineNumbers.Proofs.ByteReader.Name
import MachineNumbers.Proofs.Checked.Decimal

/-!
# Reading in bytes does not fail

In bytes and machine words every text of less than `2^28` bytes is read to its end without a step that
stops the program, and as the characters are (`parse_bytes`).
-/

namespace MachineNumbers.ByteReader

open MachineWord (bind_of_some)
open Utf8

theorem splitSign_bytes (text : List Char) : splitSign (bytes text) =
    some ((Decimal.scanSign text).1, bytes (Decimal.scanSign text).2) := by
  cases text with
  | nil => rfl
  | cons c cs =>
    obtain ⟨b, hb, hcases⟩ := place_cases [] c cs
    rw [List.nil_append, bytes_nil, List.length_nil, ← List.head?_eq_getElem?] at hb
    unfold splitSign
    rw [hb, Option.map_some]
    rcases hcases with ⟨hc, hlength⟩ | ⟨hc, hbc⟩
    · -- behind a narrow character the text can be cut
      have hdrop := dropBytes?_append [c] cs
      rw [List.singleton_append, show (bytes [c]).length = 1 from hlength] at hdrop
      rw [hc]
      by_cases hminus : c = '-'
      · subst hminus
        rw [hdrop]
        rfl
      · by_cases hplus : c = '+'
        · subst hplus
          rw [hdrop]
          rfl
        · rw [scanSign_of_ne hminus hplus]
          simp [hminus, hplus]
    · rw [scanSign_of_ne (ne_of_wide hc (by decide)) (ne_of_wide hc (by decide))]
      simp [ne_of_wide hbc (n := '-') (by decide), ne_of_wide hbc (n := '+') (by decide)]

/-- The bytes of a text are read as the text is, and no step fails. -/
theorem parse_bytes (fmt : FloatFormat) {text : String} (hsize : text.utf8ByteSize < 2 ^ 28) :
    parse fmt (bytes text.toList) = some (BinaryFloat.parse text) := by
  have htext := (BinaryFloat.length_le_utf8ByteSize text).trans_lt hsize
  obtain ⟨⟨negative, body⟩, hscan⟩ : ∃ split, Decimal.scanSign text.toList = split := ⟨_, rfl⟩
  obtain ⟨sign, -, hsplit⟩ := Decimal.scanSign_sound hscan
  have hbody : body.length < 2 ^ 28 := by
    rw [hsplit, List.length_append] at htext
    omega
  unfold parse BinaryFloat.parse
  rw [bind_of_some (splitSign_bytes text.toList), hscan]
  dsimp only
  rw [bind_of_some (parseSpecial?_bytes body)]
  cases (BinaryFloat.parseSpecial? body : Except _ (Option (BinaryFloat fmt))) with
  | error fault => rfl
  | ok special =>
    cases special with
    | some special => rfl
    | none =>
      dsimp only
      rw [bind_of_some (lex_bytes body)]
      cases hlex : Decimal.lex body with
      | error fault => rfl
      | ok d? =>
        cases d? with
        | none => rfl
        | some d =>
          obtain ⟨hnormal, hlength, hexp⟩ := Decimal.lex_some hlex
          dsimp only
          rw [Checked.ofDecimal?_eq hnormal (hlength.trans_lt hbody) hexp]
          rfl

end MachineNumbers.ByteReader
