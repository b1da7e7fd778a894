import Mathlib
import MachineNumbers.Proofs.ByteReader.Literal
import MachineNumbers.Proofs.Reading.Special

/-!
# Special names in bytes

The bytes of a text begin with a name where its characters do, and then they can be cut behind it
(`dropName_bytes`), so special names and payloads are read alike (`parseSpecial?_bytes`).
-/

namespace MachineNumbers.ByteReader

open MachineWord
open Utf8

variable {fmt : FloatFormat}

/-! ## Names -/

/-- The text can be cut behind a name that it begins with, since a name in either case is narrow. -/
theorem dropName_bytes {name : List Char} (hname : Narrow name) (text : List Char) :
    Utf8.dropName name (bytes text) = some ((BinaryFloat.dropName name text).map bytes) := by
  unfold Utf8.dropName
  cases hdrop : BinaryFloat.dropName name text with
  | some rest =>
    obtain ⟨head, hhead, rfl⟩ := BinaryFloat.dropName_eq_some_iff.1 hdrop
    rw [← length_bytes_of_toLower hname hhead, takeBytes?_append, dropBytes?_append]
    dsimp only
    rw [isName_bytes hname, if_pos (decide_eq_true hhead)]
    rfl
  | none =>
    cases htake : takeBytes? (bytes text) name.length with
    | none => rfl
    | some head =>
      obtain ⟨xs, ys, rfl, rfl⟩ := exists_of_takeBytes? htake
      dsimp only
      rw [isName_bytes hname, if_neg]
      · rfl
      · intro h
        rw [BinaryFloat.dropName_append (of_decide_eq_true h)] at hdrop
        cases hdrop

theorem narrow_names : Narrow "inf".toList ∧ Narrow "infinity".toList ∧ Narrow "nan".toList ∧
    Narrow "snan".toList ∧ Narrow ['(', '0', 'x'] := by
  simp [Narrow]

/-! ## Payloads -/

theorem mapM_hexValue?_bytes (hex : List Char) :
    (bytes hex).mapM (fun b => Positional.hexValue? (charOf b)) =
      hex.mapM Positional.hexValue? := by
  induction hex with
  | nil => rfl
  | cons c cs ih =>
    rcases bytes_cons_cases c cs with ⟨b, -, hc, h⟩ | ⟨hc, b, bs, hb, -, h⟩
    · rw [h, List.mapM_cons, List.mapM_cons, hc, ih]
    · have hbc : 128 ≤ (charOf b).toNat := by
        rw [toNat_charOf]
        omega
      rw [h, List.mapM_cons, List.mapM_cons, Positional.hexValue?_of_wide hc,
        Positional.hexValue?_of_wide hbc]
      rfl

/-- A text ends with a narrow character where its bytes do. -/
theorem getLast?_bytes {n : Char} (hn : n.toNat < 128) (text : List Char) :
    (bytes text).getLast?.map charOf = some n ↔ text.getLast? = some n := by
  rcases List.eq_nil_or_concat' text with rfl | ⟨init, c, rfl⟩
  · simp [bytes_nil]
  · obtain ⟨init', b, h, hb⟩ := concat_cases init c
    rw [h, List.getLast?_concat, List.getLast?_concat, Option.map_some, Option.some_inj,
      Option.some_inj]
    rcases hb with ⟨-, hb⟩ | ⟨hc, hb⟩
    · rw [hb]
    · exact iff_of_false (ne_of_wide hb hn) (ne_of_wide hc hn)

theorem maxPayload_lt (fmt : FloatFormat) : fmt.maxPayload < 2 ^ 64 := by
  have hquiet : fmt.quietBit ≤ 2 ^ 51 :=
    Nat.pow_le_pow_right (by decide) (by have := fmt.fractionBits_le; omega)
  unfold FloatFormat.maxPayload
  omega

theorem dropLast_bytes {n : Char} (hn : n.toNat < 128) (init : List Char) :
    (bytes (init ++ [n])).dropLast = bytes init := by
  obtain ⟨init', b, h, ⟨rfl, -⟩ | ⟨hc, -⟩⟩ := concat_cases init n
  · rw [h, List.dropLast_concat]
  · omega

/-- No payload of a format needs more than its word. -/
theorem parsePayload_bytes (text : List Char) :
    parsePayload fmt (bytes text) = some (BinaryFloat.parsePayload fmt text) := by
  unfold parsePayload BinaryFloat.parsePayload
  rw [dropName_bytes narrow_names.2.2.2.2]
  cases BinaryFloat.dropName ['(', '0', 'x'] text with
  | none => rfl
  | some rest =>
    simp only [Option.bind_eq_bind, Option.bind_some, Option.map_some, ne_eq,
      getLast?_bytes (n := ')') (by decide)]
    by_cases hlast : rest.getLast? = some ')'
    · obtain ⟨hex, rfl⟩ := List.getLast?_eq_some_iff.1 hlast
      rw [if_neg (not_not.2 hlast), if_neg (not_not.2 hlast), dropLast_bytes (by decide),
        List.dropLast_concat]
      have hempty : (bytes hex).isEmpty = hex.isEmpty := by
        rw [Bool.eq_iff_iff, List.isEmpty_iff, List.isEmpty_iff, bytes_eq_nil_iff]
      rw [hempty, mapM_hexValue?_bytes]
      split
      · rfl
      · cases hex.mapM Positional.hexValue? with
        | none => rfl
        | some ds =>
          have hmax := maxPayload_lt fmt
          dsimp only
          by_cases hle : Positional.ofDigits 16 ds ≤ fmt.maxPayload
          · rw [unsigned?_of_lt (hle.trans_lt hmax), if_pos hle]
            exact if_neg (Nat.not_lt.2 hle)
          · rw [if_neg hle]
            by_cases hword : Positional.ofDigits 16 ds < 2 ^ 64
            · rw [unsigned?_of_lt hword]
              exact if_pos (Nat.lt_of_not_le hle)
            · rw [unsigned?_of_ge (Nat.le_of_not_lt hword)]
    · rw [if_pos hlast, if_pos hlast]

theorem parseNaN_bytes (base : BinaryFloat fmt) (text : List Char) :
    parseNaN base (bytes text) = some (BinaryFloat.parseNaN base text) := by
  have hempty : (bytes text).isEmpty = text.isEmpty := by
    rw [Bool.eq_iff_iff, List.isEmpty_iff, List.isEmpty_iff, bytes_eq_nil_iff]
  unfold parseNaN BinaryFloat.parseNaN
  rw [parsePayload_bytes, hempty]
  split <;> rfl

theorem parseSpecial?_bytes (text : List Char) :
    (parseSpecial? (bytes text) : Option (Except _ (Option (BinaryFloat fmt)))) =
      some (BinaryFloat.parseSpecial? text) := by
  obtain ⟨hinf, hinfinity, hnan, hsnan, -⟩ := narrow_names
  unfold parseSpecial? BinaryFloat.parseSpecial?
  simp only [isName_bytes hinf, isName_bytes hinfinity, dropName_bytes hnan, dropName_bytes hsnan,
    BinaryFloat.dropName_self, Bool.or_eq_true, decide_eq_true_eq]
  split
  · rfl
  · cases BinaryFloat.dropName "snan".toList text with
    | some rest =>
      simp [parseNaN_bytes]
    | none =>
      cases BinaryFloat.dropName "nan".toList text with
      | some rest => simp [parseNaN_bytes]
      | none => rfl

end MachineNumbers.ByteReader
