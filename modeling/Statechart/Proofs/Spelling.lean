import Statechart.Json.Writer
import Statechart.Proofs.Grammar

/-!
How strings and numbers are written. A quoted string is a lexeme of its content whatever characters
are in it, and the digits of a natural number are a lexeme of the number.
-/
namespace Statechart.Token

theorem hexUnit_of_low :
    ∀ n < 0x20, hexUnit? '0' '0' (Json.hexDigit (n / 16)) (Json.hexDigit (n % 16)) = some n := by
  decide

theorem ofUnit_of_low {c : Char} (low : c.toNat < 0x20) : Piece.ofUnit c.toNat = .char c := by
  have whole : (isHighHalf c.toNat || isLowHalf c.toNat) = false := by
    simp [isHighHalf, isLowHalf]
    omega
  rw [Piece.ofUnit, whole]
  simp

theorem escape_spelled (c : Char) : Piece.Spelled (.char c) (Json.escape c) := by
  fun_cases Json.escape c
  case case8 _ _ _ _ _ _ _ low =>
    rw [← ofUnit_of_low low]
    exact .unit (hexUnit_of_low c.toNat low)
  case case9 no_quote no_backslash _ _ _ _ _ visible =>
    exact .literal (Nat.not_lt.mp visible) no_quote no_backslash
  all_goals exact .short rfl

theorem joined_chars (cs : List Char) : Piece.joined? (cs.map .char) = some cs := by
  induction cs with
  | nil => rfl
  | cons c cs ih => simp [Piece.joined?, ih]

theorem quote_lexeme (text : JsonText) : Lexeme (.string text) (Json.quote text) := by
  cases text with
  | none =>
    have unit : hexUnit? 'd' '8' '0' '0' = some 0xD800 := by decide
    have lone : Json.quote none = '"' :: ([['\\', 'u', 'd', '8', '0', '0']].flatten ++ ['"']) := by
      decide
    rw [lone]
    exact .string (.cons (.unit unit) .nil)
  | some text =>
    have content : some text = Piece.text (text.toList.map .char) := by
      rw [Piece.text, joined_chars, Option.map_some, String.ofList_toList]
    have spelled : Json.quote (some text)
        = '"' :: ((text.toList.map Json.escape).flatten ++ ['"']) := by
      rw [← List.flatMap_def]
      rfl
    rw [spelled, content]
    refine .string ?_
    rw [List.forall₂_map_left_iff, List.forall₂_map_right_iff, List.forall₂_same]
    exact fun c _ => escape_spelled c

theorem naturalOf_toDigits (n : Nat) : naturalOf (Nat.toDigits 10 n) = n := by
  have same : naturalOf (Nat.toDigits 10 n) = Nat.ofDigitChars 10 (Nat.toDigits 10 n) 0 := by
    simp only [naturalOf, Nat.ofDigitChars_eq_foldl, Nat.mul_comm]
  rw [same, Nat.ofDigitChars_ten_toDigits]

theorem isDigit_of_mem_toDigits {n : Nat} {c : Char} (member : c ∈ Nat.toDigits 10 n) :
    isDigit c := by
  have digit : c.isDigit := Nat.isDigit_of_mem_toDigits (by omega) (by omega) member
  simpa [isDigit, Char.isDigit, Char.le_def, UInt32.le_iff_toNat_le] using digit

theorem toDigits_front {n : Nat} (positive : 0 < n) :
    ∃ d ds, Nat.toDigits 10 n = d :: ds ∧ d ≠ '0' := by
  induction n using Nat.strongRecOn with
  | ind n ih =>
    by_cases small : n < 10
    · exact ⟨n.digitChar, [], Nat.toDigits_of_lt_base small, by simp; omega⟩
    · obtain ⟨d, ds, front, nonzero⟩ := ih (n / 10) (by omega) (by omega)
      refine ⟨d, ds ++ [(n % 10).digitChar], ?_, nonzero⟩
      rw [Nat.toDigits_of_base_le (by omega) (by omega), front, List.cons_append]

theorem toDigits_whole (n : Nat) : Whole (Nat.toDigits 10 n) := by
  rcases Nat.eq_zero_or_pos n with rfl | positive
  · exact .inl (Nat.toDigits_zero 10)
  · refine .inr ⟨⟨Nat.toDigits_ne_nil, fun c => isDigit_of_mem_toDigits⟩, ?_⟩
    obtain ⟨d, ds, front, nonzero⟩ := toDigits_front positive
    simpa [front] using nonzero

theorem natural_lexeme (n : Nat) : Lexeme (.scalar (.natural n)) (Nat.toDigits 10 n) := by
  have number := Number.natural (toDigits_whole n)
  rw [naturalOf_toDigits] at number
  exact .number number

end Statechart.Token
