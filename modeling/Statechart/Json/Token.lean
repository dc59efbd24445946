import Statechart.Json

/-!
The tokens of a JSON text. `Token.scan?` splits a text into its tokens and drops the blanks between
them; it fails where some part of the text is neither.
-/
namespace Statechart

inductive Token where
  | openArray
  | closeArray
  | openObject
  | closeObject
  | comma
  | colon
  | string (text : JsonText)
  | scalar (value : Json)

namespace Token

def isBlank (c : Char) : Bool := c = ' ' || c = '\t' || c = '\n' || c = '\r'

/-- A piece of a string: a character, or an escape that names half of a surrogate pair. -/
inductive Piece where
  | char (c : Char)
  | half (unit : Nat)

def isHighHalf (unit : Nat) : Bool := 0xD800 ≤ unit && unit < 0xDC00
def isLowHalf (unit : Nat) : Bool := 0xDC00 ≤ unit && unit < 0xE000

def Piece.ofUnit (unit : Nat) : Piece :=
  if isHighHalf unit || isLowHalf unit then .half unit else .char (Char.ofNat unit)

def joinHalves (high low : Nat) : Char :=
  Char.ofNat (0x10000 + (high - 0xD800) * 0x400 + (low - 0xDC00))

/-- Joins each high half with the low half right behind it; fails on a half that is left alone. -/
def Piece.joined? : List Piece → Option (List Char)
  | [] => some []
  | .char c :: rest => (joined? rest).map (c :: ·)
  | .half high :: .half low :: rest =>
    if isHighHalf high && isLowHalf low then (joined? rest).map (joinHalves high low :: ·) else none
  | .half _ :: _ => none

def hexDigit? (c : Char) : Option Nat :=
  if '0' ≤ c ∧ c ≤ '9' then some (c.toNat - '0'.toNat)
  else if 'a' ≤ c ∧ c ≤ 'f' then some (c.toNat - 'a'.toNat + 10)
  else if 'A' ≤ c ∧ c ≤ 'F' then some (c.toNat - 'A'.toNat + 10)
  else none

def hexUnit? (a b c d : Char) : Option Nat := do
  let a ← hexDigit? a
  let b ← hexDigit? b
  let c ← hexDigit? c
  let d ← hexDigit? d
  return ((a * 16 + b) * 16 + c) * 16 + d

def shortEscape? : Char → Option Char
  | '"' => some '"'
  | '\\' => some '\\'
  | '/' => some '/'
  | 'b' => some '\x08'
  | 'f' => some '\x0c'
  | 'n' => some '\n'
  | 'r' => some '\r'
  | 't' => some '\t'
  | _ => none

/-- The pieces up to the closing quote, and what follows the quote. Control characters may not
stand in a string. -/
def pieces? : List Char → Option (List Piece × List Char)
  | [] => none
  | '"' :: rest => some ([], rest)
  | '\\' :: 'u' :: a :: b :: c :: d :: rest => do
    let unit ← hexUnit? a b c d
    let (pieces, rest) ← pieces? rest
    return (.ofUnit unit :: pieces, rest)
  | '\\' :: e :: rest => do
    let c ← shortEscape? e
    let (pieces, rest) ← pieces? rest
    return (.char c :: pieces, rest)
  | c :: rest =>
    if c.toNat < 0x20 ∨ c = '\\' then none
    else do
      let (pieces, rest) ← pieces? rest
      return (.char c :: pieces, rest)

def Piece.text (pieces : List Piece) : JsonText := (joined? pieces).map String.ofList

def isDigit (c : Char) : Bool := '0' ≤ c && c ≤ '9'

def naturalOf (digits : List Char) : Nat :=
  digits.foldl (fun n c => n * 10 + (c.toNat - '0'.toNat)) 0

def digits? (cs : List Char) : Option (List Char × List Char) :=
  match cs.takeWhile isDigit with
  | [] => none
  | ds => some (ds, cs.dropWhile isDigit)

def whole? : List Char → Option (List Char × List Char)
  | '0' :: rest => some (['0'], rest)
  | cs => digits? cs

def fraction? : List Char → Option (List Char × List Char)
  | '.' :: rest => (digits? rest).map fun (ds, rest) => ('.' :: ds, rest)
  | cs => some ([], cs)

def exponentSign : List Char → List Char × List Char
  | '+' :: rest => (['+'], rest)
  | '-' :: rest => (['-'], rest)
  | cs => ([], cs)

def exponent? : List Char → Option (List Char × List Char)
  | c :: rest =>
    if c = 'e' ∨ c = 'E' then
      (digits? (exponentSign rest).2).map fun (ds, after) =>
        (c :: ((exponentSign rest).1 ++ ds), after)
    else some ([], c :: rest)
  | [] => some ([], [])

def unsigned? (cs : List Char) : Option ((List Char × List Char × List Char) × List Char) := do
  let (whole, rest) ← whole? cs
  let (fraction, rest) ← fraction? rest
  let (exponent, rest) ← exponent? rest
  return ((whole, fraction, exponent), rest)

def number? : List Char → Option (Json × List Char)
  | '-' :: rest => (unsigned? rest).map fun ((whole, fraction, exponent), rest) =>
    (.number ('-' :: (whole ++ fraction ++ exponent)), rest)
  | cs => (unsigned? cs).map fun ((whole, fraction, exponent), rest) =>
    (if fraction.isEmpty && exponent.isEmpty then .natural (naturalOf whole)
      else .number (whole ++ fraction ++ exponent), rest)

def read? : List Char → Option (Token × List Char)
  | '[' :: rest => some (.openArray, rest)
  | ']' :: rest => some (.closeArray, rest)
  | '\x7b' :: rest => some (.openObject, rest)
  | '\x7d' :: rest => some (.closeObject, rest)
  | ',' :: rest => some (.comma, rest)
  | ':' :: rest => some (.colon, rest)
  | '"' :: rest => (pieces? rest).map fun (pieces, rest) => (.string (Piece.text pieces), rest)
  | 'n' :: 'u' :: 'l' :: 'l' :: rest => some (.scalar .null, rest)
  | 't' :: 'r' :: 'u' :: 'e' :: rest => some (.scalar (.bool true), rest)
  | 'f' :: 'a' :: 'l' :: 's' :: 'e' :: rest => some (.scalar (.bool false), rest)
  | cs => (number? cs).map fun (value, rest) => (.scalar value, rest)

theorem pieces_shorter {cs : List Char} {pieces : List Piece} {rest : List Char}
    (read : pieces? cs = some (pieces, rest)) : rest.length < cs.length := by
  fun_induction pieces? cs generalizing pieces rest with
  | case1 => simp at read
  | case2 => simp_all
  | case3 a b c d tail ih =>
    simp only [bind, pure, Option.bind_eq_some_iff, Prod.exists, Option.some.injEq,
      Prod.mk.injEq] at read
    obtain ⟨_, _, _, _, below, _, rfl⟩ := read
    have := ih below
    simp only [List.length_cons]
    omega
  | case4 e tail _ ih =>
    simp only [bind, pure, Option.bind_eq_some_iff, Prod.exists, Option.some.injEq,
      Prod.mk.injEq] at read
    obtain ⟨_, _, _, _, below, _, rfl⟩ := read
    have := ih below
    simp only [List.length_cons]
    omega
  | case5 => simp at read
  | case6 c tail _ _ _ _ ih =>
    simp only [bind, pure, Option.bind_eq_some_iff, Prod.exists, Option.some.injEq,
      Prod.mk.injEq] at read
    obtain ⟨_, _, below, _, rfl⟩ := read
    have := ih below
    simp only [List.length_cons]
    omega

theorem digits_shorter {cs ds rest : List Char} (read : digits? cs = some (ds, rest)) :
    rest.length < cs.length := by
  have parts := congrArg List.length (List.takeWhile_append_dropWhile (p := isDigit) (l := cs))
  rw [List.length_append] at parts
  unfold digits? at read
  split at read
  · simp at read
  · rename_i taken some
    simp only [Option.some.injEq, Prod.mk.injEq] at read
    obtain ⟨rfl, rfl⟩ := read
    have : 0 < (cs.takeWhile isDigit).length := by
      cases h : cs.takeWhile isDigit with
      | nil => exact absurd h some
      | cons => simp
    omega

theorem whole_shorter {cs ds rest : List Char} (read : whole? cs = some (ds, rest)) :
    rest.length < cs.length := by
  unfold whole? at read
  split at read
  · simp_all
  · exact digits_shorter read

theorem fraction_no_longer {cs ds rest : List Char} (read : fraction? cs = some (ds, rest)) :
    rest.length ≤ cs.length := by
  unfold fraction? at read
  split at read
  · simp only [Option.map_eq_some_iff, Prod.exists, Prod.mk.injEq] at read
    obtain ⟨_, _, below, _, rfl⟩ := read
    have := digits_shorter below
    simp only [List.length_cons]
    omega
  · simp_all

theorem exponentSign_no_longer (cs : List Char) : (exponentSign cs).2.length ≤ cs.length := by
  unfold exponentSign
  split <;> simp

theorem exponent_no_longer {cs ds rest : List Char} (read : exponent? cs = some (ds, rest)) :
    rest.length ≤ cs.length := by
  unfold exponent? at read
  split at read
  · rename_i c tail
    split at read
    · simp only [Option.map_eq_some_iff, Prod.exists, Prod.mk.injEq] at read
      obtain ⟨_, _, below, _, rfl⟩ := read
      have := digits_shorter below
      have := exponentSign_no_longer tail
      simp only [List.length_cons]
      omega
    · simp_all
  · simp_all

theorem unsigned_shorter {cs rest : List Char} {parts : List Char × List Char × List Char}
    (read : unsigned? cs = some (parts, rest)) : rest.length < cs.length := by
  simp only [unsigned?, bind, pure, Option.bind_eq_some_iff, Prod.exists, Option.some.injEq,
    Prod.mk.injEq] at read
  obtain ⟨_, _, whole, _, _, fraction, _, _, exponent, _, rfl⟩ := read
  have := whole_shorter whole
  have := fraction_no_longer fraction
  have := exponent_no_longer exponent
  omega

theorem number_shorter {cs rest : List Char} {value : Json}
    (read : number? cs = some (value, rest)) : rest.length < cs.length := by
  unfold number? at read
  split at read
  · simp only [Option.map_eq_some_iff, Prod.exists, Prod.mk.injEq] at read
    obtain ⟨_, _, _, _, below, _, rfl⟩ := read
    exact Nat.lt_trans (unsigned_shorter below) (by simp)
  · simp only [Option.map_eq_some_iff, Prod.exists, Prod.mk.injEq] at read
    obtain ⟨_, _, _, _, below, _, rfl⟩ := read
    exact unsigned_shorter below

theorem read_shorter {cs rest : List Char} {token : Token} (read : read? cs = some (token, rest)) :
    rest.length < cs.length := by
  unfold read? at read
  split at read
  case h_7 tail =>
    simp only [Option.map_eq_some_iff, Prod.exists, Prod.mk.injEq] at read
    obtain ⟨_, _, below, _, rfl⟩ := read
    have := pieces_shorter below
    simp only [List.length_cons]
    omega
  case h_11 =>
    simp only [Option.map_eq_some_iff, Prod.exists, Prod.mk.injEq] at read
    obtain ⟨_, _, below, _, rfl⟩ := read
    exact number_shorter below
  all_goals
    simp only [Option.some.injEq, Prod.mk.injEq] at read
    obtain ⟨_, rfl⟩ := read
    simp only [List.length_cons]
    omega

def scan? : List Char → Option (List Token)
  | [] => some []
  | c :: rest =>
    if isBlank c then scan? rest
    else
      match _read : read? (c :: rest) with
      | none => none
      | some (token, after) => (scan? after).map (token :: ·)
termination_by cs => cs.length
decreasing_by
  · simp
  · exact read_shorter (by assumption)

end Token
end Statechart
