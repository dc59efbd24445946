import Mathlib.Data.List.Chain
import Mathlib.Data.List.Forall2
import Mathlib.Data.List.TakeWhile
import Statechart.Json.Token

/-!
The grammar of tokens. It tells which characters may spell a token, whatever stands around them and
in whatever order they are read. The scanner finds the tokens of every text in which no number runs
into the next one, and it finds nothing else. Main results: `scan_of_spelled` and `spelled_of_scan`.
-/
namespace Statechart.Token

/-- A character of a string stands for itself or is escaped. Half of a surrogate pair can only
be escaped. -/
inductive Piece.Spelled : Piece → List Char → Prop
  | literal {c : Char} (visible : 0x20 ≤ c.toNat) (no_quote : c ≠ '"') (no_backslash : c ≠ '\\') :
    Spelled (.char c) [c]
  | short {letter c : Char} (names : shortEscape? letter = some c) :
    Spelled (.char c) ['\\', letter]
  | unit {a b c d : Char} {unit : Nat} (names : hexUnit? a b c d = some unit) :
    Spelled (.ofUnit unit) ['\\', 'u', a, b, c, d]

def Digits (ds : List Char) : Prop := ds ≠ [] ∧ ∀ c ∈ ds, isDigit c

def Whole (ds : List Char) : Prop := ds = ['0'] ∨ Digits ds ∧ ds.head? ≠ some '0'

inductive Fraction : List Char → Prop
  | none : Fraction []
  | some {ds : List Char} (digits : Digits ds) : Fraction ('.' :: ds)

inductive Exponent : List Char → Prop
  | none : Exponent []
  | some {mark : Char} {sign ds : List Char} (marked : mark = 'e' ∨ mark = 'E')
    (signed : sign = [] ∨ sign = ['+'] ∨ sign = ['-']) (digits : Digits ds) :
    Exponent (mark :: (sign ++ ds))

inductive Number : Json → List Char → Prop
  | natural {whole : List Char} (digits : Whole whole) :
    Number (.natural (naturalOf whole)) whole
  | negative {whole fraction exponent : List Char} (digits : Whole whole)
    (point : Fraction fraction) (mark : Exponent exponent) :
    Number (.number ('-' :: (whole ++ fraction ++ exponent)))
      ('-' :: (whole ++ fraction ++ exponent))
  | positive {whole fraction exponent : List Char} (digits : Whole whole)
    (point : Fraction fraction) (mark : Exponent exponent)
    (more : fraction ≠ [] ∨ exponent ≠ []) :
    Number (.number (whole ++ fraction ++ exponent)) (whole ++ fraction ++ exponent)

inductive Lexeme : Token → List Char → Prop
  | openArray : Lexeme .openArray ['[']
  | closeArray : Lexeme .closeArray [']']
  | openObject : Lexeme .openObject ['\x7b']
  | closeObject : Lexeme .closeObject ['\x7d']
  | comma : Lexeme .comma [',']
  | colon : Lexeme .colon [':']
  | null : Lexeme (.scalar .null) ['n', 'u', 'l', 'l']
  | true : Lexeme (.scalar (.bool true)) ['t', 'r', 'u', 'e']
  | false : Lexeme (.scalar (.bool false)) ['f', 'a', 'l', 's', 'e']
  | string {pieces : List Piece} {parts : List (List Char)}
    (spelled : List.Forall₂ Piece.Spelled pieces parts) :
    Lexeme (.string (Piece.text pieces)) ('"' :: (parts.flatten ++ ['"']))
  | number {value : Json} {lexeme : List Char} (number : Number value lexeme) :
    Lexeme (.scalar value) lexeme

/-- The characters are those of the tokens, in order, with any blanks around them. -/
inductive Spelled : List Token → List Char → Prop
  | done : Spelled [] []
  | blank {c : Char} {tokens : List Token} {cs : List Char} (blank : isBlank c)
    (behind : Spelled tokens cs) : Spelled tokens (c :: cs)
  | token {token : Token} {front : List Char} {tokens : List Token} {cs : List Char}
    (lexeme : Lexeme token front) (behind : Spelled tokens cs) :
    Spelled (token :: tokens) (front ++ cs)

namespace Spelled

variable {token : Token} {tokens more : List Token} {front cs : List Char}

theorem single (lexeme : Lexeme token front) : Spelled [token] front := by
  have alone := Spelled.token lexeme .done
  rwa [List.append_nil] at alone

theorem append (first : Spelled tokens front) (second : Spelled more cs) :
    Spelled (tokens ++ more) (front ++ cs) := by
  induction first with
  | done => exact second
  | blank blank _ ih => exact .blank blank ih
  | token lexeme _ ih =>
    rw [List.append_assoc]
    exact .token lexeme ih

theorem indented (blanks : ∀ c ∈ front, isBlank c) (behind : Spelled tokens cs) :
    Spelled tokens (front ++ cs) := by
  induction front with
  | nil => exact behind
  | cons c front ih =>
    rw [List.forall_mem_cons] at blanks
    exact .blank blanks.1 (ih blanks.2)

end Spelled

theorem pieces_of_piece {piece : Piece} {front : List Char} (spelled : piece.Spelled front)
    (cs : List Char) :
    pieces? (front ++ cs) = (pieces? cs).map fun read => (piece :: read.1, read.2) := by
  have one_more (result : Option (List Piece × List Char)) :
      (result >>= fun read => some (piece :: read.1, read.2)) =
        result.map fun read => (piece :: read.1, read.2) := by
    cases result <;> rfl
  cases spelled with
  | @literal c visible no_quote no_backslash =>
    rw [List.singleton_append, pieces?]
    · rw [if_neg fun refused => refused.elim (by omega) no_backslash]
      exact one_more _
    -- No earlier pattern of the reader takes the character.
    · exact no_quote
    all_goals
      intros
      exact no_backslash ‹_›
  | @short letter c names =>
    rw [List.cons_append, List.singleton_append, pieces?, names]
    · exact one_more _
    · rintro _ _ _ _ _ rfl
      cases names
  | @unit a b c d unit names =>
    simp only [List.cons_append, List.nil_append]
    rw [pieces?, names]
    exact one_more _

theorem pieces_of_spelled {pieces : List Piece} {parts : List (List Char)}
    (spelled : List.Forall₂ Piece.Spelled pieces parts) (rest : List Char) :
    pieces? (parts.flatten ++ '"' :: rest) = some (pieces, rest) := by
  induction spelled with
  | nil => rfl
  | cons first _ ih =>
    rw [List.flatten_cons, List.append_assoc, pieces_of_piece first, ih]
    rfl

theorem spelled_of_pieces {cs : List Char} {pieces : List Piece} {rest : List Char}
    (read : pieces? cs = some (pieces, rest)) :
    ∃ parts, List.Forall₂ Piece.Spelled pieces parts ∧ cs = parts.flatten ++ '"' :: rest := by
  fun_induction pieces? cs generalizing pieces rest with
  | case1 => cases read
  | case2 =>
    cases read
    exact ⟨[], .nil, rfl⟩
  | case3 a b c d tail ih =>
    simp only [bind, pure, Option.bind_eq_some_iff, Prod.exists, Option.some.injEq,
      Prod.mk.injEq] at read
    obtain ⟨unit, names, others, after, below, rfl, rfl⟩ := read
    obtain ⟨parts, spelled, rfl⟩ := ih below
    exact ⟨_ :: parts, .cons (.unit names) spelled, by simp⟩
  | case4 letter tail _ ih =>
    simp only [bind, pure, Option.bind_eq_some_iff, Prod.exists, Option.some.injEq,
      Prod.mk.injEq] at read
    obtain ⟨c, names, others, after, below, rfl, rfl⟩ := read
    obtain ⟨parts, spelled, rfl⟩ := ih below
    exact ⟨_ :: parts, .cons (.short names) spelled, by simp⟩
  | case5 => cases read
  | case6 c tail no_quote _ _ allowed ih =>
    simp only [bind, pure, Option.bind_eq_some_iff, Prod.exists, Option.some.injEq,
      Prod.mk.injEq] at read
    obtain ⟨others, after, below, rfl, rfl⟩ := read
    obtain ⟨parts, spelled, rfl⟩ := ih below
    rw [not_or, Nat.not_lt] at allowed
    exact ⟨[c] :: parts, .cons (.literal allowed.1 no_quote allowed.2) spelled, by simp⟩

def inNumber (c : Char) : Bool := isDigit c || c = '.' || c = 'e' || c = 'E'

def Breaks (rest : List Char) : Prop := ∀ c ∈ rest.head?, inNumber c = false

theorem digits_of_append {ds rest : List Char} (digits : Digits ds)
    (stop : ∀ c ∈ rest.head?, isDigit c = false) : digits? (ds ++ rest) = some (ds, rest) := by
  have none_taken : rest.takeWhile isDigit = [] := by
    cases rest with
    | nil => rfl
    | cons c cs => simp [stop c rfl]
  have none_dropped : rest.dropWhile isDigit = rest := by
    cases rest with
    | nil => rfl
    | cons c cs => simp [stop c rfl]
  have some_digit := digits.1
  simp only [digits?, List.takeWhile_append_of_pos digits.2, List.dropWhile_append_of_pos digits.2,
    none_taken, none_dropped, List.append_nil]

theorem digits_of_read {cs ds rest : List Char} (read : digits? cs = some (ds, rest)) :
    Digits ds ∧ cs = ds ++ rest := by
  unfold digits? at read
  split at read
  · cases read
  · rename_i some_digit
    simp only [Option.some.injEq, Prod.mk.injEq] at read
    obtain ⟨rfl, rfl⟩ := read
    exact ⟨⟨some_digit, fun c member => List.mem_takeWhile_imp member⟩,
      List.takeWhile_append_dropWhile.symm⟩

theorem whole_of_append {ds rest : List Char} (whole : Whole ds)
    (stop : ∀ c ∈ rest.head?, isDigit c = false) : whole? (ds ++ rest) = some (ds, rest) := by
  rcases whole with rfl | ⟨digits, no_zero⟩
  · rfl
  · obtain ⟨d, others, rfl⟩ := List.exists_cons_of_ne_nil digits.1
    rw [← digits_of_append digits stop, List.cons_append, whole?]
    rintro _ same
    obtain ⟨rfl, -⟩ := List.cons.inj same
    exact no_zero rfl

theorem whole_of_read {cs ds rest : List Char} (read : whole? cs = some (ds, rest)) :
    Whole ds ∧ cs = ds ++ rest := by
  unfold whole? at read
  split at read
  · cases read
    exact ⟨.inl rfl, rfl⟩
  · rename_i no_zero
    obtain ⟨digits, rfl⟩ := digits_of_read read
    refine ⟨.inr ⟨digits, ?_⟩, rfl⟩
    rw [ne_eq, List.head?_eq_some_iff]
    rintro ⟨others, rfl⟩
    exact no_zero _ rfl

theorem fraction_of_append {fraction rest : List Char} (point : Fraction fraction)
    (stop : ∀ c ∈ rest.head?, isDigit c = false ∧ c ≠ '.') :
    fraction? (fraction ++ rest) = some (fraction, rest) := by
  cases point with
  | none =>
    rw [List.nil_append, fraction?]
    rintro _ rfl
    exact (stop _ rfl).2 rfl
  | some digits =>
    rw [List.cons_append, fraction?, digits_of_append digits fun c front => (stop c front).1]
    rfl

theorem fraction_of_read {cs fraction rest : List Char}
    (read : fraction? cs = some (fraction, rest)) :
    Fraction fraction ∧ cs = fraction ++ rest := by
  unfold fraction? at read
  split at read
  · simp only [Option.map_eq_some_iff, Prod.exists, Prod.mk.injEq] at read
    obtain ⟨ds, after, below, rfl, rfl⟩ := read
    obtain ⟨digits, rfl⟩ := digits_of_read below
    exact ⟨.some digits, rfl⟩
  · cases read
    exact ⟨.none, rfl⟩

theorem exponentSign_of_append {sign ds : List Char}
    (signed : sign = [] ∨ sign = ['+'] ∨ sign = ['-']) (digits : Digits ds) (rest : List Char) :
    exponentSign (sign ++ ds ++ rest) = (sign, ds ++ rest) := by
  rcases signed with rfl | rfl | rfl
  · obtain ⟨d, others, rfl⟩ := List.exists_cons_of_ne_nil digits.1
    have digit := digits.2 d List.mem_cons_self
    rw [List.nil_append, List.cons_append, exponentSign]
    all_goals
      rintro _ same
      obtain ⟨rfl, -⟩ := List.cons.inj same
      cases digit
  · rfl
  · rfl

theorem exponentSign_split (cs : List Char) : ∃ sign rest, exponentSign cs = (sign, rest) ∧
    (sign = [] ∨ sign = ['+'] ∨ sign = ['-']) ∧ cs = sign ++ rest := by
  unfold exponentSign
  split
  · exact ⟨_, _, rfl, .inr (.inl rfl), rfl⟩
  · exact ⟨_, _, rfl, .inr (.inr rfl), rfl⟩
  · exact ⟨_, _, rfl, .inl rfl, rfl⟩

theorem exponent_of_append {exponent rest : List Char} (mark : Exponent exponent)
    (breaks : Breaks rest) : exponent? (exponent ++ rest) = some (exponent, rest) := by
  cases mark with
  | none =>
    cases rest with
    | nil => rfl
    | cons c cs =>
      have unmarked : ¬ (c = 'e' ∨ c = 'E') := by
        rintro (rfl | rfl) <;> cases breaks _ rfl
      rw [List.nil_append, exponent?, if_neg unmarked]
  | some marked signed digits =>
    have stop : ∀ c ∈ rest.head?, isDigit c = false := by
      intro c front
      have outside := breaks c front
      simp only [inNumber, Bool.or_eq_false_iff] at outside
      exact outside.1.1.1
    rw [List.cons_append, exponent?, if_pos marked, exponentSign_of_append signed digits,
      digits_of_append digits stop]
    rfl

theorem exponent_of_read {cs exponent rest : List Char}
    (read : exponent? cs = some (exponent, rest)) :
    Exponent exponent ∧ cs = exponent ++ rest := by
  unfold exponent? at read
  split at read
  · rename_i mark tail
    split at read
    · rename_i marked
      simp only [Option.map_eq_some_iff, Prod.exists, Prod.mk.injEq] at read
      obtain ⟨ds, after, below, rfl, rfl⟩ := read
      obtain ⟨sign, unsigned, split, signed, rfl⟩ := exponentSign_split tail
      rw [split] at below ⊢
      obtain ⟨digits, rfl⟩ := digits_of_read below
      exact ⟨.some marked signed digits, by simp⟩
    · cases read
      exact ⟨.none, rfl⟩
  · cases read
    exact ⟨.none, rfl⟩

theorem unsigned_of_append {whole fraction exponent rest : List Char} (digits : Whole whole)
    (point : Fraction fraction) (mark : Exponent exponent) (breaks : Breaks rest) :
    unsigned? (whole ++ fraction ++ exponent ++ rest)
      = some ((whole, fraction, exponent), rest) := by
  have after_fraction : ∀ c ∈ (exponent ++ rest).head?, isDigit c = false ∧ c ≠ '.' := by
    intro c front
    cases mark with
    | none =>
      have outside := breaks c front
      simp only [inNumber, Bool.or_eq_false_iff, decide_eq_false_iff_not] at outside
      exact ⟨outside.1.1.1, outside.1.1.2⟩
    | some marked _ _ =>
      obtain rfl := Option.some.inj front
      rcases marked with rfl | rfl <;> decide
  have after_whole : ∀ c ∈ (fraction ++ (exponent ++ rest)).head?, isDigit c = false := by
    intro c front
    cases point with
    | none => exact (after_fraction c front).1
    | some _ =>
      obtain rfl := Option.some.inj front
      rfl
  rw [List.append_assoc, List.append_assoc, unsigned?, whole_of_append digits after_whole]
  simp [fraction_of_append point after_fraction, exponent_of_append mark breaks]

theorem unsigned_of_read {cs whole fraction exponent rest : List Char}
    (read : unsigned? cs = some ((whole, fraction, exponent), rest)) :
    Whole whole ∧ Fraction fraction ∧ Exponent exponent ∧
      cs = whole ++ fraction ++ exponent ++ rest := by
  simp only [unsigned?, bind, pure, Option.bind_eq_some_iff, Prod.exists, Option.some.injEq,
    Prod.mk.injEq] at read
  obtain ⟨_, _, first, _, _, second, _, _, third, ⟨rfl, rfl, rfl⟩, rfl⟩ := read
  obtain ⟨digits, rfl⟩ := whole_of_read first
  obtain ⟨point, rfl⟩ := fraction_of_read second
  obtain ⟨mark, rfl⟩ := exponent_of_read third
  exact ⟨digits, point, mark, by simp⟩

theorem digit_of_whole {whole : List Char} (digits : Whole whole) :
    ∃ d ds, whole = d :: ds ∧ isDigit d := by
  rcases digits with rfl | ⟨⟨some_digit, all⟩, _⟩
  · exact ⟨_, _, rfl, rfl⟩
  · obtain ⟨d, ds, rfl⟩ := List.exists_cons_of_ne_nil some_digit
    exact ⟨d, ds, rfl, all d List.mem_cons_self⟩

theorem number_unsigned {d : Char} (digit : isDigit d) (cs : List Char) :
    number? (d :: cs) = (unsigned? (d :: cs)).map fun ((whole, fraction, exponent), rest) =>
      (if fraction.isEmpty && exponent.isEmpty then .natural (naturalOf whole)
        else .number (whole ++ fraction ++ exponent), rest) := by
  rw [number?]
  rintro _ same
  obtain ⟨rfl, -⟩ := List.cons.inj same
  cases digit

theorem number_of_append {value : Json} {lexeme rest : List Char} (number : Number value lexeme)
    (breaks : Breaks rest) : number? (lexeme ++ rest) = some (value, rest) := by
  cases number with
  | natural digits =>
    have parts := unsigned_of_append digits .none .none breaks
    obtain ⟨d, ds, rfl, digit⟩ := digit_of_whole digits
    simp only [List.append_nil, List.cons_append] at parts
    rw [List.cons_append, number_unsigned digit, parts]
    rfl
  | negative digits point mark =>
    rw [List.cons_append, number?, unsigned_of_append digits point mark breaks]
    rfl
  | @positive whole fraction exponent digits point mark more =>
    have parts := unsigned_of_append digits point mark breaks
    have some_part : ¬ (fraction = [] ∧ exponent = []) := not_and_or.mpr more
    obtain ⟨d, ds, rfl, digit⟩ := digit_of_whole digits
    simp only [List.cons_append] at parts ⊢
    rw [number_unsigned digit, parts]
    simp [some_part]

theorem number_of_read {cs rest : List Char} {value : Json}
    (read : number? cs = some (value, rest)) :
    ∃ lexeme, Number value lexeme ∧ cs = lexeme ++ rest := by
  unfold number? at read
  split at read
  · simp only [Option.map_eq_some_iff, Prod.exists, Prod.mk.injEq] at read
    obtain ⟨whole, fraction, exponent, _, below, rfl, rfl⟩ := read
    obtain ⟨digits, point, mark, rfl⟩ := unsigned_of_read below
    exact ⟨_, .negative digits point mark, rfl⟩
  · simp only [Option.map_eq_some_iff, Prod.exists, Prod.mk.injEq] at read
    obtain ⟨whole, fraction, exponent, _, below, rfl, rfl⟩ := read
    obtain ⟨digits, point, mark, rfl⟩ := unsigned_of_read below
    by_cases bare : fraction = [] ∧ exponent = []
    · obtain ⟨rfl, rfl⟩ := bare
      exact ⟨whole, .natural digits, by simp⟩
    · have some_part : (fraction.isEmpty && exponent.isEmpty) = false := by
        simpa using bare
      rw [some_part]
      exact ⟨_, .positive digits point mark (not_and_or.mp bare), rfl⟩

def IsScalar : Token → Prop
  | scalar _ => True
  | _ => False

theorem read_string (cs : List Char) :
    read? ('"' :: cs) =
      (pieces? cs).map fun (pieces, rest) => (.string (Piece.text pieces), rest) := rfl

theorem read_number {c : Char} (front : isDigit c ∨ c = '-') (cs : List Char) :
    read? (c :: cs) = (number? (c :: cs)).map fun (value, rest) => (.scalar value, rest) := by
  unfold read?
  split
  case h_11 => rfl
  all_goals
    rename_i same
    obtain ⟨rfl, -⟩ := List.cons.inj same
    exact absurd front (by decide)

theorem front_of_number {value : Json} {lexeme : List Char} (number : Number value lexeme) :
    ∃ c cs, lexeme = c :: cs ∧ (isDigit c ∨ c = '-') := by
  cases number with
  | natural digits =>
    obtain ⟨d, ds, rfl, digit⟩ := digit_of_whole digits
    exact ⟨d, ds, rfl, .inl digit⟩
  | negative => exact ⟨_, _, rfl, .inr rfl⟩
  | positive digits =>
    obtain ⟨d, ds, rfl, digit⟩ := digit_of_whole digits
    exact ⟨d, _, rfl, .inl digit⟩

theorem read_of_lexeme {token : Token} {front rest : List Char} (lexeme : Lexeme token front)
    (breaks : token.IsScalar → Breaks rest) : read? (front ++ rest) = some (token, rest) := by
  cases lexeme with
  | string spelled =>
    rw [List.cons_append, List.append_assoc, List.singleton_append, read_string,
      pieces_of_spelled spelled]
    rfl
  | number number =>
    have value := number_of_append number (breaks trivial)
    obtain ⟨c, cs, rfl, front⟩ := front_of_number number
    rw [List.cons_append] at value ⊢
    rw [read_number front, value]
    rfl
  | _ => rfl

theorem lexeme_of_read {cs rest : List Char} {token : Token}
    (read : read? cs = some (token, rest)) : ∃ front, Lexeme token front ∧ cs = front ++ rest := by
  unfold read? at read
  split at read
  case h_7 =>
    simp only [Option.map_eq_some_iff, Prod.exists, Prod.mk.injEq] at read
    obtain ⟨pieces, _, below, rfl, rfl⟩ := read
    obtain ⟨parts, spelled, rfl⟩ := spelled_of_pieces below
    exact ⟨_, .string spelled, by simp⟩
  case h_11 =>
    simp only [Option.map_eq_some_iff, Prod.exists, Prod.mk.injEq] at read
    obtain ⟨value, _, below, rfl, rfl⟩ := read
    obtain ⟨lexeme, number, rfl⟩ := number_of_read below
    exact ⟨lexeme, .number number, rfl⟩
  all_goals
    cases read
    exact ⟨_, by constructor, rfl⟩

theorem front_of_lexeme {token : Token} {front : List Char} (lexeme : Lexeme token front) :
    ∃ c cs, front = c :: cs ∧ isBlank c = false ∧ (¬ token.IsScalar → inNumber c = false) := by
  cases lexeme with
  | number number =>
    obtain ⟨c, cs, rfl, front⟩ := front_of_number number
    refine ⟨c, cs, rfl, ?_, fun other => absurd trivial other⟩
    cases blank : isBlank c with
    | false => rfl
    | true =>
      simp only [isBlank, Bool.or_eq_true, decide_eq_true_eq] at blank
      rcases blank with ((rfl | rfl) | rfl) | rfl <;> revert front <;> decide
  | null | true | false => exact ⟨_, _, rfl, rfl, fun other => absurd trivial other⟩
  | _ => exact ⟨_, _, rfl, rfl, fun _ => rfl⟩

theorem scan_nil : scan? [] = some [] := by
  rw [scan?]

theorem scan_blank {c : Char} {cs : List Char} (blank : isBlank c) :
    scan? (c :: cs) = scan? cs := by
  rw [scan?, if_pos blank]

theorem scan_read {c : Char} {cs rest : List Char} {token : Token} (ink : isBlank c = false)
    (read : read? (c :: cs) = some (token, rest)) :
    scan? (c :: cs) = (scan? rest).map (token :: ·) := by
  rw [scan?, if_neg (by simp [ink])]
  split
  · simp_all
  · simp_all

/-- No two numbers or words stand side by side. -/
def Apart (tokens : List Token) : Prop :=
  tokens.IsChain fun token next => token.IsScalar → ¬ next.IsScalar

theorem breaks_of_spelled {token : Token} {tokens : List Token} {cs : List Char}
    (spelled : Spelled tokens cs) (apart : Apart (token :: tokens)) (is_scalar : token.IsScalar) :
    Breaks cs := by
  rintro c front
  cases spelled with
  | done => cases front
  | blank blank _ =>
    obtain rfl := Option.some.inj front
    simp only [isBlank, Bool.or_eq_true, decide_eq_true_eq] at blank
    rcases blank with ((rfl | rfl) | rfl) | rfl <;> rfl
  | token lexeme _ =>
    obtain ⟨first, _, rfl, _, outside⟩ := front_of_lexeme lexeme
    obtain rfl := Option.some.inj front
    exact outside (apart.rel is_scalar)

theorem scan_of_spelled {tokens : List Token} {cs : List Char} (spelled : Spelled tokens cs)
    (apart : Apart tokens) : scan? cs = some tokens := by
  induction spelled with
  | done => exact scan_nil
  | blank blank _ ih => rw [scan_blank blank, ih apart]
  | token lexeme behind ih =>
    have read := read_of_lexeme lexeme (breaks_of_spelled behind apart)
    obtain ⟨c, cs, rfl, ink, _⟩ := front_of_lexeme lexeme
    rw [List.cons_append] at read ⊢
    rw [scan_read ink read, ih apart.tail, Option.map_some]

theorem spelled_of_scan {cs : List Char} {tokens : List Token} (scanned : scan? cs = some tokens) :
    Spelled tokens cs := by
  fun_induction scan? cs generalizing tokens with
  | case1 =>
    cases scanned
    exact .done
  | case2 c rest blank ih => exact .blank blank (ih scanned)
  | case3 => cases scanned
  | case4 c rest ink token after read ih =>
    obtain ⟨others, below, rfl⟩ := Option.map_eq_some_iff.mp scanned
    obtain ⟨front, lexeme, split⟩ := lexeme_of_read read
    rw [split]
    exact .token lexeme (ih below)

end Statechart.Token
