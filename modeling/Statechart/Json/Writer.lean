import Statechart.Json

/-!
Writing a JSON document, on one line (`Json.compact`) or with one value a line and two spaces of
indent for each level (`Json.pretty`). Both spell strings and numbers alike.
-/
namespace Statechart.Json

def hexDigit (n : Nat) : Char := Nat.digitChar n

def escape (c : Char) : List Char :=
  match c with
  | '"' => ['\\', '"']
  | '\\' => ['\\', '\\']
  | '\x08' => ['\\', 'b']
  | '\x0c' => ['\\', 'f']
  | '\n' => ['\\', 'n']
  | '\r' => ['\\', 'r']
  | '\t' => ['\\', 't']
  | c =>
    if c.toNat < 0x20 then
      ['\\', 'u', '0', '0', hexDigit (c.toNat / 16), hexDigit (c.toNat % 16)]
    else [c]

/-- A quoted string. One that stands for no text is written as a high half that is left alone. -/
def quote : JsonText → List Char
  | some text => '"' :: text.toList.flatMap escape ++ ['"']
  | none => "\"\\ud800\"".toList

def separate (blanks : List Char) : List (List Char) → List Char
  | [] => []
  | [item] => item
  | item :: items => item ++ ',' :: blanks ++ separate blanks items

mutual

def compactChars : Json → List Char
  | .null => "null".toList
  | .bool true => "true".toList
  | .bool false => "false".toList
  | .natural n => Nat.toDigits 10 n
  | .number lexeme => lexeme
  | .string text => quote text
  | .array items => '[' :: separate [] (compactItems items) ++ [']']
  | .object members => '\x7b' :: separate [] (compactMembers members) ++ ['\x7d']

def compactItems : List Json → List (List Char)
  | [] => []
  | item :: items => compactChars item :: compactItems items

def compactMembers : List (JsonText × Json) → List (List Char)
  | [] => []
  | (key, value) :: members =>
    (quote key ++ ':' :: compactChars value) :: compactMembers members

end

def newline (level : Nat) : List Char := '\n' :: List.replicate (2 * level) ' '

mutual

def prettyChars (level : Nat) : Json → List Char
  | .null => "null".toList
  | .bool true => "true".toList
  | .bool false => "false".toList
  | .natural n => Nat.toDigits 10 n
  | .number lexeme => lexeme
  | .string text => quote text
  | .array [] => ['[', ']']
  | .array (item :: items) =>
    '[' :: newline (level + 1) ++
      separate (newline (level + 1)) (prettyChars (level + 1) item :: prettyItems (level + 1) items)
      ++ newline level ++ [']']
  | .object [] => ['\x7b', '\x7d']
  | .object ((key, value) :: members) =>
    '\x7b' :: newline (level + 1) ++
      separate (newline (level + 1))
        ((quote key ++ ':' :: ' ' :: prettyChars (level + 1) value)
          :: prettyMembers (level + 1) members)
      ++ newline level ++ ['\x7d']

def prettyItems (level : Nat) : List Json → List (List Char)
  | [] => []
  | item :: items => prettyChars level item :: prettyItems level items

def prettyMembers (level : Nat) : List (JsonText × Json) → List (List Char)
  | [] => []
  | (key, value) :: members =>
    (quote key ++ ':' :: ' ' :: prettyChars level value) :: prettyMembers level members

end

def compact (document : Json) : String := String.ofList (compactChars document)

def pretty (document : Json) : String := String.ofList (prettyChars 0 document)

end Statechart.Json
