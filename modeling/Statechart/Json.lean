/-!
JSON documents. A number keeps apart the one form that layouts use, a natural number without sign,
fraction or exponent. A string whose escapes name half of a surrogate pair is well formed but
stands for no text, so its content is `none`.
-/
namespace Statechart

/-- The content of a JSON string, `none` where it stands for no text. -/
abbrev JsonText := Option String

inductive Json where
  | null
  | bool (value : Bool)
  | natural (value : Nat)
  /-- Any other number, as it is written. -/
  | number (lexeme : List Char)
  | string (text : JsonText)
  | array (items : List Json)
  | object (members : List (JsonText × Json))

end Statechart
