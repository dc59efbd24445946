import Statechart.Json.Token

/-!
Reading a JSON text. The reader takes one token at a time and keeps the arrays and objects that are
still open on a stack of its own, so no depth of nesting is too deep for it.
-/
namespace Statechart.Json

/-- An array or object that waits for a value. What it holds so far stands in reverse. -/
inductive Frame where
  | array (before : List Json)
  | object (before : List (JsonText × Json)) (key : JsonText)

/-- Where in a document the reader stands: what it has just read, or the `value` or `key` that must
come next. The frames around are listed innermost first. -/
inductive Reader where
  | value (around : List Frame)
  | arrayOpened (around : List Frame)
  | itemRead (items : List Json) (around : List Frame)
  | objectOpened (around : List Frame)
  | memberRead (members : List (JsonText × Json)) (around : List Frame)
  | key (members : List (JsonText × Json)) (around : List Frame)
  | colon (members : List (JsonText × Json)) (key : JsonText) (around : List Frame)
  | complete (document : Json)

namespace Reader

def deliver (v : Json) : List Frame → Reader
  | [] => complete v
  | .array before :: around => itemRead (v :: before) around
  | .object before k :: around => memberRead ((k, v) :: before) around

def begin? (around : List Frame) : Token → Option Reader
  | .openArray => some (arrayOpened around)
  | .openObject => some (objectOpened around)
  | .scalar v => some (deliver v around)
  | .string text => some (deliver (.string text) around)
  | _ => none

def advance? : Reader → Token → Option Reader
  | value around, token => begin? around token
  | arrayOpened around, .closeArray => some (deliver (.array []) around)
  | arrayOpened around, token => begin? (.array [] :: around) token
  | itemRead items around, .comma => some (value (.array items :: around))
  | itemRead items around, .closeArray => some (deliver (.array items.reverse) around)
  | objectOpened around, .closeObject => some (deliver (.object []) around)
  | objectOpened around, .string text => some (colon [] text around)
  | memberRead members around, .comma => some (key members around)
  | memberRead members around, .closeObject => some (deliver (.object members.reverse) around)
  | key members around, .string text => some (colon members text around)
  | colon members text around, .colon => some (value (.object members text :: around))
  | _, _ => none

def document? : Reader → Option Json
  | complete document => some document
  | _ => none

end Reader

def ofTokens? (tokens : List Token) : Option Json := do
  let reader ← tokens.foldlM Reader.advance? (.value [])
  reader.document?

def parse? (text : String) : Option Json := do
  let tokens ← Token.scan? text.toList
  ofTokens? tokens

end Statechart.Json
