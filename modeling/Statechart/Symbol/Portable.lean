import Statechart.Bytes
import Statechart.Json.Record

/-!
Symbols that can be written down: as a JSON document and in binary form.
-/
namespace Statechart

class Portable (α : Type) where
  toJson : α → Json
  ofJson? : Json → Option α
  toBytes : α → Bytes
  decoder : Decoder α

instance : Portable String where
  toJson text := .string (some text)
  ofJson? := Json.text?
  toBytes := Bytes.ofText
  decoder := Decoder.text

end Statechart
