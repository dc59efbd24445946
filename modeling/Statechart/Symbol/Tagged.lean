import Statechart.Named
import Statechart.Symbol.Portable

/-!
Symbols that tell names apart by a number. Two of them are equal if both parts are; labels and
messages show the name alone. Such a symbol is written as a record.
-/
namespace Statechart

structure Tagged where
  name : String
  id : UInt32
  deriving DecidableEq, Hashable, Repr

namespace Tagged

instance : Named Tagged := ⟨name⟩

def ofJson? (document : Json) : Option Tagged :=
  match document.fields? ["name", "id"] with
  | some [some name, some id] => do
    let name ← name.text?
    let id ← id.word? 32
    return { name, id := UInt32.ofNat id }
  | _ => none

instance : Portable Tagged where
  toJson symbol := .object [
    (some "name", .string (some symbol.name)),
    (some "id", .natural symbol.id.toNat)]
  ofJson? := ofJson?
  toBytes symbol := Bytes.ofText symbol.name ++ Bytes.ofNat 4 symbol.id.toNat
  decoder := do
    let name ← Decoder.text
    let id ← Decoder.nat 4
    return { name, id := UInt32.ofNat id }

end Tagged
end Statechart
