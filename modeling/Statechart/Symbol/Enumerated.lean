import Statechart.Named
import Statechart.Symbol.Portable

/-!
Symbols taken from a fixed list of names. Such a symbol is written as its name in JSON, and as its
place in the list in binary form.
-/
namespace Statechart

structure Enumerated (names : List String) where
  place : Fin names.length
  deriving DecidableEq, Hashable, Repr

namespace Enumerated

variable {names : List String}

def name (symbol : Enumerated names) : String := names[symbol.place]

instance : Named (Enumerated names) := ⟨name⟩

def at? (place : Nat) : Option (Enumerated names) :=
  if h : place < names.length then some ⟨⟨place, h⟩⟩ else none

def ofName? (name : String) : Option (Enumerated names) := at? (names.idxOf name)

/-- A name may stand by itself, or as the only key of an object with the value null. -/
def ofJson? : Json → Option (Enumerated names)
  | .string (some text) => ofName? text
  | .object [(some text, .null)] => ofName? text
  | _ => none

instance : Portable (Enumerated names) where
  toJson symbol := .string (some symbol.name)
  ofJson? := ofJson?
  toBytes symbol := Bytes.ofNat 4 symbol.place
  decoder := do
    let place ← Decoder.nat 4
    (at? place : Option _)

end Enumerated
end Statechart
