/-!
Binary forms. Numbers have a fixed count of bytes, the lowest byte first; texts and lists start with
their length in eight bytes. A decoder takes what it needs from the front of the bytes and leaves
the rest; it fails where they end too soon.
-/
namespace Statechart

abbrev Bytes := List UInt8

abbrev Decoder := StateT Bytes Option

namespace Bytes

def ofNat : (count : Nat) → Nat → Bytes
  | 0, _ => []
  | count + 1, n => UInt8.ofNat n :: ofNat count (n / 256)

def ofText (text : String) : Bytes :=
  ofNat 8 text.utf8ByteSize ++ text.toUTF8.data.toList

def ofList {α : Type} (write : α → Bytes) (elements : List α) : Bytes :=
  ofNat 8 elements.length ++ elements.flatMap write

/-- An optional value: 0, or 1 and the value. -/
def ofOption {α : Type} (write : α → Bytes) : Option α → Bytes
  | none => [0]
  | some value => 1 :: write value

end Bytes

namespace Decoder

def byte : Decoder UInt8
  | [] => none
  | b :: rest => some (b, rest)

def nat : (count : Nat) → Decoder Nat
  | 0 => return 0
  | count + 1 => do
    let low ← byte
    let high ← nat count
    return low.toNat + 256 * high

def times {α : Type} (read : Decoder α) : (count : Nat) → Decoder (List α)
  | 0 => return []
  | count + 1 => do
    let first ← read
    let rest ← times read count
    return first :: rest

def text : Decoder String := do
  let size ← nat 8
  let content ← times byte size
  (String.fromUTF8? ⟨content.toArray⟩ : Option String)

def list {α : Type} (read : Decoder α) : Decoder (List α) := do
  let count ← nat 8
  times read count

def option {α : Type} (read : Decoder α) : Decoder (Option α) := do
  let mark ← byte
  if mark = 0 then return none
  else if mark = 1 then some <$> read
  else failure

end Decoder
end Statechart
