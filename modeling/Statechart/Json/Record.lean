import Statechart.Json

/-!
Reading records from JSON documents. A record is written as an object, with its fields in any order
and with any members of other names between them, or as an array of its fields in their own order.
-/
namespace Statechart.Json

def membersNamed (name : String) (members : List (String × Json)) : List Json :=
  members.filterMap fun (key, value) => if key = name then some value else none

def namedMembers? (members : List (JsonText × Json)) : Option (List (String × Json)) :=
  members.mapM fun (key, value) => key.map fun name => (name, value)

/-- The value of a field, `none` inside where it is missing; fails on a repeated field. -/
def field? (members : List (String × Json)) (name : String) : Option (Option Json) :=
  match membersNamed name members with
  | [] => some none
  | [value] => some (some value)
  | _ => none

/-- The values of a record's fields, in the order of their names. An array may end early, but may
not be longer than the record. -/
def fields? (names : List String) : Json → Option (List (Option Json))
  | .object members => do
    let members ← namedMembers? members
    names.mapM (field? members)
  | .array items =>
    if items.length ≤ names.length then
      some (items.map some ++ List.replicate (names.length - items.length) none)
    else none
  | _ => none

def word? (bits : Nat) : Json → Option Nat
  | .natural n => if n < Nat.pow 2 bits then some n else none
  | _ => none

def text? : Json → Option String
  | .string text => text
  | _ => none

def list? {α : Type} (read : Json → Option α) : Json → Option (List α)
  | .array items => items.mapM read
  | _ => none

def optionalText? : Option Json → Option (Option String)
  | none => some none
  | some .null => some none
  | some (.string text) => text.map some
  | some _ => none

end Statechart.Json
