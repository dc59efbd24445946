import Statechart.Symbol.Enumerated
import Statechart.Symbol.Tagged

/-!
Kinds of symbols. The symbols that can be written down are texts, names from a list, or names told
apart by a number; what is said of all of them is said of every kind.
-/
namespace Statechart

/-- An enumeration names no symbol twice, and has no more of them than four bytes can count. -/
inductive SymbolKind where
  | text
  | enumerated (names : List String) (distinct : names.Nodup) (few : names.length ≤ Nat.pow 2 32)
  | tagged

namespace SymbolKind

def Symbol : SymbolKind → Type
  | text => String
  | enumerated names _ _ => Enumerated names
  | tagged => Tagged

instance (kind : SymbolKind) : Portable kind.Symbol :=
  match kind with
  | text => inferInstanceAs (Portable String)
  | enumerated names _ _ => inferInstanceAs (Portable (Enumerated names))
  | tagged => inferInstanceAs (Portable Tagged)

end SymbolKind
end Statechart
