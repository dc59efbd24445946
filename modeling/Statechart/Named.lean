/-!
Symbols. The states and inputs of a chart are values of any two types. Of such a value the library
asks whether it equals another one, and which text it shows; distinct symbols may show one text.
-/
namespace Statechart

/-- Values that show a text in labels and messages. -/
class Named (α : Type) where
  name : α → String

instance : Named String := ⟨id⟩

end Statechart
