import Statechart.Action
import Statechart.Fault

/-!
Compilations. To compile a chart is to bind hooks, and to stop at a fault.
-/
namespace Statechart

/-- What was bound before a fault stays bound. -/
abbrev Compilation (S I : Type) := ExceptT (Fault S I) (StateM Journal)

end Statechart
