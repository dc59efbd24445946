import Statechart.Named

/-!
Paths of nested states and the labels that show them.
-/
namespace Statechart

/-- A state with the states around it, outermost first. -/
abbrev Path (S : Type) := List S

def Path.dotted {S : Type} [Named S] (path : Path S) : String :=
  ".".intercalate (path.map Named.name)

def arrowLabel (source input target : String) : String :=
  source ++ " -- " ++ input ++ " --> " ++ target

def Path.arrow {S I : Type} [Named S] [Named I] (source : Path S) (input : I) (target : Path S) :
    String :=
  arrowLabel source.dotted (Named.name input) target.dotted

end Statechart
