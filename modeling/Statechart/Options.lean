/-!
Options of a compilation.
-/
namespace Statechart

structure Options where
  labelled : Bool := false
  deriving DecidableEq, Repr

def Options.label (options : Options) (text : String) : Option String :=
  if options.labelled then some text else none

end Statechart
