import Statechart.Path

/-!
The faults of a chart. A fault names the symbols that it is about; `Fault.message` puts it in words.
-/
namespace Statechart

inductive Fault (S I : Type) where
  | unknownStart (start : S)
  | unknownState (state : S)
  | unknownTarget (state target : S)
  | duplicateState (state : S)
  | duplicateTransition (state : Path S) (input : I)
  | unresolvedTarget (path : Path S)
  | ambiguous (leaf : Path S) (input : I) (rank : Nat)
  /-- A level, given by its start state, is nested in itself. -/
  | cyclic (start : S)
  deriving DecidableEq, Repr

open Named in
def Fault.message {S I : Type} [Named S] [Named I] : Fault S I → String
  | unknownStart start =>
    "Start state '" ++ name start ++ "' is not one of the states of its level"
  | unknownState state => "State '" ++ name state ++ "' is not declared in its level"
  | unknownTarget state target =>
    "Transition from '" ++ name state ++ "' targets unknown state '" ++ name target ++ "'"
  | duplicateState state =>
    "State '" ++ name state ++ "' is declared more than once in one level"
  | duplicateTransition state input =>
    "State '" ++ state.dotted ++ "' declares more than one transition on '" ++ name input ++ "'"
  | unresolvedTarget path => "No leaf state matches resolved target path '" ++ path.dotted ++ "'"
  | ambiguous leaf input rank =>
    "State '" ++ leaf.dotted ++ "' has more than one transition on '" ++ name input
      ++ "' at rank " ++ toString rank
  | cyclic start => "Sub-machine starting at '" ++ name start ++ "' contains itself"

end Statechart
