import Statechart.Chart

/-!
Landing. To enter a composite state is to enter the start state of its nested level, and so on down
to a leaf. The path of that leaf is where a transition lands.
-/
namespace Statechart.Chart

variable {S I : Type} [DecidableEq S]

/-- The path from a state down through start states to a leaf. A descent through more levels than
the chart has goes round in a circle. -/
def descent (chart : Chart S I) (depth : Nat) (state : State S I (Fin chart.size)) :
    Except (Fault S I) (Path S) :=
  match state.inner with
  | none => .ok [state.symbol]
  | some number =>
    match depth with
    | 0 => .error (.cyclic (chart.level number).start)
    | depth + 1 =>
      match (chart.level number).state? (chart.level number).start with
      | none => .error (.unknownStart (chart.level number).start)
      | some start => return state.symbol :: (← chart.descent depth start)

def landing (chart : Chart S I) (number : Fin chart.size) (target : S) :
    Except (Fault S I) (Path S) :=
  match (chart.level number).state? target with
  | none => .error (.unknownState target)
  | some state => chart.descent chart.size state

def initial (chart : Chart S I) (number : Fin chart.size) : Except (Fault S I) (Path S) :=
  chart.landing number (chart.level number).start

end Statechart.Chart
