import Statechart.Chart.Check
import Statechart.Compilation
import Statechart.Options

/-!
Nested machines. Here every level of a chart is compiled to a machine of its own, once, however many
states share it; a composite state refers to the machine of its nested level. Whoever drives such a
machine hands an input that a level does not react to up to the level around it.
-/
namespace Statechart

structure MachineArc (S I : Type) where
  input : I
  target : S
  effect : Option Action
  label : Option String

structure MachineState (S I : Type) where
  symbol : S
  entry : Option Action
  exit : Option Action
  arcs : List (MachineArc S I)
  inner : Option Nat
  label : Option String

structure Machine (S I : Type) [DecidableEq S] [Hashable S] where
  start : S
  states : List (MachineState S I)
  bySymbol : Std.HashMap S Nat

/-- The machines of a chart, nested ones before the machines around them. -/
structure Nested (S I : Type) [DecidableEq S] [Hashable S] where
  machines : Array (Machine S I)
  root : Nat

structure MachineStep (S : Type) where
  target : S
  action : Action
  inner : Option Nat

variable {S I : Type} [DecidableEq S] [Hashable S] [DecidableEq I]

namespace Machine

def ofStates (start : S) (states : List (MachineState S I)) : Machine S I :=
  { start
    states
    bySymbol := states.zipIdx.foldl
      (fun index (state, place) => index.insert state.symbol place) {} }

def state? (machine : Machine S I) (symbol : S) : Option (MachineState S I) := do
  let place ← machine.bySymbol[symbol]?
  machine.states[place]?

def inner? (machine : Machine S I) (symbol : S) : Option Nat := do
  let state ← machine.state? symbol
  state.inner

def step? (machine : Machine S I) (symbol : S) (input : I) : Option (MachineStep S) := do
  let state ← machine.state? symbol
  let arc ← state.arcs.find? fun arc => arc.input = input
  return {
    target := arc.target
    action := arc.effect.getD .idle
    inner := machine.inner? arc.target }

def enter (machine : Machine S I) (symbol : S) : StateM Journal Bool := fun journal =>
  match machine.state? symbol with
  | none => (false, journal)
  | some state => (true, (state.entry.getD .idle).run journal)

def leave (machine : Machine S I) (symbol : S) : StateM Journal Bool := fun journal =>
  match machine.state? symbol with
  | none => (false, journal)
  | some state => (true, (state.exit.getD .idle).run journal)

end Machine

section Compiling

variable {L : Type} [Named S] [Named I]

open Named in
def Transition.bind (options : Options) (source : S) (transition : Transition S I) :
    StateM Journal (MachineArc S I) := do
  let effect ← Hook.bindOption transition.effect
  return {
    input := transition.input
    target := transition.target
    effect
    label := options.label
      (arrowLabel (name source) (name transition.input) (name transition.target)) }

def State.bind (options : Options) (machineOf : L → Except (Fault S I) Nat) (state : State S I L) :
    Compilation S I (MachineState S I) := do
  let inner ← (state.inner.mapM machineOf : Except (Fault S I) _)
  let arcs ← (state.transitions.mapM (Transition.bind options state.symbol) : StateM Journal _)
  let entry ← Hook.bindOption state.entry
  let exit ← Hook.bindOption state.exit
  return {
    symbol := state.symbol
    entry
    exit
    arcs
    inner
    label := options.label (Named.name state.symbol) }

def Level.bind (options : Options) (machineOf : L → Except (Fault S I) Nat)
    (level : Level S I L) : Compilation S I (Machine S I) := do
  let states ← level.states.mapM (State.bind options machineOf)
  return .ofStates level.start states

inductive Task (L : Type) where
  | visit (level : L)
  | build (level : L)

/-- The levels that have machines, with them, in the order of building. A machine is known
by its place. -/
abbrev Workshop (S I L : Type) [DecidableEq S] [Hashable S] := List (L × Machine S I)

namespace Workshop

def levels (workshop : Workshop S I L) : List L := workshop.map Prod.fst

variable [DecidableEq L]

def number? (workshop : Workshop S I L) (level : L) : Option Nat :=
  workshop.findIdx? fun entry => entry.1 = level

def unmet (workshop : Workshop S I L) (level : Level S I L) : List L :=
  (level.inners.filter fun inner => inner ∉ workshop.levels).eraseDups

end Workshop

def Chart.machineOf (chart : Chart S I) (workshop : Workshop S I (Fin chart.size))
    (number : Fin chart.size) : Except (Fault S I) Nat :=
  match workshop.number? number with
  | none => .error (.cyclic (chart.level number).start)
  | some machine => .ok machine

/-- Works off a stack of tasks. A level is deferred from its visit until it is built. One that is
visited while it is deferred is nested in itself. -/
def Chart.build (chart : Chart S I) (options : Options) (workshop : Workshop S I (Fin chart.size))
    (deferred : List (Fin chart.size)) :
    List (Task (Fin chart.size)) → Compilation S I (Workshop S I (Fin chart.size))
  | [] => return workshop
  | .visit number :: rest =>
    if number ∈ workshop.levels then chart.build options workshop deferred rest
    else if number ∈ deferred then throw (.cyclic (chart.level number).start)
    else
      chart.build options workshop (number :: deferred)
        ((workshop.unmet (chart.level number)).map .visit ++ .build number :: rest)
  | .build number :: rest => do
    let machine ← (chart.level number).bind options (chart.machineOf workshop)
    chart.build options (workshop ++ [(number, machine)]) (deferred.erase number) rest
termination_by tasks => (chart.unknown (deferred ++ workshop.levels), tasks.length)
decreasing_by
  · exact Prod.Lex.right _ (Nat.lt_succ_self _)
  · refine Prod.Lex.left _ _ (chart.unknown_lt number ?_ ?_ ?_)
    · exact fun _ member => List.mem_cons_of_mem _ member
    · simpa [List.mem_append] using ⟨‹number ∉ deferred›, ‹number ∉ workshop.levels›⟩
    · exact List.mem_cons_self
  · have kept : ∀ n ∈ deferred ++ workshop.levels,
        n ∈ deferred.erase number ++ Workshop.levels (workshop ++ [(number, machine)]) := by
      intro n member
      by_cases same : n = number
      · simp [Workshop.levels, same]
      · simpa [Workshop.levels, same, List.mem_erase_of_ne same] using member
    rcases Nat.lt_or_eq_of_le (chart.unknown_le kept) with fewer | same
    · exact Prod.Lex.left _ _ fewer
    · rw [same]
      exact Prod.Lex.right _ (Nat.lt_succ_self _)

def Chart.nested (chart : Chart S I) (root : Fin chart.size) (options : Options) :
    Compilation S I (Nested S I) := do
  let _ ← (chart.check root : Except (Fault S I) _)
  let workshop ← chart.build options [] [] [.visit root]
  let number ← (chart.machineOf workshop root : Except (Fault S I) _)
  return { machines := (workshop.map Prod.snd).toArray, root := number }

end Compiling

namespace Nested

def meetFrom (nested : Nested S I) (depth : Nat) (seen : List Nat) (number : Nat) : List Nat :=
  if number ∈ seen then seen
  else
    match depth, nested.machines[number]? with
    | depth + 1, some machine =>
      (machine.states.filterMap MachineState.inner).foldl (nested.meetFrom depth) (seen ++ [number])
    | _, _ => seen

/-- The machines that can be reached, in the order in which a walk from the root first
comes to them. -/
def outsideIn (nested : Nested S I) : List Nat :=
  nested.meetFrom nested.machines.size [] nested.root

end Nested
end Statechart
