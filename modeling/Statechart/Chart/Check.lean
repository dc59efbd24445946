import Statechart.Chart

/-!
Checking a chart. `Chart.survey` goes through the levels reachable from one of them, with a stack of
errands that is worked off from the top. It looks at each level once and stops at the first fault.
-/
namespace Statechart

def firstRepeated? {α : Type} [DecidableEq α] (seen : List α) : List α → Option α
  | [] => none
  | a :: rest => if a ∈ seen then some a else firstRepeated? (a :: seen) rest

inductive Errand (L : Type) where
  | enter (level : L)
  | leave (level : L)

variable {S I L : Type} [DecidableEq S] [DecidableEq I]

/-- The first fault among a state's transitions, of which each must lead to one of the given symbols
and react to an input not yet seen. An unknown target is found before a repeated input. -/
def Transition.firstFault? (symbols : List S) (state : S) (seen : List I) :
    List (Transition S I) → Option (Fault S I)
  | [] => none
  | t :: rest =>
    if t.target ∉ symbols then some (.unknownTarget state t.target)
    else if t.input ∈ seen then some (.duplicateTransition [state] t.input)
    else firstFault? symbols state (t.input :: seen) rest

/-- The first fault of a level by itself: a repeated state, a missing start state, then the
transitions in the order of declaration. -/
def Level.fault? (level : Level S I L) : Option (Fault S I) :=
  match firstRepeated? [] level.symbols with
  | some state => some (.duplicateState state)
  | none =>
    if level.start ∈ level.symbols then
      level.states.findSome? fun state =>
        Transition.firstFault? level.symbols state.symbol [] state.transitions
    else some (.unknownStart level.start)

namespace Chart

/-- Works off a stack of errands. A level is active from the time it is entered until it is left;
then it is checked. One that is met while it is active is nested in itself. -/
def survey (chart : Chart S I) (checked active : List (Fin chart.size)) :
    List (Errand (Fin chart.size)) → Except (Fault S I) (List (Fin chart.size))
  | [] => .ok checked
  | .enter number :: rest =>
    if number ∈ checked then chart.survey checked active rest
    else if number ∈ active then .error (.cyclic (chart.level number).start)
    else
      match (chart.level number).fault? with
      | some fault => .error fault
      | none =>
        chart.survey checked (number :: active)
          ((chart.level number).inners.map .enter ++ .leave number :: rest)
  | .leave number :: rest =>
    chart.survey (number :: checked) (active.erase number) rest
termination_by errands => (chart.unknown (active ++ checked), errands.length)
decreasing_by
  · exact Prod.Lex.right _ (Nat.lt_succ_self _)
  · refine Prod.Lex.left _ _ (chart.unknown_lt number ?_ ?_ ?_)
    · exact fun _ member => List.mem_cons_of_mem _ member
    · simpa [List.mem_append] using ⟨‹number ∉ active›, ‹number ∉ checked›⟩
    · exact List.mem_cons_self
  · have kept : ∀ n ∈ active ++ checked, n ∈ active.erase number ++ number :: checked := by
      intro n member
      by_cases same : n = number
      · simp [same]
      · simpa [same, List.mem_erase_of_ne same] using member
    rcases Nat.lt_or_eq_of_le (chart.unknown_le kept) with fewer | same
    · exact Prod.Lex.left _ _ fewer
    · rw [same]
      exact Prod.Lex.right _ (Nat.lt_succ_self _)

def check (chart : Chart S I) (root : Fin chart.size) : Except (Fault S I) Unit :=
  (fun _ => ()) <$> chart.survey [] [] [.enter root]

end Chart
end Statechart
