import Statechart.Chart.Landing
import Statechart.LastFirst

/-!
The leaves of a chart. `Chart.leaves` replaces every composite state by the states nested in it and
leaves one record for each way down to a state without nested level. The record holds all that the
leaf takes over from the states around it: what to run on the way in and out, and every transition
declared on the way down, with the depth of its level.
-/
namespace Statechart

structure Candidate (S I : Type) where
  input : I
  target : Path S
  effect : Option Hook
  /-- The depth of the level that declares it; the root's is 1. -/
  rank : Nat

structure Leaf (S I : Type) where
  path : Path S
  entries : List Hook
  exits : List Hook
  candidates : List (Candidate S I)

/-- A state on the way down, with its record so far and the level nested in it. -/
structure Visit (S I L : Type) where
  record : Leaf S I
  inner : Option L

def Leaf.outside {S I : Type} : Leaf S I := ⟨[], [], [], []⟩

namespace Chart

variable {S I : Type} [DecidableEq S] (chart : Chart S I)

def candidate (number : Fin chart.size) (around : Path S) (transition : Transition S I) :
    Except (Fault S I) (Candidate S I) := do
  let below ← chart.landing number transition.target
  return {
    input := transition.input
    target := around ++ below
    effect := transition.effect
    rank := around.length + 1 }

def visit (number : Fin chart.size) (around : Leaf S I) (state : State S I (Fin chart.size)) :
    Except (Fault S I) (Visit S I (Fin chart.size)) := do
  let own ← state.transitions.mapM (chart.candidate number around.path)
  return {
    record := {
      path := around.path ++ [state.symbol]
      entries := around.entries ++ state.entry.toList
      exits := state.exit.toList ++ around.exits
      candidates := around.candidates ++ own }
    inner := state.inner }

/-- The states of a level that is entered under the state with record `around`, start state first.
They are prepared from the last to the first. -/
def visits (number : Fin chart.size) (around : Leaf S I) :
    Except (Fault S I) (List (Visit S I (Fin chart.size))) := do
  let states ← (chart.level number).startFirst
  mapFromLast (chart.visit number around) states

def breadth : Nat :=
  (List.finRange chart.size).foldr
    (fun number most => max (chart.level number).states.length most) 0

def weight : Nat → Nat
  | 0 => 1
  | depth + 1 => chart.breadth * weight depth + 1

def pendingWeight : List (Visit S I (Fin chart.size)) → Nat
  | [] => 0
  | v :: rest => chart.weight (chart.size - v.record.path.length) + pendingWeight rest

omit [DecidableEq S] in
theorem length_le_breadth (number : Fin chart.size) :
    (chart.level number).states.length ≤ chart.breadth := by
  have among : ∀ numbers : List (Fin chart.size), number ∈ numbers →
      (chart.level number).states.length ≤
        numbers.foldr (fun n most => max (chart.level n).states.length most) 0 := by
    intro numbers member
    induction numbers with
    | nil => cases member
    | cons n rest ih =>
      simp only [List.foldr_cons]
      cases member with
      | head => exact Nat.le_max_left _ _
      | tail _ later => exact Nat.le_trans (ih later) (Nat.le_max_right _ _)
  exact among _ (List.mem_finRange number)

omit chart in
theorem length_of_startFirst {L : Type} {level : Level S I L} {states : List (State S I L)}
    (ordered : level.startFirst = .ok states) : states.length ≤ level.states.length := by
  unfold Level.startFirst at ordered
  split at ordered
  · cases ordered
  · rename_i start found
    cases ordered
    have member : start ∈ level.states := List.mem_of_find?_eq_some found
    have named : start.symbol = level.start := by simpa using List.find?_some found
    exact List.length_filter_lt_length_iff_exists.mpr ⟨start, member, by simp [named]⟩

theorem length_of_visits {number : Fin chart.size} {around : Leaf S I}
    {below : List (Visit S I (Fin chart.size))}
    (prepared : chart.visits number around = .ok below) :
    below.length ≤ chart.breadth := by
  unfold visits at prepared
  cases ordered : (chart.level number).startFirst with
  | error => simp [ordered, bind, Except.bind] at prepared
  | ok states =>
    simp only [ordered, bind, Except.bind] at prepared
    rw [length_of_mapFromLast prepared]
    exact Nat.le_trans (length_of_startFirst ordered) (chart.length_le_breadth number)

theorem path_length_of_visits {number : Fin chart.size} {around : Leaf S I}
    {below : List (Visit S I (Fin chart.size))} (prepared : chart.visits number around = .ok below)
    {v : Visit S I (Fin chart.size)} (member : v ∈ below) :
    v.record.path.length = around.path.length + 1 := by
  unfold visits at prepared
  cases ordered : (chart.level number).startFirst with
  | error => simp [ordered, bind, Except.bind] at prepared
  | ok states =>
    simp only [ordered, bind, Except.bind] at prepared
    obtain ⟨state, _, visited⟩ := image_of_mapFromLast prepared member
    unfold visit at visited
    cases own : state.transitions.mapM (chart.candidate number around.path) with
    | error => simp [own, bind, Except.bind] at visited
    | ok candidates =>
      simp only [own, bind, Except.bind, pure, Except.pure, Except.ok.injEq] at visited
      subst visited
      simp

omit [DecidableEq S] in
theorem weight_pos (depth : Nat) : 0 < chart.weight depth := by
  cases depth <;> simp [weight]

omit [DecidableEq S] in
theorem pendingWeight_append (pending later : List (Visit S I (Fin chart.size))) :
    chart.pendingWeight (pending ++ later)
      = chart.pendingWeight pending + chart.pendingWeight later := by
  induction pending with
  | nil => simp [pendingWeight]
  | cons v rest ih => simp only [List.cons_append, pendingWeight, ih, Nat.add_assoc]

omit [DecidableEq S] in
theorem pendingWeight_eq {depth : Nat} {pending : List (Visit S I (Fin chart.size))}
    (deep : ∀ v ∈ pending, chart.size - v.record.path.length = depth) :
    chart.pendingWeight pending = pending.length * chart.weight depth := by
  induction pending with
  | nil => simp [pendingWeight]
  | cons v rest ih =>
    have tail := ih fun w member => deep w (List.mem_cons_of_mem v member)
    rw [pendingWeight, tail, deep v List.mem_cons_self, List.length_cons, Nat.add_mul, Nat.one_mul,
      Nat.add_comm]

theorem pendingWeight_visits_lt {v : Visit S I (Fin chart.size)} {number : Fin chart.size}
    {below : List (Visit S I (Fin chart.size))} (room : v.record.path.length < chart.size)
    (prepared : chart.visits number v.record = .ok below) :
    chart.pendingWeight below < chart.weight (chart.size - v.record.path.length) := by
  obtain ⟨depth, depthEq⟩ : ∃ depth, chart.size - v.record.path.length = depth + 1 :=
    ⟨chart.size - v.record.path.length - 1, by omega⟩
  have deep : ∀ w ∈ below, chart.size - w.record.path.length = depth := fun w member => by
    have := chart.path_length_of_visits prepared member
    omega
  rw [chart.pendingWeight_eq deep, depthEq, weight]
  have := Nat.mul_le_mul_right (chart.weight depth) (chart.length_of_visits prepared)
  omega

def expand : List (Visit S I (Fin chart.size)) → Except (Fault S I) (List (Leaf S I))
  | [] => .ok []
  | v :: rest =>
    match v.inner with
    | none => (v.record :: ·) <$> expand rest
    | some number =>
      if _room : v.record.path.length < chart.size then
        match _prepared : chart.visits number v.record with
        | .error fault => .error fault
        | .ok below => expand (below ++ rest)
      else .error (.cyclic (chart.level number).start)
termination_by pending => chart.pendingWeight pending
decreasing_by
  · have := chart.weight_pos (chart.size - v.record.path.length)
    rw [pendingWeight]
    omega
  · have := chart.pendingWeight_visits_lt (by assumption) (by assumption)
    rw [pendingWeight_append, pendingWeight]
    omega

/-- The leaves under a level: depth first, start states first, the others in the order of
declaration. -/
def leaves (root : Fin chart.size) : Except (Fault S I) (List (Leaf S I)) := do
  let pending ← chart.visits root .outside
  chart.expand pending

end Chart
end Statechart
