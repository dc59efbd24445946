import Statechart.Flat.Leaf
import Statechart.Proofs.Sequencing
import Statechart.Proofs.Trail

/-!
Unrolling without a stack. `Chart.unrolled` goes down by recursion over the levels; where no level
is inside itself it agrees with the stack of pending visits, faults included.
-/
namespace Statechart.Chart

variable {S I : Type} [DecidableEq S]

/-- The leaves under a level that is entered under the state with record `around`. -/
def unrolled (chart : Chart S I) (above : List (Fin chart.size)) (number : Fin chart.size)
    (around : Leaf S I) : Except (Fault S I) (List (Leaf S I)) :=
  if _known : number ∈ above then .error (.cyclic (chart.level number).start)
  else do
    let below ← chart.visits number around
    let parts ← below.mapM fun v =>
      match v.inner with
      | none => .ok [v.record]
      | some inner => chart.unrolled (number :: above) inner v.record
    return parts.flatten
termination_by chart.unknown above
decreasing_by
  exact chart.unknown_lt _ (fun _ => List.mem_cons_of_mem _) (by assumption) List.mem_cons_self

variable {chart : Chart S I}

def unrolledVisit (chart : Chart S I) (above : List (Fin chart.size))
    (v : Visit S I (Fin chart.size)) : Except (Fault S I) (List (Leaf S I)) :=
  match v.inner with
  | none => .ok [v.record]
  | some inner => chart.unrolled above inner v.record

theorem unrolled_eq {above : List (Fin chart.size)} {number : Fin chart.size} {around : Leaf S I}
    (fresh : number ∉ above) : chart.unrolled above number around = (do
      let below ← chart.visits number around
      let parts ← below.mapM (chart.unrolledVisit (number :: above))
      return parts.flatten) := by
  rw [unrolled, dif_neg fresh]
  rfl

theorem expand_leaf {v : Visit S I (Fin chart.size)} (plain : v.inner = none)
    (rest : List (Visit S I (Fin chart.size))) :
    chart.expand (v :: rest) = (v.record :: ·) <$> chart.expand rest := by
  rw [expand]
  split
  · rfl
  · simp_all

theorem expand_inner {v : Visit S I (Fin chart.size)} {number : Fin chart.size}
    (nested : v.inner = some number) (room : v.record.path.length < chart.size)
    (rest : List (Visit S I (Fin chart.size))) :
    chart.expand (v :: rest) = (do
      let below ← chart.visits number v.record
      chart.expand (below ++ rest)) := by
  rw [expand]
  split
  · simp_all
  · rename_i other found
    rw [nested] at found
    cases found
    rw [dif_pos room]
    split <;> simp_all [bind, Except.bind]

/-- What a visit does to the stack: its leaves come first, then those of the visits below it. -/
def UnrollsAlone (chart : Chart S I) (above : List (Fin chart.size))
    (v : Visit S I (Fin chart.size)) : Prop :=
  ∀ rest, chart.expand (v :: rest) = (do
    let part ← chart.unrolledVisit above v
    let later ← chart.expand rest
    return part ++ later)

theorem expand_visits {above : List (Fin chart.size)} {below : List (Visit S I (Fin chart.size))}
    (each : ∀ v ∈ below, chart.UnrollsAlone above v) (rest : List (Visit S I (Fin chart.size))) :
    chart.expand (below ++ rest) = (do
      let parts ← below.mapM (chart.unrolledVisit above)
      let later ← chart.expand rest
      return parts.flatten ++ later) := by
  induction below with
  | nil => simp
  | cons v below ih =>
    rw [List.cons_append, each v List.mem_cons_self,
      ih fun w member => each w (List.mem_cons_of_mem v member)]
    simp only [List.mapM_cons, bind_assoc, pure_bind, List.flatten_cons, List.append_assoc]

theorem visits_ok_iff {number : Fin chart.size} {around : Leaf S I}
    {below : List (Visit S I (Fin chart.size))} :
    chart.visits number around = .ok below ↔ ∃ states,
      (chart.level number).startFirst = .ok states ∧
        List.Forall₂ (fun state v => chart.visit number around state = .ok v) states below := by
  simp only [visits, bind_ok_iff, mapFromLast_ok_iff]

theorem visit_ok_iff {number : Fin chart.size} {around : Leaf S I}
    {state : State S I (Fin chart.size)} {v : Visit S I (Fin chart.size)} :
    chart.visit number around state = .ok v ↔ ∃ own,
      List.Forall₂ (fun t c => chart.candidate number around.path t = .ok c)
        state.transitions own ∧
      v = ⟨⟨around.path ++ [state.symbol], around.entries ++ state.entry.toList,
        state.exit.toList ++ around.exits, around.candidates ++ own⟩, state.inner⟩ := by
  simp only [visit, bind_ok_iff, mapM_ok_iff, pure, Except.pure, Except.ok.injEq]
  simp only [eq_comm (b := v)]

theorem nests_of_visits {number : Fin chart.size} {around : Leaf S I}
    {below : List (Visit S I (Fin chart.size))} (prepared : chart.visits number around = .ok below)
    {v : Visit S I (Fin chart.size)} (member : v ∈ below) {inner : Fin chart.size}
    (nested : v.inner = some inner) : chart.Nests number inner := by
  obtain ⟨states, ordered, prepared⟩ := visits_ok_iff.mp prepared
  obtain ⟨state, memberState, visited⟩ := forall₂_mem_right prepared member
  obtain ⟨own, _, rfl⟩ := visit_ok_iff.mp visited
  exact nests_of_state (Level.mem_of_startFirst ordered memberState) nested

theorem unrolls_leaf {v : Visit S I (Fin chart.size)} (plain : v.inner = none)
    (above : List (Fin chart.size)) : chart.UnrollsAlone above v := by
  intro rest
  rw [expand_leaf plain, unrolledVisit, plain]
  rfl

/-- As many levels are around a visit as its path is long; they are distinct, so the chart has room
for one more. -/
theorem unrolls_inner {number : Fin chart.size} (acyclic : chart.Acyclic number) :
    ∀ {above : List (Fin chart.size)} {v : Visit S I (Fin chart.size)}, above.Nodup →
      chart.Clear above number → v.inner = some number → v.record.path.length = above.length →
      chart.UnrollsAlone above v := by
  induction acyclic using nesting_induction with
  | step number acyclic ih =>
    intro above v distinct clear nested deep rest
    have fresh := not_mem_of_clear clear
    have distinctMore : (number :: above).Nodup := List.nodup_cons.mpr ⟨fresh, distinct⟩
    have room : v.record.path.length < chart.size := by
      rw [deep]
      exact length_le_size distinctMore
    rw [expand_inner nested room, unrolledVisit, nested]
    dsimp only
    rw [unrolled_eq fresh]
    cases prepared : chart.visits number v.record with
    | error => rfl
    | ok below =>
      have each : ∀ w ∈ below, chart.UnrollsAlone (number :: above) w := by
        intro w member
        cases nestedBelow : w.inner with
        | none => exact unrolls_leaf nestedBelow _
        | some inner =>
          have nests := nests_of_visits prepared member nestedBelow
          refine ih inner nests distinctMore (clear_cons acyclic clear nests) nestedBelow ?_
          rw [chart.path_length_of_visits prepared member, deep, List.length_cons]
      have run := expand_visits each rest
      simp only [bind, Except.bind] at run ⊢
      rw [run]
      cases below.mapM (chart.unrolledVisit (number :: above)) <;> rfl

theorem leaves_eq_unrolled {root : Fin chart.size} (acyclic : chart.Acyclic root) :
    chart.leaves root = chart.unrolled [] root .outside := by
  rw [leaves, unrolled_eq List.not_mem_nil]
  cases prepared : chart.visits root .outside with
  | error => rfl
  | ok below =>
    have each : ∀ v ∈ below, chart.UnrollsAlone [root] v := by
      intro v member
      cases nested : v.inner with
      | none => exact unrolls_leaf nested _
      | some inner =>
        have nests := nests_of_visits prepared member nested
        refine unrolls_inner (acyclic_of_nests acyclic nests) (List.nodup_singleton root)
          (clear_cons acyclic (clear_nil root) nests) nested ?_
        rw [chart.path_length_of_visits prepared member]
        rfl
    have run := expand_visits each []
    rw [List.append_nil, expand] at run
    simp only [bind, Except.bind] at run ⊢
    rw [run]
    cases below.mapM (chart.unrolledVisit [root]) with
    | error => rfl
    | ok parts => simp [pure, Except.pure]

end Statechart.Chart
