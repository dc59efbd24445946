import Mathlib
import Statechart.Proofs.Building
import Statechart.Proofs.Moves

/-!
Rounds. Each loop over the levels of a chart is given by what it does in one round, without a bound
on their number. The survey and the build of machines come to an end on every chart; the descent to
a start leaf and the work on pending visits do so wherever the bounded ones have a result.
-/
namespace Statechart

inductive Round (σ ρ : Type) where
  | next (state : σ)
  | done (result : ρ)

/-- Of a level that is met on a walk, it matters whether it is done with and, if not, whether it
waits for those inside it. -/
inductive Standing where
  | known
  | waiting
  | new

def standing {L : Type} [DecidableEq L] (known waiting : List L) (level : L) : Standing :=
  if level ∈ known then .known else if level ∈ waiting then .waiting else .new

section Standing

variable {L : Type} [DecidableEq L] {known waiting : List L} {level : L}

theorem standing_known (member : level ∈ known) : standing known waiting level = .known :=
  if_pos member

theorem standing_waiting (fresh : level ∉ known) (member : level ∈ waiting) :
    standing known waiting level = .waiting := by
  rw [standing, if_neg fresh, if_pos member]

theorem standing_new (fresh : level ∉ known) (unmet : level ∉ waiting) :
    standing known waiting level = .new := by
  rw [standing, if_neg fresh, if_neg unmet]

end Standing

/-- From the given state on, the loop ends with the result after no more than so many rounds. -/
inductive EndsWithin {σ ρ : Type} (round : σ → Round σ ρ) : Nat → σ → ρ → Prop where
  | last {bound : Nat} {state : σ} {result : ρ} (done : round state = .done result) :
      EndsWithin round (bound + 1) state result
  | more {bound : Nat} {state next : σ} {result : ρ} (step : round state = .next next)
      (rest : EndsWithin round bound next result) : EndsWithin round (bound + 1) state result

theorem endsWithin_mono {σ ρ : Type} {round : σ → Round σ ρ} {bound more : Nat} {state : σ}
    {result : ρ} (ends : EndsWithin round bound state result) (room : bound ≤ more) :
    EndsWithin round more state result := by
  induction ends generalizing more with
  | last done =>
    obtain ⟨rest, rfl⟩ := Nat.exists_eq_add_of_lt room
    exact .last done
  | more step _ ih =>
    obtain ⟨rest, rfl⟩ := Nat.exists_eq_add_of_lt room
    exact .more step (ih (by omega))

structure SurveyState (L : Type) where
  checked : List L
  active : List L
  errands : List (Errand L)

structure BuildState (S I L : Type) [DecidableEq S] [Hashable S] where
  workshop : Workshop S I L
  deferred : List L
  tasks : List (Task L)
  journal : Journal

namespace Chart

variable {S I : Type} (chart : Chart S I)

/-- How many tasks the levels that are not yet known can put on a stack: each those nested in it,
and one for itself. -/
def reserve (known : List (Fin chart.size)) : Nat :=
  ∑ number ∈ known.toFinsetᶜ, ((chart.level number).inners.length + 1)

noncomputable def extent (root : Fin chart.size) : Nat :=
  {number | chart.Reaches root number}.ncard

variable [DecidableEq S]

def descentRound : Path S × State S I (Fin chart.size) →
    Round (Path S × State S I (Fin chart.size)) (Except (Fault S I) (Path S))
  | (path, state) =>
    match state.inner with
    | none => .done (.ok path)
    | some number =>
      match (chart.level number).state? (chart.level number).start with
      | none => .done (.error (.unknownStart (chart.level number).start))
      | some start => .next (path ++ [start.symbol], start)

def unrollRound : List (Leaf S I) × List (Visit S I (Fin chart.size)) →
    Round (List (Leaf S I) × List (Visit S I (Fin chart.size)))
      (Except (Fault S I) (List (Leaf S I)))
  | (leaves, []) => .done (.ok leaves)
  | (leaves, v :: rest) =>
    match v.inner with
    | none => .next (leaves ++ [v.record], rest)
    | some number =>
      match chart.visits number v.record with
      | .error fault => .done (.error fault)
      | .ok below => .next (leaves, below ++ rest)

def surveyRound [DecidableEq I] : SurveyState (Fin chart.size) →
    Round (SurveyState (Fin chart.size)) (Except (Fault S I) (List (Fin chart.size)))
  | ⟨checked, _, []⟩ => .done (.ok checked)
  | ⟨checked, active, .enter number :: rest⟩ =>
    match standing checked active number with
    | .known => .next ⟨checked, active, rest⟩
    | .waiting => .done (.error (.cyclic (chart.level number).start))
    | .new =>
      match (chart.level number).fault? with
      | some fault => .done (.error fault)
      | none => .next ⟨checked, number :: active,
          (chart.level number).inners.map .enter ++ .leave number :: rest⟩
  | ⟨checked, active, .leave number :: rest⟩ =>
    .next ⟨number :: checked, active.erase number, rest⟩

def buildRound [Hashable S] [Named S] [Named I] (options : Options) :
    BuildState S I (Fin chart.size) → Round (BuildState S I (Fin chart.size))
      (Except (Fault S I) (Workshop S I (Fin chart.size)) × Journal)
  | ⟨workshop, _, [], journal⟩ => .done (.ok workshop, journal)
  | ⟨workshop, deferred, .visit number :: rest, journal⟩ =>
    match standing workshop.levels deferred number with
    | .known => .next ⟨workshop, deferred, rest, journal⟩
    | .waiting => .done (.error (.cyclic (chart.level number).start), journal)
    | .new => .next ⟨workshop, number :: deferred,
        (workshop.unmet (chart.level number)).map .visit ++ .build number :: rest, journal⟩
  | ⟨workshop, deferred, .build number :: rest, journal⟩ =>
    match ((chart.level number).bind options (chart.machineOf workshop)).run journal with
    | (.error fault, after) => .done (.error fault, after)
    | (.ok machine, after) =>
      .next ⟨workshop ++ [(number, machine)], deferred.erase number, rest, after⟩

variable {chart}

omit [DecidableEq S] in
theorem reserve_le {known more : List (Fin chart.size)} (kept : ∀ number ∈ known, number ∈ more) :
    chart.reserve more ≤ chart.reserve known := by
  refine Finset.sum_le_sum_of_subset fun number new => ?_
  simp only [Finset.mem_compl, List.mem_toFinset] at new ⊢
  exact fun old => new (kept number old)

omit [DecidableEq S] in
theorem reserve_cons {known : List (Fin chart.size)} {number : Fin chart.size}
    (fresh : number ∉ known) :
    chart.reserve (number :: known) + ((chart.level number).inners.length + 1)
      = chart.reserve known := by
  have unknown : number ∈ known.toFinsetᶜ := by simpa using fresh
  rw [reserve, reserve, List.toFinset_cons, Finset.compl_insert, Finset.sum_erase_add _ _ unknown]

omit [DecidableEq S] in
theorem reserve_erase {deferred known more : List (Fin chart.size)} {number : Fin chart.size}
    (kept : ∀ n ∈ known, n ∈ more) (new : number ∈ more) :
    chart.reserve (deferred.erase number ++ more) ≤ chart.reserve (deferred ++ known) := by
  apply reserve_le
  intro n member
  rcases List.mem_append.mp member with waiting | old
  · by_cases same : n = number
    · exact List.mem_append_right _ (same ▸ new)
    · exact List.mem_append_left _ ((List.mem_erase_of_ne same).mpr waiting)
  · exact List.mem_append_right _ (kept n old)

theorem survey_ends [DecidableEq I] (checked active : List (Fin chart.size))
    (errands : List (Errand (Fin chart.size))) :
    EndsWithin chart.surveyRound (errands.length + chart.reserve (active ++ checked) + 1)
      ⟨checked, active, errands⟩ (chart.survey checked active errands) := by
  induction checked, active, errands using survey.induct chart with
  | case1 checked active =>
    rw [survey]
    exact .last rfl
  | case2 checked active number rest known ih =>
    rw [survey, if_pos known]
    refine .more ?_ (endsWithin_mono ih ?_)
    · rw [surveyRound, standing_known known]
    · rw [List.length_cons]
      omega
  | case3 checked active number rest unchecked met =>
    rw [survey, if_neg unchecked, if_pos met]
    refine .last ?_
    rw [surveyRound, standing_waiting unchecked met]
  | case4 checked active number rest unchecked unmet fault found =>
    rw [survey, if_neg unchecked, if_neg unmet, found]
    refine .last ?_
    rw [surveyRound, standing_new unchecked unmet]
    simp only [found]
  | case5 checked active number rest unchecked unmet single ih =>
    rw [survey, if_neg unchecked, if_neg unmet, single]
    refine .more ?_ (endsWithin_mono ih ?_)
    · rw [surveyRound, standing_new unchecked unmet]
      simp only [single]
    · have fresh : number ∉ active ++ checked := by simp [unmet, unchecked]
      have paid := reserve_cons fresh
      simp only [List.length_append, List.length_map, List.length_cons, List.cons_append]
      omega
  | case6 checked active number rest ih =>
    rw [survey]
    refine .more rfl (endsWithin_mono ih ?_)
    have known : chart.reserve (active.erase number ++ number :: checked)
        ≤ chart.reserve (active ++ checked) :=
      reserve_erase (fun _ => List.mem_cons_of_mem number) List.mem_cons_self
    rw [List.length_cons]
    omega

theorem build_ends [Hashable S] [Named S] [Named I] (options : Options)
    (workshop : Workshop S I (Fin chart.size)) (deferred : List (Fin chart.size))
    (tasks : List (Task (Fin chart.size))) (journal : Journal) :
    EndsWithin (chart.buildRound options)
      (tasks.length + chart.reserve (deferred ++ workshop.levels) + 1)
      ⟨workshop, deferred, tasks, journal⟩
      ((chart.build options workshop deferred tasks).run journal) := by
  induction workshop, deferred, tasks using build.induct chart generalizing journal with
  | case1 workshop deferred =>
    rw [build]
    exact .last rfl
  | case2 workshop deferred number rest known ih =>
    rw [build, if_pos known]
    refine .more ?_ (endsWithin_mono (ih journal) ?_)
    · rw [buildRound, standing_known known]
    · rw [List.length_cons]
      omega
  | case3 workshop deferred number rest unknown met =>
    rw [build, if_neg unknown, if_pos met]
    refine .last ?_
    rw [buildRound, standing_waiting unknown met]
    rfl
  | case4 workshop deferred number rest unknown unmet ih =>
    rw [build, if_neg unknown, if_neg unmet]
    refine .more ?_ (endsWithin_mono (ih journal) ?_)
    · rw [buildRound, standing_new unknown unmet]
    · have fresh : number ∉ deferred ++ workshop.levels := by simp [unmet, unknown]
      have paid := reserve_cons fresh
      have fewer := workshop.length_unmet_le (chart.level number)
      simp only [List.length_append, List.length_map, List.length_cons, List.cons_append]
      omega
  | case5 workshop deferred number rest ih =>
    rw [build, Compilation.run_bind]
    cases bound : ((chart.level number).bind options (chart.machineOf workshop)).run journal with
    | mk result after =>
      cases result with
      | error fault =>
        refine .last ?_
        rw [buildRound, bound]
      | ok machine =>
        refine .more ?_ (endsWithin_mono (ih machine after) ?_)
        · rw [buildRound, bound]
        · have levels : Workshop.levels (workshop ++ [(number, machine)])
              = workshop.levels ++ [number] := by simp [Workshop.levels]
          have known : chart.reserve (deferred.erase number ++ (workshop.levels ++ [number]))
              ≤ chart.reserve (deferred ++ workshop.levels) :=
            reserve_erase (fun _ => List.mem_append_left _) (by simp)
          rw [List.length_cons, levels]
          omega

theorem descent_ends {depth : Nat} {state : State S I (Fin chart.size)} {below : Path S}
    (run : chart.descent depth state = .ok below) (above : Path S) :
    EndsWithin chart.descentRound below.length (above ++ [state.symbol], state)
      (.ok (above ++ below)) := by
  induction depth, state using descent.induct chart generalizing below above with
  | case1 depth state plain =>
    rw [descent, plain] at run
    cases run
    refine .last ?_
    rw [descentRound, plain]
  | case2 state number nested =>
    rw [descent, nested] at run
    cases run
  | case3 state number nested depth missing =>
    rw [descent, nested] at run
    simp only [missing, reduceCtorEq] at run
  | case4 state number nested depth start found ih =>
    rw [descent, nested] at run
    simp only [found] at run
    obtain ⟨rest, inside, shape⟩ := bind_ok_iff.mp run
    cases shape
    rw [List.append_cons above state.symbol rest]
    refine .more ?_ (ih inside (above ++ [state.symbol]))
    rw [descentRound, nested]
    simp only [found]

theorem unroll_ends {pending : List (Visit S I (Fin chart.size))} {leaves : List (Leaf S I)}
    (run : chart.expand pending = .ok leaves) (before : List (Leaf S I)) :
    EndsWithin chart.unrollRound (chart.pendingWeight pending + 1) (before, pending)
      (.ok (before ++ leaves)) := by
  induction pending using expand.induct chart generalizing leaves before with
  | case1 =>
    rw [expand] at run
    cases run
    refine .last ?_
    rw [unrollRound, List.append_nil]
  | case2 v rest plain ih =>
    rw [expand_leaf plain] at run
    cases others : chart.expand rest with
    | error =>
      rw [others] at run
      cases run
    | ok later =>
      rw [others] at run
      cases run
      rw [List.append_cons]
      refine .more ?_ (endsWithin_mono (ih others _) ?_)
      · rw [unrollRound, plain]
      · have := chart.weight_pos (chart.size - v.record.path.length)
        rw [pendingWeight]
        omega
  | case3 v rest number nested room fault failed =>
    rw [expand_inner nested room, failed] at run
    cases run
  | case4 v rest number nested room below prepared ih =>
    rw [expand_inner nested room, prepared] at run
    refine .more ?_ (endsWithin_mono (ih run before) ?_)
    · rw [unrollRound, nested]
      simp only [prepared]
    · have := chart.pendingWeight_visits_lt room prepared
      rw [pendingWeight_append, pendingWeight]
      omega
  | case5 v rest number nested full =>
    unfold expand at run
    simp [nested, full] at run

end Chart
end Statechart
