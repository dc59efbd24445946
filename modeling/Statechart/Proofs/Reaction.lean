import Statechart.Proofs.Binding
import Statechart.Proofs.Trail

/-!
Reactions. An input is answered by the innermost state on the trail that declares a transition for
it. The machine then leaves every state on the trail and enters every state on the next one, which
agrees with the old one above the state that answered.
-/
namespace Statechart

namespace Trail

variable {S I L : Type}

def Silent (trail : Trail S I L) (input : I) : Prop :=
  ∀ stop ∈ trail, ∀ t ∈ stop.state.transitions, t.input ≠ input

/-- Below the trail `above` comes the innermost stop whose state declares a transition
for the input. -/
structure Answers (trail : Trail S I L) (input : I) (above : Trail S I L) (stop : Stop S I L)
    (t : Transition S I) : Prop where
  declared : t ∈ stop.state.transitions
  named : t.input = input
  innermost : ∃ below, trail = above ++ stop :: below ∧ Silent below input

theorem silent_nil (input : I) : Silent ([] : Trail S I L) input :=
  fun _ member => absurd member List.not_mem_nil

theorem silent_cons {stop : Stop S I L} {rest : Trail S I L} {input : I} :
    Silent (stop :: rest) input ↔
      (∀ t ∈ stop.state.transitions, t.input ≠ input) ∧ rest.Silent input := by
  simp [Silent]

theorem answers_cons {first stop : Stop S I L} {rest above : Trail S I L} {input : I}
    {t : Transition S I} : Answers (first :: rest) input above stop t ↔
      (above = [] ∧ stop = first ∧ t ∈ first.state.transitions ∧ t.input = input ∧
        rest.Silent input) ∨
      ∃ deeper, above = first :: deeper ∧ rest.Answers input deeper stop t := by
  constructor
  · intro answers
    obtain ⟨below, split, silent⟩ := answers.innermost
    cases above with
    | nil =>
      obtain ⟨rfl, rfl⟩ := List.cons.inj split
      exact Or.inl ⟨rfl, rfl, answers.declared, answers.named, silent⟩
    | cons outer above =>
      obtain ⟨rfl, further⟩ := List.cons.inj split
      exact Or.inr ⟨above, rfl, answers.declared, answers.named, below, further, silent⟩
  · intro cases
    rcases cases with ⟨rfl, rfl, declared, named, silent⟩ | ⟨deeper, rfl, answers⟩
    · exact ⟨declared, named, rest, rfl, silent⟩
    · obtain ⟨below, split, silent⟩ := answers.innermost
      exact ⟨answers.declared, answers.named, below, by rw [split, List.cons_append], silent⟩

theorem silent_or_answers (trail : Trail S I L) (input : I) :
    trail.Silent input ∨ ∃ above stop t, trail.Answers input above stop t := by
  induction trail with
  | nil => exact Or.inl (silent_nil input)
  | cons first rest ih =>
    rcases ih with silent | ⟨above, stop, t, answers⟩
    · by_cases declares : ∃ t ∈ first.state.transitions, t.input = input
      · obtain ⟨t, declared, named⟩ := declares
        exact Or.inr ⟨[], first, t, declared, named, rest, rfl, silent⟩
      · refine Or.inl (silent_cons.mpr ⟨fun t declared named => ?_, silent⟩)
        exact declares ⟨t, declared, named⟩
    · exact Or.inr ⟨first :: above, stop, t, answers_cons.mpr (Or.inr ⟨above, rfl, answers⟩)⟩

theorem stop_mem_of_answers {trail above : Trail S I L} {input : I} {stop : Stop S I L}
    {t : Transition S I} (answers : trail.Answers input above stop t) : stop ∈ trail := by
  obtain ⟨below, split, _⟩ := answers.innermost
  simp [split]

theorem not_silent_of_answers {trail above : Trail S I L} {input : I} {stop : Stop S I L}
    {t : Transition S I} (answers : trail.Answers input above stop t) : ¬ trail.Silent input :=
  fun silent => silent stop (stop_mem_of_answers answers) t answers.declared answers.named

theorem answers_unique {trail : Trail S I L} {input : I}
    (distinct : ∀ stop ∈ trail, (stop.state.transitions.map Transition.input).Nodup)
    {above otherAbove : Trail S I L} {stop otherStop : Stop S I L} {t other : Transition S I}
    (answers : trail.Answers input above stop t)
    (answersOther : trail.Answers input otherAbove otherStop other) :
    above = otherAbove ∧ stop = otherStop ∧ t = other := by
  induction trail generalizing above otherAbove with
  | nil => exact absurd (silent_nil input) (not_silent_of_answers answers)
  | cons first rest ih =>
    have distinctRest : ∀ stop ∈ rest, (stop.state.transitions.map Transition.input).Nodup :=
      fun stop member => distinct stop (List.mem_cons_of_mem first member)
    rcases answers_cons.mp answers with ⟨rfl, rfl, declared, named, silent⟩ | ⟨deeper, rfl, inside⟩
    · rcases answers_cons.mp answersOther with
        ⟨rfl, rfl, declaredOther, namedOther, _⟩ | ⟨_, _, insideOther⟩
      · have same := List.inj_on_of_nodup_map (distinct _ List.mem_cons_self) declared
          declaredOther (named.trans namedOther.symm)
        exact ⟨rfl, rfl, same⟩
      · exact absurd silent (not_silent_of_answers insideOther)
    · rcases answers_cons.mp answersOther with ⟨_, _, _, _, silent⟩ | ⟨_, rfl, insideOther⟩
      · exact absurd silent (not_silent_of_answers inside)
      · obtain ⟨rfl, sameStop, same⟩ := ih distinctRest inside insideOther
        exact ⟨rfl, sameStop, same⟩

theorem not_declared_of_silent {depth : Nat} {trail : Trail S I L} {input : I} {rank : Nat}
    (silent : trail.Silent input) : (input, rank) ∉ trail.declared depth := by
  intro member
  obtain ⟨above, stop, below, rfl, _, t, declares, named⟩ := mem_declared.mp member
  exact silent stop (by simp) t declares named

theorem mem_inputs [DecidableEq I] {trail : Trail S I L} {input : I} :
    input ∈ trail.inputs ↔ ¬ trail.Silent input := by
  rw [inputs, List.mem_eraseDups, List.mem_map]
  constructor
  · rintro ⟨⟨_, rank⟩, member, rfl⟩ silent
    exact not_declared_of_silent silent member
  · intro loud
    by_contra none
    apply loud
    intro stop among t declares named
    obtain ⟨above, below, rfl⟩ := List.append_of_mem among
    exact none ⟨_, mem_declared.mpr ⟨above, stop, below, rfl, rfl, t, declares, named⟩, rfl⟩

end Trail

namespace Chart

variable {S I : Type}

/-- From the trail the input leads to the next one. The rank counts the states above the one that
answered, with it; the hooks are run in order. -/
inductive Reacts (chart : Chart S I) (trail : Trail S I (Fin chart.size)) (input : I) :
    Nat → List Hook → Trail S I (Fin chart.size) → Prop where
  | intro {above landing : Trail S I (Fin chart.size)} {stop : Stop S I (Fin chart.size)}
      {t : Transition S I} (answers : trail.Answers input above stop t)
      (lands : chart.Lands stop.level t.target landing) :
      Reacts chart trail input (above.length + 1)
        (trail.exits ++ t.effect.toList ++ Trail.entries (above ++ landing)) (above ++ landing)

variable {chart : Chart S I} {root : Fin chart.size} {trail : Trail S I (Fin chart.size)}

theorem leads_of_reacts (leads : chart.Leads root trail) {input : I} {rank : Nat}
    {hooks : List Hook} {next : Trail S I (Fin chart.size)}
    (reacts : chart.Reacts trail input rank hooks next) : chart.Leads root next := by
  cases reacts with
  | @intro above landing stop t answers lands =>
    obtain ⟨below, rfl, _⟩ := answers.innermost
    obtain ⟨_, _, replace⟩ := leads_split leads
    exact replace landing (leads_of_lands lands)

theorem not_silent_of_reacts {input : I} {rank : Nat} {hooks : List Hook}
    {next : Trail S I (Fin chart.size)} (reacts : chart.Reacts trail input rank hooks next) :
    ¬ trail.Silent input := by
  cases reacts with
  | intro answers _ => exact Trail.not_silent_of_answers answers

theorem inputs_nodup_of_leads (wellformed : chart.Wellformed root) (leads : chart.Leads root trail)
    {stop : Stop S I (Fin chart.size)} (member : stop ∈ trail) :
    (stop.state.transitions.map Transition.input).Nodup :=
  ((wellformed.sound _ (leads_reaches leads member)).states _ (leads_state_mem leads member)).inputs

theorem lands_of_answers (wellformed : chart.Wellformed root) (leads : chart.Leads root trail)
    {input : I} {above : Trail S I (Fin chart.size)} {stop : Stop S I (Fin chart.size)}
    {t : Transition S I} (answers : trail.Answers input above stop t) :
    ∃ landing, chart.Lands stop.level t.target landing := by
  have member := Trail.stop_mem_of_answers answers
  have inside := wellformed_of_reaches wellformed (leads_reaches leads member)
  have sound := (inside.sound _ .refl).states _ (leads_state_mem leads member)
  exact lands_exists inside t.target (sound.targets t answers.declared)

theorem silent_or_reacts (wellformed : chart.Wellformed root) (leads : chart.Leads root trail)
    (input : I) :
    trail.Silent input ∨ ∃ rank hooks next, chart.Reacts trail input rank hooks next := by
  rcases trail.silent_or_answers input with silent | ⟨above, stop, t, answers⟩
  · exact Or.inl silent
  · obtain ⟨landing, lands⟩ := lands_of_answers wellformed leads answers
    exact Or.inr ⟨_, _, _, .intro answers lands⟩

theorem reacts_unique [DecidableEq S] (wellformed : chart.Wellformed root)
    (leads : chart.Leads root trail) {input : I} {rank otherRank : Nat}
    {hooks otherHooks : List Hook} {next other : Trail S I (Fin chart.size)}
    (reacts : chart.Reacts trail input rank hooks next)
    (reactsOther : chart.Reacts trail input otherRank otherHooks other) :
    rank = otherRank ∧ hooks = otherHooks ∧ next = other := by
  cases reacts with
  | @intro above landing stop t answers lands =>
    cases reactsOther with
    | @intro otherAbove otherLanding otherStop otherT answersOther landsOther =>
      have distinct : ∀ stop ∈ trail, (stop.state.transitions.map Transition.input).Nodup :=
        fun stop member => inputs_nodup_of_leads wellformed leads member
      obtain ⟨rfl, rfl, rfl⟩ := Trail.answers_unique distinct answers answersOther
      have inside := wellformed_of_reaches wellformed
        (leads_reaches leads (Trail.stop_mem_of_answers answers))
      have same := lands_unique inside lands landsOther
      subst same
      exact ⟨rfl, rfl, rfl⟩

/-- No state or transition that can be reached has a lazy hook. -/
def Fixed (chart : Chart S I) (root : Fin chart.size) : Prop :=
  ∀ number, chart.Reaches root number → ∀ state ∈ (chart.level number).states,
    ∀ hook ∈ state.hooks, hook.Fixed

theorem lamp_fixed : lamp.Fixed lampRoot := by
  have all : ∀ number, ∀ state ∈ (lamp.level number).states, ∀ hook ∈ state.hooks,
      hook.Fixed := by decide
  exact fun number _ => all number

def Carried (trail : Trail S I (Fin chart.size)) (hook : Hook) : Prop :=
  ∃ stop ∈ trail, hook ∈ stop.state.hooks

theorem carried_of_entries {hook : Hook} (member : hook ∈ trail.entries) : Carried trail hook := by
  obtain ⟨stop, among, here⟩ := List.mem_filterMap.mp member
  exact ⟨stop, among, by simp [State.hooks, here]⟩

theorem carried_of_exits {hook : Hook} (member : hook ∈ trail.exits) : Carried trail hook := by
  obtain ⟨stop, among, here⟩ := List.mem_filterMap.mp member
  exact ⟨stop, List.mem_reverse.mp among, by simp [State.hooks, here]⟩

theorem carried_of_effect {hook : Hook} {stop : Stop S I (Fin chart.size)} (among : stop ∈ trail)
    {t : Transition S I} (declared : t ∈ stop.state.transitions)
    (present : hook ∈ t.effect.toList) : Carried trail hook := by
  have effect : hook ∈ stop.state.transitions.filterMap Transition.effect :=
    List.mem_filterMap.mpr ⟨t, declared, Option.mem_toList.mp present⟩
  exact ⟨stop, among, List.mem_append_right _ effect⟩

theorem fixed_of_carried (fixed : chart.Fixed root) (leads : chart.Leads root trail) {hook : Hook}
    (carried : Carried trail hook) : hook.Fixed := by
  obtain ⟨stop, among, member⟩ := carried
  exact fixed _ (leads_reaches leads among) _ (leads_state_mem leads among) hook member

theorem fixed_of_reacts (fixed : chart.Fixed root) {input : I} {rank : Nat}
    {hooks : List Hook} {next : Trail S I (Fin chart.size)} (leads : chart.Leads root trail)
    (reacts : chart.Reacts trail input rank hooks next) : ∀ hook ∈ hooks, hook.Fixed := by
  have leadsNext := leads_of_reacts leads reacts
  cases reacts with
  | @intro above landing stop t answers lands =>
    intro hook member
    rcases List.mem_append.mp member with before | entry
    · rcases List.mem_append.mp before with exit | effect
      · exact fixed_of_carried fixed leads (carried_of_exits exit)
      · have among := Trail.stop_mem_of_answers answers
        exact fixed_of_carried fixed leads (carried_of_effect among answers.declared effect)
    · exact fixed_of_carried fixed leadsNext (carried_of_entries entry)

end Chart
end Statechart
