import Statechart.Proofs.Moves

/-!
Levels in their surroundings. A level may be compiled as a root of its own, or as a part of a chart
in which it is reached through composite states. It has the same leaves and moves both ways, but for
the states around it: these add their symbols to the paths, their number to the ranks and their
hooks to the actions, and they answer the inputs that the level leaves unanswered.
-/
namespace Statechart

namespace Trail

variable {S I L : Type} {outer inner above : Trail S I L} {input : I} {stop : Stop S I L}
  {t : Transition S I}

theorem silent_append :
    Silent (outer ++ inner) input ↔ outer.Silent input ∧ inner.Silent input :=
  List.forall_mem_append

theorem answers_below (outer : Trail S I L) (answers : inner.Answers input above stop t) :
    Answers (outer ++ inner) input (outer ++ above) stop t := by
  obtain ⟨below, split, silent⟩ := answers.innermost
  exact ⟨answers.declared, answers.named, below, by rw [split, List.append_assoc], silent⟩

theorem answers_above (silent : inner.Silent input) (answers : outer.Answers input above stop t) :
    Answers (outer ++ inner) input above stop t := by
  obtain ⟨below, split, silentBelow⟩ := answers.innermost
  refine ⟨answers.declared, answers.named, below ++ inner, by simp [split], ?_⟩
  exact silent_append.mpr ⟨silentBelow, silent⟩

theorem length_lt_of_answers (answers : outer.Answers input above stop t) :
    above.length < outer.length := by
  obtain ⟨below, split, _⟩ := answers.innermost
  simp [split]

end Trail

namespace Chart

variable {S I : Type}

/-- The way from a level through composite states down to a level. -/
inductive Stem (chart : Chart S I) :
    Fin chart.size → Trail S I (Fin chart.size) → Fin chart.size → Prop where
  | done (number : Fin chart.size) : Stem chart number [] number
  | deeper {number inner level : Fin chart.size} {state : State S I (Fin chart.size)}
      {rest : Trail S I (Fin chart.size)} (member : state ∈ (chart.level number).states)
      (nested : state.inner = some inner) (below : Stem chart inner rest level) :
      Stem chart number (⟨number, state⟩ :: rest) level

variable {chart : Chart S I} {root level : Fin chart.size}
  {stem trail next : Trail S I (Fin chart.size)}

theorem reaches_of_stem (way : chart.Stem root stem level) : chart.Reaches root level := by
  induction way with
  | done => exact .refl
  | deeper member nested _ ih => exact .head (nests_of_state member nested) ih

theorem leads_of_stem (way : chart.Stem root stem level) (leads : chart.Leads level trail) :
    chart.Leads root (stem ++ trail) := by
  induction way with
  | done => exact leads
  | deeper member nested _ ih => exact .deeper member nested (ih leads)

theorem reacts_below {input : I} {rank : Nat} {hooks : List Hook}
    (reacts : chart.Reacts trail input rank hooks next) (stem : Trail S I (Fin chart.size)) :
    ∃ effect : Option Hook, hooks = trail.exits ++ effect.toList ++ next.entries ∧
      chart.Reacts (stem ++ trail) input (rank + stem.length)
        (trail.exits ++ stem.exits ++ effect.toList ++ (stem.entries ++ next.entries))
        (stem ++ next) := by
  cases reacts with
  | @intro above landing stop t answers lands =>
    refine ⟨t.effect, rfl, ?_⟩
    have below := Reacts.intro (Trail.answers_below stem answers) lands
    have rank : (stem ++ above).length + 1 = above.length + 1 + stem.length := by
      rw [List.length_append]
      omega
    rw [rank] at below
    simpa using below

section Moves

variable [DecidableEq S] [Named S] [Named I] {options : Options} {moves : List (Move S I)}

theorem carries_of_source (wellformed : chart.Wellformed root)
    (made : chart.MovesFrom root options moves) (leads : chart.Leads root trail) {m : Move S I}
    (member : m ∈ moves) (source : m.source = trail.path) :
    ∃ hooks next, chart.Carries options trail hooks next m := by
  obtain ⟨other, hooks, next, leadsOther, carries⟩ := trail_of_move wellformed made member
  have same : other = trail := leads_path_injective wellformed.sound leadsOther leads
    (carries.source.symm.trans source)
  subst same
  exact ⟨hooks, next, carries⟩

variable [DecidableEq I]

theorem filter_of_silent (wellformed : chart.Wellformed root)
    (made : chart.MovesFrom root options moves) (leads : chart.Leads root trail) {input : I}
    (silent : trail.Silent input) :
    moves.filter (fun m => m.source = trail.path ∧ m.input = input) = [] := by
  apply List.filter_eq_nil_iff.mpr
  intro m member both
  obtain ⟨source, named⟩ := of_decide_eq_true both
  obtain ⟨_, _, carries⟩ := carries_of_source wellformed made leads member source
  exact not_silent_of_reacts carries.reacts (named ▸ silent)

theorem filter_of_reacts (wellformed : chart.Wellformed root)
    (made : chart.MovesFrom root options moves) (leads : chart.Leads root trail) {input : I}
    {rank : Nat} {hooks : List Hook} (reacts : chart.Reacts trail input rank hooks next) :
    ∃ m, moves.filter (fun m => m.source = trail.path ∧ m.input = input) = [m] ∧
      m.rank = rank ∧ m.target = next.path ∧ Performs m.action.run hooks := by
  obtain ⟨m, member, named, otherHooks, other, carries⟩ :=
    move_of_trail wellformed made leads (not_silent_of_reacts reacts)
  subst named
  obtain ⟨rank, rfl, rfl⟩ := reacts_unique wellformed leads reacts carries.reacts
  refine ⟨m, ?_, rank.symm, carries.target, carries.action⟩
  have alone := filter_of_distinct Move.key (moves_keys_nodup wellformed made) member
  rw [← alone]
  apply List.filter_congr
  intro other _
  rw [← carries.source, Bool.eq_iff_iff]
  simp [Move.key]

end Moves

variable [DecidableEq S] [DecidableEq I]

/-- The moves of the inner level, below the stem, are moves of the whole; all other moves from there
come from the states of the stem. -/
structure Embeds (chart : Chart S I) (root level : Fin chart.size)
    (stem : Trail S I (Fin chart.size)) (whole part : List (Move S I)) : Prop where
  leaf : ∀ trail, chart.Leads level trail → chart.Leads root (stem ++ trail)
  kept : ∀ trail, chart.Leads level trail → ∀ m ∈ part, m.source = trail.path →
    ∃ below,
      whole.filter (fun w => w.source = stem.path ++ trail.path ∧ w.input = m.input) = [below] ∧
      below.target = stem.path ++ m.target ∧ below.rank = m.rank + stem.length ∧
      ∃ (effect : Option Hook) (next : Trail S I (Fin chart.size)),
        chart.Leads level next ∧ m.target = next.path ∧
        Performs m.action.run (trail.exits ++ effect.toList ++ next.entries) ∧
        Performs below.action.run
          (trail.exits ++ stem.exits ++ effect.toList ++ (stem.entries ++ next.entries))
  added : ∀ input, ∃ answer : Option (Nat × Path S), (∀ a ∈ answer, a.1 ≤ stem.length) ∧
    ∀ trail, chart.Leads level trail → (∀ m ∈ part, m.source = trail.path → m.input ≠ input) →
      (whole.filter fun w => w.source = stem.path ++ trail.path ∧ w.input = input).map
        (fun w => (w.rank, w.target)) = answer.toList

variable [Named S] [Named I] {options : Options} {whole part : List (Move S I)}

theorem answer_of_stem (wellformed : chart.Wellformed root) (way : chart.Stem root stem level)
    (made : chart.MovesFrom root options whole) (input : I) :
    ∃ answer : Option (Nat × Path S), (∀ a ∈ answer, a.1 ≤ stem.length) ∧
      ∀ trail, chart.Leads level trail → trail.Silent input →
        (whole.filter fun w => w.source = stem.path ++ trail.path ∧ w.input = input).map
          (fun w => (w.rank, w.target)) = answer.toList := by
  rcases stem.silent_or_answers input with silent | ⟨above, stop, t, answers⟩
  · refine ⟨none, nofun, fun trail leads quiet => ?_⟩
    have all : Trail.Silent (stem ++ trail) input := Trail.silent_append.mpr ⟨silent, quiet⟩
    have none := filter_of_silent wellformed made (leads_of_stem way leads) all
    rw [Trail.path_append] at none
    rw [none]
    rfl
  · by_cases inhabited : ∃ trail, chart.Leads level trail ∧ trail.Silent input
    · obtain ⟨first, leadsFirst, quietFirst⟩ := inhabited
      obtain ⟨landing, lands⟩ := lands_of_answers wellformed (leads_of_stem way leadsFirst)
        (Trail.answers_above quietFirst answers)
      refine ⟨some (above.length + 1, (above ++ landing).path), ?_, fun trail leads quiet => ?_⟩
      · rintro _ ⟨⟩
        exact Trail.length_lt_of_answers answers
      · have reacts := Reacts.intro (Trail.answers_above quiet answers) lands
        obtain ⟨m, alone, rank, target, _⟩ :=
          filter_of_reacts wellformed made (leads_of_stem way leads) reacts
        rw [Trail.path_append] at alone
        rw [alone, List.map_singleton, rank, target]
        rfl
    · refine ⟨none, nofun, fun trail leads quiet => ?_⟩
      exact absurd ⟨trail, leads, quiet⟩ inhabited

theorem embeds_of_made (wellformed : chart.Wellformed root) (way : chart.Stem root stem level)
    (made : chart.MovesFrom root options whole) (inside : chart.MovesFrom level options part) :
    chart.Embeds root level stem whole part := by
  have wellformedInside := wellformed_of_reaches wellformed (reaches_of_stem way)
  constructor
  · exact fun trail leads => leads_of_stem way leads
  · intro trail leads m member source
    obtain ⟨hooks, next, carries⟩ :=
      carries_of_source wellformedInside inside leads member source
    obtain ⟨effect, rfl, reacts⟩ := reacts_below carries.reacts stem
    obtain ⟨below, alone, rank, target, action⟩ :=
      filter_of_reacts wellformed made (leads_of_stem way leads) reacts
    rw [Trail.path_append] at alone target
    exact ⟨below, alone, target.trans (congrArg _ carries.target.symm), rank, effect, next,
      leads_of_reacts leads carries.reacts, carries.target, carries.action, action⟩
  · intro input
    obtain ⟨answer, low, settled⟩ := answer_of_stem wellformed way made input
    refine ⟨answer, low, fun trail leads without => settled trail leads ?_⟩
    rcases silent_or_reacts wellformedInside leads input with silent | ⟨_, _, _, reacts⟩
    · exact silent
    · obtain ⟨m, member, named, _, _, carries⟩ :=
        move_of_trail wellformedInside inside leads (not_silent_of_reacts reacts)
      exact absurd named (without m member carries.source)

variable [Hashable S] [Hashable I]

/-- A level inside a checked chart passes the check itself. Reached by any stem, its leaves and
moves are those of the chart below that stem, with the stem's states added; what else the chart does
from there is decided by the stem alone. -/
theorem levels_embed (chart : Chart S I) (root level : Fin chart.size)
    (stem : Trail S I (Fin chart.size)) (accepted : chart.check root = .ok ())
    (way : chart.Stem root stem level) (options : Options) (journal other : Journal) :
    ∃ whole part after otherAfter, (chart.moves root options).run journal = (.ok whole, after) ∧
      (chart.moves level options).run other = (.ok part, otherAfter) ∧
      chart.Embeds root level stem whole part := by
  have wellformed := check_ok_iff.mp accepted
  have acceptedInside : chart.check level = .ok () :=
    check_ok_iff.mpr (wellformed_of_reaches wellformed (reaches_of_stem way))
  obtain ⟨whole, after, run, made⟩ := moves_makes accepted options journal
  obtain ⟨part, otherAfter, runInside, inside⟩ := moves_makes acceptedInside options other
  exact ⟨whole, part, after, otherAfter, run, runInside, embeds_of_made wellformed way made inside⟩

def lampOn : Trail String String (Fin lamp.size) := [
  { level := lampRoot
    state := {
      symbol := "on", exit := some (.fixed "cool"), inner := some ⟨1, by decide⟩,
      transitions := [⟨"switch", "off", some (.fixed "click")⟩] } }]

theorem brightness_embeds_in_lamp : lamp.check lampRoot = .ok () ∧
    lamp.Stem lampRoot lampOn ⟨1, by decide⟩ ∧ ∃ whole part after otherAfter,
      (lamp.moves lampRoot {}).run {} = (.ok whole, after) ∧
      (lamp.moves ⟨1, by decide⟩ {}).run {} = (.ok part, otherAfter) ∧
      lamp.Embeds lampRoot ⟨1, by decide⟩ lampOn whole part := by
  have way : lamp.Stem lampRoot lampOn ⟨1, by decide⟩ :=
    .deeper (List.mem_cons_of_mem _ List.mem_cons_self) rfl (.done _)
  exact ⟨lamp_accepted, way, levels_embed lamp lampRoot _ lampOn lamp_accepted way {} {} {}⟩

end Chart
end Statechart
