import Mathlib.Data.List.Nodup
import Statechart.Proofs.Unrolling

/-!
The leaves of a chart: one for each trail from the root, start states first. What a leaf records is
read off its trail.
-/
namespace Statechart.Chart

variable {S I : Type} [DecidableEq S]

/-- The trails from a level in the order in which unrolling comes to their ends. -/
def trails (chart : Chart S I) (above : List (Fin chart.size)) (number : Fin chart.size) :
    List (Trail S I (Fin chart.size)) :=
  if _known : number ∈ above then []
  else
    match (chart.level number).startFirst with
    | .error _ => []
    | .ok states =>
      states.flatMap fun state =>
        match state.inner with
        | none => [[⟨number, state⟩]]
        | some inner => (chart.trails (number :: above) inner).map (⟨number, state⟩ :: ·)
termination_by chart.unknown above
decreasing_by
  exact chart.unknown_lt _ (fun _ => List.mem_cons_of_mem _) (by assumption) List.mem_cons_self

/-- The record at the end of a trail, for the record of what is around it. -/
inductive Records (chart : Chart S I) :
    Leaf S I → Trail S I (Fin chart.size) → Leaf S I → Prop where
  | done (around : Leaf S I) : Records chart around [] around
  | visit {around leaf : Leaf S I} {stop : Stop S I (Fin chart.size)}
      {v : Visit S I (Fin chart.size)} {rest : Trail S I (Fin chart.size)}
      (visited : chart.visit stop.level around stop.state = .ok v)
      (below : Records chart v.record rest leaf) : Records chart around (stop :: rest) leaf

variable {chart : Chart S I}

def trailsThrough (chart : Chart S I) (above : List (Fin chart.size)) (number : Fin chart.size)
    (state : State S I (Fin chart.size)) : List (Trail S I (Fin chart.size)) :=
  match state.inner with
  | none => [[⟨number, state⟩]]
  | some inner => (chart.trails above inner).map (⟨number, state⟩ :: ·)

theorem trails_eq {above : List (Fin chart.size)} {number : Fin chart.size}
    {states : List (State S I (Fin chart.size))} (fresh : number ∉ above)
    (ordered : (chart.level number).startFirst = .ok states) :
    chart.trails above number = states.flatMap (chart.trailsThrough (number :: above) number) := by
  rw [trails, dif_neg fresh, ordered]
  rfl

theorem leads_of_mem_trails {above : List (Fin chart.size)} {number : Fin chart.size}
    {trail : Trail S I (Fin chart.size)} (member : trail ∈ chart.trails above number) :
    chart.Leads number trail := by
  induction above, number using trails.induct chart generalizing trail with
  | case1 above number known =>
    rw [trails, dif_pos known] at member
    cases member
  | case2 above number fresh fault failed =>
    rw [trails, dif_neg fresh, failed] at member
    cases member
  | case3 above number fresh states ordered ih =>
    rw [trails_eq fresh ordered, List.mem_flatMap] at member
    obtain ⟨state, among, through⟩ := member
    have declared := Level.mem_of_startFirst ordered among
    unfold trailsThrough at through
    split at through
    · rename_i plain
      rw [List.mem_singleton] at through
      exact through ▸ .leaf declared plain
    · rename_i inner nested
      obtain ⟨rest, further, rfl⟩ := List.mem_map.mp through
      exact .deeper declared nested (ih inner further)

theorem mem_trails {number : Fin chart.size} (wellformed : chart.Wellformed number) :
    ∀ {above trail}, chart.Clear above number →
      (trail ∈ chart.trails above number ↔ chart.Leads number trail) := by
  induction wellformed using wellformed_induction with
  | step number wellformed ih =>
    intro above trail clear
    refine ⟨leads_of_mem_trails, fun leads => ?_⟩
    obtain ⟨states, ordered, members, _⟩ :=
      Level.startFirst_of_sound (wellformed.sound number .refl)
    rw [trails_eq (not_mem_of_clear clear) ordered, List.mem_flatMap]
    cases leads with
    | @leaf _ state member plain =>
      refine ⟨state, (members state).mpr member, ?_⟩
      simp [trailsThrough, plain]
    | @deeper _ inner state rest member nested below =>
      refine ⟨state, (members state).mpr member, ?_⟩
      have nests := nests_of_state member nested
      have further := (ih inner nests (clear_cons wellformed.acyclic clear nests)).mpr below
      simpa [trailsThrough, nested] using further

theorem head_of_trailsThrough {above : List (Fin chart.size)} {number : Fin chart.size}
    {state : State S I (Fin chart.size)} {path : Path S}
    (member : path ∈ (chart.trailsThrough above number state).map Trail.path) :
    path.head? = some state.symbol := by
  obtain ⟨trail, through, rfl⟩ := List.mem_map.mp member
  unfold trailsThrough at through
  split at through
  · rw [List.mem_singleton] at through
    subst through
    rfl
  · obtain ⟨rest, _, rfl⟩ := List.mem_map.mp through
    rfl

theorem trails_paths_nodup {number : Fin chart.size} (wellformed : chart.Wellformed number) :
    ∀ {above}, chart.Clear above number →
      ((chart.trails above number).map Trail.path).Nodup := by
  induction wellformed using wellformed_induction with
  | step number wellformed ih =>
    intro above clear
    obtain ⟨states, ordered, members, distinct⟩ :=
      Level.startFirst_of_sound (wellformed.sound number .refl)
    rw [trails_eq (not_mem_of_clear clear) ordered, List.map_flatMap, List.nodup_flatMap]
    constructor
    · intro state member
      unfold trailsThrough
      split
      · simp
      · rename_i inner nested
        have nests := nests_of_state ((members state).mp member) nested
        have below := ih inner nests (clear_cons wellformed.acyclic clear nests)
        have prefixed : ((chart.trails (number :: above) inner).map (⟨number, state⟩ :: ·)).map
            Trail.path = ((chart.trails (number :: above) inner).map Trail.path).map
              (state.symbol :: ·) := by
          simp only [List.map_map]
          rfl
        rw [prefixed]
        exact below.map fun _ _ same => List.tail_eq_of_cons_eq same
    · -- trails through different states differ in their first symbols
      refine List.Pairwise.imp ?_ (List.pairwise_map.mp distinct)
      intro first second differ
      apply List.disjoint_left.mpr
      intro path memberFirst memberSecond
      have := (head_of_trailsThrough memberFirst).symm.trans (head_of_trailsThrough memberSecond)
      exact differ (Option.some.inj this)

theorem trails_head {number : Fin chart.size} (wellformed : chart.Wellformed number) :
    ∀ {above}, chart.Clear above number → ∃ trail others,
      chart.trails above number = trail :: others ∧
        chart.Lands number (chart.level number).start trail := by
  induction wellformed using wellformed_induction with
  | step number wellformed ih =>
    intro above clear
    obtain ⟨start, found⟩ := Level.state?_of_symbol (wellformed.sound number .refl).start
    obtain ⟨member, named⟩ := Level.mem_of_state? found
    have ordered : (chart.level number).startFirst = .ok
        (start :: (chart.level number).states.filter
          fun state => state.symbol ≠ (chart.level number).start) := by
      rw [Level.startFirst, found]
    rw [trails_eq (not_mem_of_clear clear) ordered, List.flatMap_cons]
    cases nested : start.inner with
    | none =>
      rw [trailsThrough, nested]
      exact ⟨_, _, rfl, .leaf member named nested⟩
    | some inner =>
      have nests := nests_of_state member nested
      obtain ⟨rest, others, first, lands⟩ :=
        ih inner nests (clear_cons wellformed.acyclic clear nests)
      rw [trailsThrough, nested]
      simp only [first, List.map_cons, List.cons_append]
      exact ⟨_, _, rfl, .deeper member named nested lands⟩

theorem candidate_of_lands {number : Fin chart.size} (wellformed : chart.Wellformed number)
    {t : Transition S I} {landing : Trail S I (Fin chart.size)}
    (lands : chart.Lands number t.target landing) (around : Path S) :
    chart.candidate number around t
      = .ok ⟨t.input, around ++ landing.path, t.effect, around.length + 1⟩ := by
  rw [candidate, landing_of_lands wellformed lands]
  rfl

theorem candidate_exists {number : Fin chart.size} (wellformed : chart.Wellformed number)
    {state : State S I (Fin chart.size)} (member : state ∈ (chart.level number).states)
    {t : Transition S I} (declared : t ∈ state.transitions) (around : Path S) :
    ∃ landing, chart.Lands number t.target landing ∧ chart.candidate number around t
      = .ok ⟨t.input, around ++ landing.path, t.effect, around.length + 1⟩ := by
  have sound := (wellformed.sound number .refl).states state member
  obtain ⟨landing, lands⟩ := lands_exists wellformed t.target (sound.targets t declared)
  exact ⟨landing, lands, candidate_of_lands wellformed lands around⟩

theorem visit_exists {number : Fin chart.size} (wellformed : chart.Wellformed number)
    {state : State S I (Fin chart.size)} (member : state ∈ (chart.level number).states)
    (around : Leaf S I) : ∃ v, chart.visit number around state = .ok v := by
  have each : ∀ t ∈ state.transitions, ∃ c, chart.candidate number around.path t = .ok c := by
    intro t declared
    obtain ⟨landing, _, made⟩ := candidate_exists wellformed member declared around.path
    exact ⟨_, made⟩
  obtain ⟨own, made⟩ := forall₂_exists each
  exact ⟨_, visit_ok_iff.mpr ⟨own, made, rfl⟩⟩

theorem parts_of_unrolled {above : List (Fin chart.size)} {number : Fin chart.size}
    {around : Leaf S I} {leaves : List (Leaf S I)} (fresh : number ∉ above)
    (unrolled : chart.unrolled above number around = .ok leaves) : ∃ states parts,
      (chart.level number).startFirst = .ok states ∧ leaves = parts.flatten ∧
        List.Forall₂ (fun state part => ∃ v, chart.visit number around state = .ok v ∧
          chart.unrolledVisit (number :: above) v = .ok part) states parts := by
  rw [unrolled_eq fresh] at unrolled
  obtain ⟨below, prepared, unrolled⟩ := bind_ok_iff.mp unrolled
  obtain ⟨states, ordered, visited⟩ := visits_ok_iff.mp prepared
  obtain ⟨parts, runs, shape⟩ := bind_ok_iff.mp unrolled
  cases shape
  exact ⟨states, parts, ordered, rfl, forall₂_trans visited (mapM_ok_iff.mp runs)⟩

theorem records_of_unrolled {number : Fin chart.size} (acyclic : chart.Acyclic number)
    {above : List (Fin chart.size)} (clear : chart.Clear above number) {around : Leaf S I}
    {leaves : List (Leaf S I)} (unrolled : chart.unrolled above number around = .ok leaves) :
    List.Forall₂ (chart.Records around) (chart.trails above number) leaves := by
  induction acyclic using nesting_induction generalizing above around leaves with
  | step number acyclic ih =>
    have fresh := not_mem_of_clear clear
    obtain ⟨states, parts, ordered, rfl, all⟩ := parts_of_unrolled fresh unrolled
    have declared : ∀ state ∈ states, state ∈ (chart.level number).states :=
      fun _ => Level.mem_of_startFirst ordered
    rw [trails_eq fresh ordered, List.flatMap_def]
    refine List.rel_flatten (List.forall₂_map_left_iff.mpr ?_)
    refine ((List.forall₂_and_left _ _).mpr ⟨declared, all⟩).imp ?_
    rintro state part ⟨member, v, visited, run⟩
    obtain ⟨own, _, shape⟩ := visit_ok_iff.mp visited
    have inner : v.inner = state.inner := by rw [shape]
    cases nested : state.inner with
    | none =>
      rw [unrolledVisit, inner, nested] at run
      cases run
      rw [trailsThrough, nested]
      exact .cons (.visit visited (.done _)) .nil
    | some deeper =>
      rw [unrolledVisit, inner, nested] at run
      have nests := nests_of_state member nested
      have records := ih deeper nests (clear_cons acyclic clear nests) run
      rw [trailsThrough, nested, List.forall₂_map_left_iff]
      exact records.imp fun _ _ record => .visit visited record

theorem unrolled_exists {number : Fin chart.size} (wellformed : chart.Wellformed number) :
    ∀ (around : Leaf S I) {above}, chart.Clear above number →
      ∃ leaves, chart.unrolled above number around = .ok leaves := by
  induction wellformed using wellformed_induction with
  | step number wellformed ih =>
    intro around above clear
    obtain ⟨states, ordered, members, _⟩ :=
      Level.startFirst_of_sound (wellformed.sound number .refl)
    obtain ⟨below, visited⟩ := forall₂_exists fun state member =>
      visit_exists wellformed ((members state).mp member) around
    have each : ∀ v ∈ below, ∃ part, chart.unrolledVisit (number :: above) v = .ok part := by
      intro v member
      obtain ⟨state, among, made⟩ := forall₂_mem_right visited member
      obtain ⟨own, _, rfl⟩ := visit_ok_iff.mp made
      simp only [unrolledVisit]
      cases nested : state.inner with
      | none => exact ⟨_, rfl⟩
      | some deeper =>
        have nests := nests_of_state ((members state).mp among) nested
        exact ih deeper nests _ (clear_cons wellformed.acyclic clear nests)
    obtain ⟨parts, runs⟩ := forall₂_exists each
    refine ⟨parts.flatten, ?_⟩
    rw [unrolled_eq (not_mem_of_clear clear)]
    refine bind_ok_iff.mpr ⟨below, visits_ok_iff.mpr ⟨states, ordered, visited⟩, ?_⟩
    exact bind_ok_iff.mpr ⟨parts, mapM_ok_iff.mpr runs, rfl⟩

theorem leaves_records {root : Fin chart.size} (wellformed : chart.Wellformed root) :
    ∃ leaves, chart.leaves root = .ok leaves ∧
      List.Forall₂ (chart.Records .outside) (chart.trails [] root) leaves := by
  have clear := clear_nil root
  obtain ⟨leaves, unrolled⟩ := unrolled_exists wellformed .outside clear
  refine ⟨leaves, ?_, records_of_unrolled wellformed.acyclic clear unrolled⟩
  rw [leaves_eq_unrolled wellformed.acyclic, unrolled]

end Statechart.Chart
