import Statechart.Proofs.Isomorphism
import Statechart.Proofs.Rounds

/-!
Termination. The survey of a chart ends whatever the levels contain, themselves included. On a chart
that passes the check every other loop ends too, and nothing gets deeper than the number of levels
that are reached.
-/
namespace Statechart.Chart

variable {S I : Type} {chart : Chart S I} {root : Fin chart.size}

theorem leads_length_le_extent {number : Fin chart.size} {trail : Trail S I (Fin chart.size)}
    (acyclic : chart.Acyclic root) (reaches : chart.Reaches root number)
    (leads : chart.Leads number trail) : trail.length ≤ chart.extent root := by
  have distinct := leads_levels_nodup (acyclic_of_reaches acyclic reaches) leads
  have inside : (trail.levels.toFinset : Set (Fin chart.size)) ⊆
      {number | chart.Reaches root number} := by
    intro level member
    obtain ⟨stop, memberStop, rfl⟩ := List.mem_map.mp (List.mem_toFinset.mp member)
    exact reaches.trans (leads_reaches leads memberStop)
  calc trail.length = trail.levels.length := (List.length_map _).symm
    _ = trail.levels.toFinset.card := (List.toFinset_card_of_nodup distinct).symm
    _ = (trail.levels.toFinset : Set (Fin chart.size)).ncard := (Set.ncard_coe_finset _).symm
    _ ≤ chart.extent root := Set.ncard_le_ncard inside (Set.toFinite _)

theorem rank_le_of_reacts {trail next : Trail S I (Fin chart.size)} {input : I} {rank : Nat}
    {hooks : List Hook} (reacts : chart.Reacts trail input rank hooks next) :
    rank ≤ trail.length := by
  cases reacts with
  | intro answers _ =>
    obtain ⟨below, split, _⟩ := answers.innermost
    rw [split, List.length_append, List.length_cons]
    omega

variable [DecidableEq S]

theorem landing_ends (wellformed : chart.Wellformed root) {number : Fin chart.size}
    (reaches : chart.Reaches root number) {state : State S I (Fin chart.size)}
    (member : state ∈ (chart.level number).states) :
    ∃ path, chart.landing number state.symbol = .ok path ∧
      EndsWithin chart.descentRound (chart.extent root) ([state.symbol], state) (.ok path) := by
  have inside := wellformed_of_reaches wellformed reaches
  obtain ⟨trail, lands⟩ := lands_exists inside state.symbol (List.mem_map_of_mem member)
  have run := landing_of_lands inside lands
  refine ⟨trail.path, run, ?_⟩
  rw [landing, Level.state?_of_mem (inside.sound number .refl).distinct member] at run
  have ends := descent_ends run []
  have deep := leads_length_le_extent wellformed.acyclic reaches (leads_of_lands lands)
  exact endsWithin_mono ends (trail.length_path ▸ deep)

theorem leaf_depths (wellformed : chart.Wellformed root) {leaves : List (Leaf S I)}
    (records : List.Forall₂ (chart.Records .outside) (chart.trails [] root) leaves) :
    ∀ leaf ∈ leaves, leaf.path.length ≤ chart.extent root ∧
      ∀ c ∈ leaf.candidates, c.rank ≤ leaf.path.length := by
  intro leaf member
  obtain ⟨trail, memberTrail, record⟩ := forall₂_mem_right records member
  have leads := (mem_trails wellformed (clear_nil root)).mp memberTrail
  have ranked : Ranked leaf :=
    records_ranked (placed_of_leads wellformed leads) record ⟨List.nodup_nil, nofun⟩
  refine ⟨?_, ranked.deep⟩
  have path : leaf.path = trail.path := records_path record
  rw [path, Trail.length_path]
  exact leads_length_le_extent wellformed.acyclic .refl leads

variable [DecidableEq I] [Hashable S] [Hashable I] [Named S] [Named I]

/-- From the given level on no loop goes on for ever, and nothing is deeper than there
are levels. -/
structure Settles (chart : Chart S I) (root : Fin chart.size) : Prop where
  landings : ∀ number, chart.Reaches root number → ∀ state ∈ (chart.level number).states,
    ∃ path, chart.landing number state.symbol = .ok path ∧
      EndsWithin chart.descentRound (chart.extent root) ([state.symbol], state) (.ok path)
  leaves : ∃ pending leaves, chart.visits root .outside = .ok pending ∧
    chart.leaves root = .ok leaves ∧
    EndsWithin chart.unrollRound (chart.pendingWeight pending + 1) ([], pending) (.ok leaves) ∧
    ∀ leaf ∈ leaves, leaf.path.length ≤ chart.extent root ∧
      ∀ c ∈ leaf.candidates, c.rank ≤ leaf.path.length
  moves : ∀ options journal, ∃ moves after,
    (chart.moves root options).run journal = (.ok moves, after) ∧
    ∀ m ∈ moves, m.rank ≤ m.source.length ∧ m.source.length ≤ chart.extent root
  machines : ∀ options journal, ∃ workshop after,
    (chart.build options [] [] [.visit root]).run journal = (.ok workshop, after) ∧
    EndsWithin (chart.buildRound options) (chart.reserve [] + 2) ⟨[], [], [.visit root], journal⟩
      (.ok workshop, after)

theorem settles_of_wellformed (wellformed : chart.Wellformed root) : chart.Settles root := by
  constructor
  · intro number reaches state member
    exact landing_ends wellformed reaches member
  · obtain ⟨leaves, run, records⟩ := leaves_records wellformed
    obtain ⟨pending, prepared, expanded⟩ := bind_ok_iff.mp run
    exact ⟨pending, leaves, prepared, run, unroll_ends expanded [], leaf_depths wellformed records⟩
  · intro options journal
    obtain ⟨moves, after, run, made⟩ := moves_makes (check_ok_iff.mpr wellformed) options journal
    refine ⟨moves, after, run, fun m member => ?_⟩
    obtain ⟨trail, hooks, next, leads, carries⟩ := trail_of_move wellformed made member
    rw [carries.source, Trail.length_path]
    exact ⟨rank_le_of_reacts carries.reacts, leads_length_le_extent wellformed.acyclic .refl leads⟩
  · intro options journal
    obtain ⟨workshop, after, run, _⟩ := build_makes wellformed.acyclic options journal
    have ends := build_ends options [] [] [.visit root] journal
    rw [run] at ends
    exact ⟨workshop, after, run, endsWithin_mono ends (by simp [Workshop.levels]; omega)⟩

/-- Whatever the chart, its check ends, after no more rounds than there are levels and mentions of
levels, and two. If it accepts, all other loops end as well. -/
theorem checking_and_compiling_end (chart : Chart S I) (root : Fin chart.size) :
    EndsWithin chart.surveyRound (chart.reserve [] + 2) ⟨[], [], [.enter root]⟩
      (chart.survey [] [] [.enter root]) ∧
    (chart.check root = .ok () → chart.Settles root) := by
  constructor
  · exact endsWithin_mono (survey_ends [] [] [.enter root]) (by simp; omega)
  · exact fun accepted => settles_of_wellformed (check_ok_iff.mp accepted)

def spiral : Chart String String where
  size := 2
  level number :=
    if number.val = 0 then {
      start := "foot"
      states := [{ symbol := "foot", inner := some ⟨1, Nat.one_lt_two⟩ }] }
    else {
      start := "left"
      states := [
        { symbol := "left" },
        { symbol := "right", inner := some ⟨1, Nat.one_lt_two⟩ },
        { symbol := "back", inner := some ⟨0, Nat.two_pos⟩ }] }

def spiralRoot : Fin spiral.size := ⟨0, by decide⟩

theorem tower_settles_and_spiral_ends :
    EndsWithin spiral.surveyRound (spiral.reserve [] + 2) ⟨[], [], [.enter spiralRoot]⟩
      (.error (.cyclic "left")) ∧
    tower.check towerRoot = .ok () ∧ tower.Settles towerRoot ∧
    ∃ leaves, tower.leaves towerRoot = .ok leaves ∧ tower.extent towerRoot = 3 ∧
      ["stairs", "landing", "dark"] ∈ leaves.map Leaf.path := by
  have cyclic : spiral.survey [] [] [.enter spiralRoot] = .error (.cyclic "left") := by cbv
  have ends := (checking_and_compiling_end spiral spiralRoot).1
  rw [cyclic] at ends
  have accepted : tower.check towerRoot = .ok () := by cbv
  have settles := (checking_and_compiling_end tower towerRoot).2 accepted
  obtain ⟨_, leaves, _, run, _, deep⟩ := settles.leaves
  have paths : (List.map Leaf.path) <$> tower.leaves towerRoot = .ok [["stairs", "landing", "dark"],
      ["stairs", "landing", "light"], ["roof", "dark"], ["roof", "light"]] := by cbv
  rw [run] at paths
  have longest : ["stairs", "landing", "dark"] ∈ leaves.map Leaf.path := by
    rw [Except.ok.inj paths]
    exact List.mem_cons_self
  refine ⟨ends, accepted, settles, leaves, run, Nat.le_antisymm ?_ ?_, longest⟩
  · exact (Set.ncard_le_card _).trans_eq (Nat.card_fin 3)
  · obtain ⟨leaf, member, path⟩ := List.mem_map.mp longest
    have bounded := (deep leaf member).1
    rwa [path] at bounded

end Statechart.Chart
