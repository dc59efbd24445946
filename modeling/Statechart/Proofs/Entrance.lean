import Mathlib
import Statechart.Proofs.Embedding
import Statechart.Proofs.Failures

/-!
Entrances. Two ways go down from a state to a leaf: the descent along start states, which a
transition takes, and unrolling, which comes to all leaves below the state. The descent ends at the
leaf to which unrolling comes first, however deep in the chart the state is. Main result:
`landing_is_first_leaf_entered`.
-/
namespace Statechart

section First

variable {α β : Type} {as : List α} {a : α} {f : α → β} {P : β → Prop}

theorem first_map (first : IsFirst (fun a => P (f a)) as a) : IsFirst P (as.map f) (f a) := by
  obtain ⟨earlier, later, rfl, none, holds⟩ := first
  refine ⟨earlier.map f, later.map f, List.map_append, ?_, holds⟩
  exact List.forall_mem_map.mpr none

theorem first_flatMap {parts : α → List β} {b : β} {earlier later : List α}
    (none : ∀ other ∈ earlier, ∀ c ∈ parts other, ¬ P c) (first : IsFirst P (parts a) b) :
    IsFirst P ((earlier ++ a :: later).flatMap parts) b := by
  obtain ⟨before, behind, split, fresh, holds⟩ := first
  refine ⟨earlier.flatMap parts ++ before, behind ++ later.flatMap parts, ?_, ?_, holds⟩
  · rw [List.flatMap_append, List.flatMap_cons, split]
    simp
  · intro c member
    rcases List.mem_append.mp member with away | near
    · obtain ⟨other, among, here⟩ := List.mem_flatMap.mp away
      exact none other among c here
    · exact fresh c near

end First

namespace Chart

variable {S I : Type} [DecidableEq S] {chart : Chart S I} {root level : Fin chart.size}

theorem first_through {number : Fin chart.size} (wellformed : chart.Wellformed number)
    {above : List (Fin chart.size)} (clear : chart.Clear above number)
    {state : State S I (Fin chart.size)} (member : state ∈ (chart.level number).states)
    {P : Trail S I (Fin chart.size) → Prop} {trail : Trail S I (Fin chart.size)}
    (through : ∀ other, P other → other.path.head? = some state.symbol)
    (first : IsFirst P (chart.trailsThrough (number :: above) number state) trail) :
    IsFirst P (chart.trails above number) trail := by
  obtain ⟨states, ordered, members, distinct⟩ :=
    Level.startFirst_of_sound (wellformed.sound number .refl)
  obtain ⟨earlier, later, rfl⟩ := List.append_of_mem ((members state).mpr member)
  rw [trails_eq (not_mem_of_clear clear) ordered]
  apply first_flatMap _ first
  intro other among rival passes holds
  have head := head_of_trailsThrough (List.mem_map_of_mem passes)
  rw [through rival holds, Option.some.injEq] at head
  rw [List.map_append, List.map_cons, List.nodup_append] at distinct
  exact distinct.2.2 _ (List.mem_map_of_mem among) _ List.mem_cons_self head.symm

theorem trailsThrough_head {number : Fin chart.size} (wellformed : chart.Wellformed number)
    {above : List (Fin chart.size)} (clear : chart.Clear above number) {target : S}
    {landing : Trail S I (Fin chart.size)} (lands : chart.Lands number target landing) :
    ∃ state others, state ∈ (chart.level number).states ∧ state.symbol = target ∧
      chart.trailsThrough (number :: above) number state = landing :: others := by
  cases lands with
  | leaf member named plain =>
    refine ⟨_, [], member, named, ?_⟩
    rw [trailsThrough, plain]
  | @deeper _ inner _ state rest member named nested below =>
    have nests := nests_of_state member nested
    have inside := wellformed_of_nests wellformed nests
    obtain ⟨first, others, front, landsFirst⟩ :=
      trails_head inside (clear_cons wellformed.acyclic clear nests)
    refine ⟨state, others.map (⟨number, state⟩ :: ·), member, named, ?_⟩
    rw [trailsThrough, nested, lands_unique inside below landsFirst]
    simp only [front, List.map_cons]

/-- Below the stem, the first trail through a state is the stem and the landing on the state. The
induction is on the stem; what is above stays out of the way. -/
theorem first_trail_of_stem {stem : Trail S I (Fin chart.size)}
    (way : chart.Stem root stem level) {target : S} {landing : Trail S I (Fin chart.size)}
    (lands : chart.Lands level target landing) :
    ∀ {above}, chart.Wellformed root → chart.Clear above root →
      IsFirst (fun trail => stem.path ++ [target] <+: trail.path) (chart.trails above root)
        (stem ++ landing) := by
  induction way with
  | done number =>
    intro above wellformed clear
    obtain ⟨state, others, member, rfl, front⟩ := trailsThrough_head wellformed clear lands
    apply first_through wellformed clear member
    · rintro other ⟨below, split⟩
      rw [← split]
      rfl
    · have among : landing.path
          ∈ (chart.trailsThrough (number :: above) number state).map Trail.path := by
        rw [front]
        exact List.mem_cons_self
      have head := head_of_trailsThrough among
      refine ⟨[], others, by rw [front]; rfl, nofun, ?_⟩
      obtain ⟨below, path⟩ := List.head?_eq_some_iff.mp head
      exact ⟨below, by simp [path]⟩
  | @deeper number inner level state rest member nested below ih =>
    intro above wellformed clear
    have nests := nests_of_state member nested
    have further := ih lands (wellformed_of_nests wellformed nests)
      (clear_cons wellformed.acyclic clear nests)
    apply first_through wellformed clear member
    · rintro other ⟨under, split⟩
      rw [← split]
      rfl
    · have onwards : IsFirst
          (fun trail : Trail S I (Fin chart.size) =>
            Trail.path (⟨number, state⟩ :: rest) ++ [target]
              <+: Trail.path (⟨number, state⟩ :: trail))
          (chart.trails (number :: above) inner) (rest ++ landing) := by
        simpa using further
      rw [trailsThrough, nested]
      exact first_map onwards

variable [DecidableEq I]

/-- Landing on a state of a level inside a checked chart succeeds. Behind the states around
the level, its path is that of a single leaf of the chart, and no leaf below the state
comes before it. -/
theorem landing_is_first_leaf_entered (chart : Chart S I) (root level : Fin chart.size)
    (stem : Trail S I (Fin chart.size)) (accepted : chart.check root = .ok ())
    (way : chart.Stem root stem level) (target : S) (known : target ∈ (chart.level level).symbols) :
    ∃ leaves path leaf, chart.leaves root = .ok leaves ∧ chart.landing level target = .ok path ∧
      leaf.path = stem.path ++ path ∧
      leaves.filter (fun other => other.path = stem.path ++ path) = [leaf] ∧
      IsFirst (fun other => stem.path ++ [target] <+: other.path) leaves leaf := by
  have wellformed := check_ok_iff.mp accepted
  have inside := wellformed_of_reaches wellformed (reaches_of_stem way)
  obtain ⟨landing, lands⟩ := lands_exists inside target known
  obtain ⟨leaves, unrolled, records⟩ := leaves_records wellformed
  have first := first_trail_of_stem way lands wellformed (clear_nil root)
  have same : ∀ (trail : Trail S I (Fin chart.size)) (leaf : Leaf S I),
      chart.Records .outside trail leaf →
        (stem.path ++ [target] <+: trail.path ↔ stem.path ++ [target] <+: leaf.path) :=
    fun trail leaf record => by rw [path_of_records record]
  obtain ⟨leaf, firstLeaf, record⟩ := first_along records same first
  have path : leaf.path = stem.path ++ landing.path := by
    rw [path_of_records record, Trail.path_append]
  have distinct : (leaves.map Leaf.path).Nodup := by
    rw [paths_of_records records]
    exact trails_paths_nodup wellformed (clear_nil root)
  refine ⟨leaves, landing.path, leaf, unrolled, landing_of_lands inside lands, path, ?_, firstLeaf⟩
  have alone := filter_of_distinct Leaf.path distinct (first_mem firstLeaf)
  simpa only [beq_eq_decide, path] using alone

def harbour : Chart String String where
  size := 3
  level number :=
    if number.val = 0 then {
      start := "sea"
      states := [
        { symbol := "quay", inner := some ⟨1, Nat.one_lt_succ_succ 1⟩,
          transitions := [⟨"sail", "sea", none⟩] },
        { symbol := "sea", transitions := [⟨"land", "quay", none⟩] }] }
    else if number.val = 1 then {
      start := "boat"
      states := [
        { symbol := "shed", inner := some ⟨2, Nat.lt_add_one 2⟩ },
        { symbol := "boat", transitions := [⟨"moor", "shed", none⟩] }] }
    else {
      start := "desk"
      states := [
        { symbol := "shelf" },
        { symbol := "desk", transitions := [⟨"tidy", "shelf", none⟩] }] }

def harbourRoot : Fin harbour.size := ⟨0, by decide⟩

def quay : Trail String String (Fin harbour.size) := [
  { level := harbourRoot
    state := { symbol := "quay", inner := some ⟨1, by decide⟩,
               transitions := [⟨"sail", "sea", none⟩] } }]

theorem shed_entered_at_desk : harbour.check harbourRoot = .ok () ∧
    harbour.Stem harbourRoot quay ⟨1, by decide⟩ ∧ ∃ leaves leaf,
      harbour.leaves harbourRoot = .ok leaves ∧
      harbour.landing ⟨1, by decide⟩ "shed" = .ok ["shed", "desk"] ∧
      leaves.map Leaf.path =
        [["sea"], ["quay", "boat"], ["quay", "shed", "desk"], ["quay", "shed", "shelf"]] ∧
      leaf.path = ["quay", "shed", "desk"] ∧
      IsFirst (fun other => ["quay", "shed"] <+: other.path) leaves leaf := by
  have accepted : harbour.check harbourRoot = .ok () := by cbv
  have way : harbour.Stem harbourRoot quay ⟨1, by decide⟩ :=
    .deeper List.mem_cons_self rfl (.done _)
  have known : "shed" ∈ (harbour.level ⟨1, by decide⟩).symbols := List.mem_cons_self
  have lands : harbour.landing ⟨1, by decide⟩ "shed" = .ok ["shed", "desk"] := by cbv
  have paths : (harbour.leaves harbourRoot).map (List.map Leaf.path) =
      .ok [["sea"], ["quay", "boat"], ["quay", "shed", "desk"], ["quay", "shed", "shelf"]] := by cbv
  obtain ⟨leaves, path, leaf, unrolled, landed, here, _, first⟩ :=
    landing_is_first_leaf_entered harbour harbourRoot _ quay accepted way "shed" known
  rw [lands, Except.ok.injEq] at landed
  subst landed
  rw [unrolled] at paths
  exact ⟨accepted, way, leaves, leaf, unrolled, lands, Except.ok.inj paths, here, first⟩

end Chart
end Statechart
