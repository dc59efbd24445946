import Mathlib
import Statechart.Proofs.Inheritance
import Statechart.Proofs.Resolution

/-!
Destinations. Levels may declare a state or an input more than once, as long as none of them is
inside itself and unrolling finds every state that it looks for. Landing goes to the first state of
a name and unrolling keeps it too, so candidates lead to leaves. What is left to go wrong is a state
that declares an input more than once where no deeper one declares it. Main result:
`targets_lead_to_leaves`.
-/
namespace Statechart

namespace Chart

variable {S I : Type} [DecidableEq S] {chart : Chart S I} {root : Fin chart.size}

theorem mem_startFirst_of_state? {L : Type} {level : Level S I L} {symbol : S}
    {state : State S I L} {states : List (State S I L)} (found : level.state? symbol = some state)
    (ordered : level.startFirst = .ok states) : state ∈ states := by
  unfold Level.startFirst at ordered
  split at ordered
  · cases ordered
  · rename_i start first
    cases ordered
    obtain ⟨member, named⟩ := Level.mem_of_state? found
    by_cases same : symbol = level.start
    · rw [same, first, Option.some.injEq] at found
      exact found ▸ List.mem_cons_self
    · refine List.mem_cons_of_mem start (List.mem_filter.mpr ⟨member, ?_⟩)
      simpa [named] using same

theorem path_of_descent {number : Fin chart.size} (acyclic : chart.Acyclic number)
    {above : List (Fin chart.size)} (clear : chart.Clear above number) {around : Leaf S I}
    {leaves : List (Leaf S I)} (unrolled : chart.unrolled above number around = .ok leaves)
    {symbol : S} {state : State S I (Fin chart.size)}
    (found : (chart.level number).state? symbol = some state) {depth : Nat} {path : Path S}
    (descends : chart.descent depth state = .ok path) :
    around.path ++ path ∈ leaves.map Leaf.path := by
  induction acyclic using nesting_induction
    generalizing above around leaves symbol state depth path with
  | step number acyclic ih =>
    obtain ⟨states, parts, ordered, rfl, all⟩ := parts_of_unrolled (not_mem_of_clear clear) unrolled
    obtain ⟨part, member, v, visited, run⟩ :=
      forall₂_mem_left all (mem_startFirst_of_state? found ordered)
    obtain ⟨own, _, rfl⟩ := visit_ok_iff.mp visited
    have within : ∀ path, path ∈ part.map Leaf.path → path ∈ parts.flatten.map Leaf.path := by
      intro path here
      obtain ⟨leaf, among, rfl⟩ := List.mem_map.mp here
      exact List.mem_map_of_mem (List.mem_flatten.mpr ⟨part, member, among⟩)
    apply within
    cases nested : state.inner with
    | none =>
      simp only [unrolledVisit, nested] at run
      rw [descent, nested] at descends
      cases run
      cases descends
      simp
    | some inner =>
      simp only [unrolledVisit, nested] at run
      have nests := nests_of_state (Level.mem_of_state? found).1 nested
      cases depth with
      | zero =>
        rw [descent, nested] at descends
        cases descends
      | succ depth =>
        rw [descent, nested] at descends
        dsimp only at descends
        split at descends
        · cases descends
        · rename_i start first
          obtain ⟨rest, below, shape⟩ := bind_ok_iff.mp descends
          cases shape
          have further := ih inner nests (clear_cons acyclic clear nests) run first below
          simpa using further

theorem targets_of_unrolled {number : Fin chart.size} (acyclic : chart.Acyclic number)
    {above : List (Fin chart.size)} (clear : chart.Clear above number) {around : Leaf S I}
    {leaves : List (Leaf S I)} (unrolled : chart.unrolled above number around = .ok leaves) :
    ∀ leaf ∈ leaves, ∀ c ∈ leaf.candidates,
      c ∈ around.candidates ∨ c.target ∈ leaves.map Leaf.path := by
  induction acyclic using nesting_induction generalizing above around leaves with
  | step number acyclic ih =>
    obtain ⟨states, parts, ordered, rfl, all⟩ := parts_of_unrolled (not_mem_of_clear clear) unrolled
    intro leaf member c among
    obtain ⟨part, memberPart, member⟩ := List.mem_flatten.mp member
    obtain ⟨state, memberState, v, visited, run⟩ := forall₂_mem_right all memberPart
    obtain ⟨own, made, rfl⟩ := visit_ok_iff.mp visited
    have ours : ∀ d ∈ own, d.target ∈ parts.flatten.map Leaf.path := by
      intro d memberOwn
      obtain ⟨t, _, candidate⟩ := forall₂_mem_right made memberOwn
      obtain ⟨path, lands, shape⟩ := bind_ok_iff.mp candidate
      cases shape
      unfold landing at lands
      split at lands
      · cases lands
      · rename_i target found
        exact path_of_descent acyclic clear unrolled found lands
    have here : c ∈ around.candidates ++ own → c ∈ around.candidates ∨
        c.target ∈ parts.flatten.map Leaf.path := by
      intro either
      rcases List.mem_append.mp either with old | new
      · exact Or.inl old
      · exact Or.inr (ours c new)
    cases nested : state.inner with
    | none =>
      simp only [unrolledVisit, nested] at run
      cases run
      cases List.mem_singleton.mp member
      exact here among
    | some inner =>
      simp only [unrolledVisit, nested] at run
      have nests := nests_of_state (Level.mem_of_startFirst ordered memberState) nested
      have clearInner := clear_cons acyclic clear nests
      rcases ih inner nests clearInner run leaf member c among with old | inside
      · exact here old
      · obtain ⟨other, memberOther, path⟩ := List.mem_map.mp inside
        rw [← path]
        exact Or.inr (List.mem_map_of_mem (List.mem_flatten.mpr ⟨part, memberPart, memberOther⟩))

end Chart

namespace Trail

variable {S I L : Type}

/-- The deepest state on the trail that declares the input declares it more than once, at the
depth `rank`. -/
inductive Torn [DecidableEq I] (trail : Trail S I L) (input : I) : Nat → Prop where
  | intro {above below : Trail S I L} {stop : Stop S I L} (split : trail = above ++ stop :: below)
      (deepest : below.Silent input)
      (again : 1 < stop.state.transitions.countP fun t => t.input = input) :
      Torn trail input (above.length + 1)

variable [DecidableEq I]

theorem count_declared (depth : Nat) (above below : Trail S I L) (stop : Stop S I L) (input : I) :
    ((above ++ stop :: below).declared depth).count (input, depth + above.length + 1)
      = stop.state.transitions.countP fun t => t.input = input := by
  have outside : (above.declared depth).count (input, depth + above.length + 1) = 0 := by
    apply List.count_eq_zero.mpr
    intro member
    obtain ⟨outer, _, inner, rfl, rank, _⟩ := mem_declared.mp member
    simp only [List.length_append, List.length_cons] at rank
    omega
  have inside : (below.declared (depth + above.length + 1)).count
      (input, depth + above.length + 1) = 0 := by
    apply List.count_eq_zero.mpr
    intro member
    obtain ⟨_, _, _, _, rank, _⟩ := mem_declared.mp member
    omega
  rw [declared_append, declared, List.count_append, List.count_append, outside, inside, List.count,
    List.countP_map, Nat.zero_add, Nat.add_zero]
  apply List.countP_congr
  intro t _
  simp

theorem torn_iff {trail : Trail S I L} {input : I} {rank : Nat} :
    trail.Torn input rank ↔ 1 < (trail.declared 0).count (input, rank) ∧
      ∀ entry ∈ trail.declared 0, entry.1 = input → entry.2 ≤ rank := by
  constructor
  · rintro ⟨rfl, deepest, again⟩
    rename_i above below stop
    have counted := count_declared 0 above below stop input
    rw [Nat.zero_add] at counted
    refine ⟨counted ▸ again, ?_⟩
    rintro ⟨_, rank⟩ member rfl
    rw [declared_append, declared, List.mem_append, List.mem_append] at member
    rcases member with outside | here | inside
    · obtain ⟨outer, _, inner, rfl, rfl, _⟩ := mem_declared.mp outside
      simp only [List.length_append, List.length_cons]
      omega
    · obtain ⟨t, _, same⟩ := List.mem_map.mp here
      cases same
      simp
    · exact absurd inside (not_declared_of_silent deepest)
  · rintro ⟨several, greatest⟩
    obtain ⟨above, stop, below, rfl, rfl, _⟩ :=
      mem_declared.mp (List.count_pos_iff.mp (Nat.lt_of_succ_lt several))
    rw [count_declared] at several
    rw [Nat.zero_add] at greatest ⊢
    refine .intro rfl ?_ several
    intro deeper among t declares named
    obtain ⟨outer, inner, rfl⟩ := List.append_of_mem among
    have further : (input, 0 + (above ++ stop :: outer).length + 1)
        ∈ declared 0 (above ++ stop :: (outer ++ deeper :: inner)) :=
      mem_declared.mpr ⟨above ++ stop :: outer, deeper, inner, by simp, rfl, t, declares, named⟩
    have bounded := greatest _ further rfl
    simp only [List.length_append, List.length_cons] at bounded
    omega

end Trail

namespace Chart

variable {S I : Type} [DecidableEq S] {chart : Chart S I} {root : Fin chart.size}

variable [DecidableEq I]

theorem tied_iff_torn {leaf : Leaf S I} {trail : Trail S I (Fin chart.size)}
    (records : chart.Records .outside trail leaf) {input : I} {rank : Nat} :
    leaf.TiedAt input rank ↔ trail.Torn input rank := by
  rw [Trail.torn_iff, ← declared_of_records records, ← rivals_eq_count, List.forall_mem_map]
  exact ⟨fun tied => ⟨tied.several, tied.greatest⟩, fun both => ⟨both.1, both.2⟩⟩

def TornAt (chart : Chart S I) (root : Fin chart.size) (leaf : Leaf S I) (input : I) (rank : Nat) :
    Prop :=
  ∃ trail, chart.Leads root trail ∧ chart.Records .outside trail leaf ∧ trail.Torn input rank

/-- The first leaf that is torn, and the first of its inputs on which it is. -/
inductive FirstTear (chart : Chart S I) (root : Fin chart.size) (leaves : List (Leaf S I)) :
    Fault S I → Prop where
  | intro {leaf : Leaf S I} {input : I} {rank : Nat}
      (first : IsFirst (fun leaf => ∃ input rank, chart.TornAt root leaf input rank) leaves leaf)
      (earliest :
        IsFirst (fun input => ∃ rank, chart.TornAt root leaf input rank) leaf.inputs input)
      (torn : chart.TornAt root leaf input rank) :
      FirstTear chart root leaves (.ambiguous leaf.path input rank)

theorem tornAt_iff {leaf : Leaf S I} {trail : Trail S I (Fin chart.size)}
    (leads : chart.Leads root trail) (records : chart.Records .outside trail leaf) {input : I}
    {rank : Nat} : chart.TornAt root leaf input rank ↔ leaf.TiedAt input rank := by
  constructor
  · rintro ⟨other, _, recordsOther, torn⟩
    exact (tied_iff_torn recordsOther).mpr torn
  · exact fun tied => ⟨trail, leads, records, (tied_iff_torn records).mp tied⟩

theorem firstFault_iff_firstTear {leaves : List (Leaf S I)}
    (found : ∀ leaf ∈ leaves, ∀ c ∈ leaf.candidates, c.target ∈ leaves.map Leaf.path)
    (torn : ∀ leaf ∈ leaves, ∀ input rank,
      chart.TornAt root leaf input rank ↔ leaf.TiedAt input rank) {fault : Fault S I} :
    Leaf.FirstFault leaves fault ↔ chart.FirstTear root leaves fault := by
  have faulty : ∀ leaf ∈ leaves, Leaf.Faulty leaves leaf ↔
      ∃ input rank, chart.TornAt root leaf input rank := by
    intro leaf member
    simp only [torn leaf member]
    constructor
    · rintro ⟨input, ties | ⟨c, elects, _, lost⟩⟩
      · exact ⟨input, ties⟩
      · exact absurd (found leaf member c elects.member) lost
    · rintro ⟨input, ties⟩
      exact ⟨input, Or.inl ties⟩
  have ties : ∀ leaf ∈ leaves, ∀ input, leaf.Ties input ↔
      ∃ rank, chart.TornAt root leaf input rank := by
    intro leaf member input
    simp only [torn leaf member, Leaf.Ties]
  constructor
  · intro fails
    cases fails with
    | @ambiguous leaf input rank first tie tied =>
      have member := first_mem first
      exact .intro ((first_congr faulty).mp first)
        ((first_congr fun other _ => ties leaf member other).mp tie)
        ((torn leaf member input rank).mpr tied)
    | @unresolved leaf c first _ loss elects =>
      obtain ⟨d, electsToo, _, lost⟩ := first_holds loss
      exact absurd (found leaf (first_mem first) d electsToo.member) lost
  · rintro ⟨first, earliest, torn⟩
    rename_i tornAt leaf input rank
    have member := first_mem first
    exact .ambiguous ((first_congr faulty).mpr first)
      ((first_congr fun other _ => ties leaf member other).mpr earliest)
      ((tornAt leaf member input rank).mp torn)

variable [Hashable S] [Hashable I] [Named S] [Named I]

/-- Unsound levels included, the leaves are the records of the ways down, and resolving them never
misses a target. It fails exactly if a leaf is torn, and then on the first such leaf and the first
of its inputs on which it is. -/
theorem targets_lead_to_leaves (chart : Chart S I) (root : Fin chart.size)
    (acyclic : chart.Acyclic root) (leaves : List (Leaf S I))
    (unrolled : chart.leaves root = .ok leaves) (options : Options) (journal : Journal) :
    List.Forall₂ (fun trail leaf => chart.Leads root trail ∧ chart.Records .outside trail leaf)
      (chart.trails [] root) leaves ∧
    (∀ path after, (Leaf.allMoves leaves options).run journal
      ≠ (.error (.unresolvedTarget path), after)) ∧
    ((∃ fault after, (Leaf.allMoves leaves options).run journal = (.error fault, after)) ↔
      ∃ leaf ∈ leaves, ∃ input rank, chart.TornAt root leaf input rank) ∧
    ∀ fault, (∃ after, (Leaf.allMoves leaves options).run journal = (.error fault, after)) ↔
      chart.FirstTear root leaves fault := by
  have clear : chart.Clear [] root := clear_nil root
  rw [leaves_eq_unrolled acyclic] at unrolled
  have records : List.Forall₂
      (fun trail leaf => chart.Leads root trail ∧ chart.Records .outside trail leaf)
      (chart.trails [] root) leaves :=
    (List.forall₂_and_left _ _).mpr
      ⟨fun _ => leads_of_mem_trails, records_of_unrolled acyclic clear unrolled⟩
  have torn : ∀ leaf ∈ leaves, ∀ input rank,
      chart.TornAt root leaf input rank ↔ leaf.TiedAt input rank := by
    intro leaf member input rank
    obtain ⟨trail, _, leads, record⟩ := forall₂_mem_right records member
    exact tornAt_iff leads record
  have found : ∀ leaf ∈ leaves, ∀ c ∈ leaf.candidates, c.target ∈ leaves.map Leaf.path := by
    intro leaf member c among
    have either := targets_of_unrolled acyclic clear unrolled leaf member c among
    exact either.resolve_left List.not_mem_nil
  have faults : ∀ fault,
      (∃ after, (Leaf.allMoves leaves options).run journal = (.error fault, after)) ↔
        chart.FirstTear root leaves fault := by
    intro fault
    rw [← firstFault_iff_firstTear found torn]
    exact ⟨fun ⟨_, run⟩ => Leaf.firstFault_of_run run,
      fun fails => Leaf.allMoves_fail_of_firstFault fails journal⟩
  refine ⟨records, fun path after run => ?_, ?_, faults⟩
  · cases (faults _).mp ⟨after, run⟩
  · constructor
    · rintro ⟨fault, failed⟩
      cases (faults fault).mp failed with
      | @intro leaf input rank first _ torn => exact ⟨leaf, first_mem first, input, rank, torn⟩
    · rintro ⟨leaf, member, input, rank, tornAt⟩
      have faulty : Leaf.Faulty leaves leaf :=
        ⟨input, Or.inl ⟨rank, (torn leaf member input rank).mp tornAt⟩⟩
      obtain ⟨fault, fails⟩ := Leaf.firstFault_of_faulty ⟨leaf, member, faulty⟩
      exact ⟨fault, Leaf.allMoves_fail_of_firstFault fails journal⟩

/-- A hall that says twice where to look, with a door that knows better and a window
that does not. -/
def maze : Chart String String where
  size := 2
  level number :=
    if number.val = 0 then {
      start := "hall"
      states := [
        { symbol := "yard", transitions := [⟨"climb", "hall", none⟩] },
        { symbol := "hall", inner := some ⟨1, Nat.one_lt_two⟩,
          transitions := [⟨"look", "yard", none⟩, ⟨"look", "hall", none⟩] },
        { symbol := "yard", transitions := [⟨"climb", "yard", none⟩, ⟨"climb", "hall", none⟩] }] }
    else {
      start := "door"
      states := [
        { symbol := "window", transitions := [⟨"close", "door", none⟩] },
        { symbol := "door", transitions := [⟨"look", "window", none⟩] }] }

def mazeRoot : Fin maze.size := ⟨0, by decide⟩

theorem maze_torn_at_window : maze.Acyclic mazeRoot ∧ ∃ leaves, maze.leaves mazeRoot = .ok leaves ∧
    leaves.map Leaf.path = [["hall", "door"], ["hall", "window"], ["yard"], ["yard"]] ∧
    maze.FirstTear mazeRoot leaves (.ambiguous ["hall", "window"] "look" 1) := by
  have acyclic : maze.Acyclic mazeRoot := acyclic_of_inwards (by decide) mazeRoot
  have paths : (maze.leaves mazeRoot).map (List.map Leaf.path)
      = .ok [["hall", "door"], ["hall", "window"], ["yard"], ["yard"]] := by cbv
  have ran : (maze.leaves mazeRoot).bind
      (fun leaves => ((Leaf.allMoves leaves {}).run {}).1.map List.length)
        = .error (.ambiguous ["hall", "window"] "look" 1) := by cbv
  cases unrolled : maze.leaves mazeRoot with
  | error =>
    rw [unrolled] at paths
    cases paths
  | ok leaves =>
    rw [unrolled] at paths ran
    obtain ⟨_, _, _, faults⟩ := targets_lead_to_leaves maze mazeRoot acyclic leaves unrolled {} {}
    refine ⟨acyclic, leaves, rfl, Except.ok.inj paths, (faults _).mp ?_⟩
    cases run : (Leaf.allMoves leaves {}).run {} with
    | mk result after =>
      rw [Except.bind, run] at ran
      cases result with
      | ok => cases ran
      | error fault => exact ⟨after, by rw [Except.error.inj ran]⟩

end Chart
end Statechart
