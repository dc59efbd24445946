import Statechart.Proofs.Leaves

/-!
What a leaf takes over from the states around it: the hooks of its trail, and one candidate for each
transition that a state on the trail declares, ranked by the depth of that state.
-/
namespace Statechart.Chart

variable {S I : Type}

/-- A transition declared at a stop of the trail, landing where it leads. The path and the rank
count from a state with the path `around`. -/
def Inherits (chart : Chart S I) (around : Path S) (trail : Trail S I (Fin chart.size))
    (c : Candidate S I) : Prop :=
  ∃ (above : Trail S I (Fin chart.size)) (stop : Stop S I (Fin chart.size))
    (below : Trail S I (Fin chart.size)), trail = above ++ stop :: below ∧
    ∃ t ∈ stop.state.transitions, ∃ landing, chart.Lands stop.level t.target landing ∧
      c = ⟨t.input, around ++ above.path ++ landing.path, t.effect,
        around.length + above.length + 1⟩

/-- No two candidates agree in input and rank, and no rank is deeper than the leaf. -/
structure Ranked (leaf : Leaf S I) : Prop where
  distinct : (leaf.candidates.map fun c => (c.input, c.rank)).Nodup
  deep : ∀ c ∈ leaf.candidates, c.rank ≤ leaf.path.length

variable [DecidableEq S] {chart : Chart S I}

theorem records_path {around leaf : Leaf S I} {trail : Trail S I (Fin chart.size)}
    (records : chart.Records around trail leaf) : leaf.path = around.path ++ trail.path := by
  induction records with
  | done => simp
  | visit visited _ ih =>
    obtain ⟨own, _, rfl⟩ := visit_ok_iff.mp visited
    simp [ih]

theorem path_of_records {leaf : Leaf S I} {trail : Trail S I (Fin chart.size)}
    (records : chart.Records .outside trail leaf) : leaf.path = trail.path :=
  records_path records

theorem paths_of_records {trails : List (Trail S I (Fin chart.size))} {leaves : List (Leaf S I)}
    (records : List.Forall₂ (chart.Records .outside) trails leaves) :
    leaves.map Leaf.path = trails.map Trail.path :=
  (map_eq_of_forall₂ (records.imp fun _ _ here => (path_of_records here).symm)).symm

theorem records_entries {around leaf : Leaf S I} {trail : Trail S I (Fin chart.size)}
    (records : chart.Records around trail leaf) :
    leaf.entries = around.entries ++ trail.entries := by
  induction records with
  | done => simp
  | visit visited _ ih =>
    obtain ⟨own, _, rfl⟩ := visit_ok_iff.mp visited
    simp [ih]

theorem records_exits {around leaf : Leaf S I} {trail : Trail S I (Fin chart.size)}
    (records : chart.Records around trail leaf) : leaf.exits = trail.exits ++ around.exits := by
  induction records with
  | done => simp
  | visit visited _ ih =>
    obtain ⟨own, _, rfl⟩ := visit_ok_iff.mp visited
    simp [ih]

theorem entries_of_records {leaf : Leaf S I} {trail : Trail S I (Fin chart.size)}
    (records : chart.Records .outside trail leaf) : leaf.entries = trail.entries :=
  records_entries records

theorem exits_of_records {leaf : Leaf S I} {trail : Trail S I (Fin chart.size)}
    (records : chart.Records .outside trail leaf) : leaf.exits = trail.exits :=
  (records_exits records).trans (List.append_nil _)

theorem own_candidates {number : Fin chart.size} (wellformed : chart.Wellformed number)
    {state : State S I (Fin chart.size)} (member : state ∈ (chart.level number).states)
    {around : Path S} {own : List (Candidate S I)}
    (made : List.Forall₂ (fun t c => chart.candidate number around t = .ok c)
      state.transitions own) (c : Candidate S I) :
    c ∈ own ↔ ∃ t ∈ state.transitions, ∃ landing, chart.Lands number t.target landing ∧
      c = ⟨t.input, around ++ landing.path, t.effect, around.length + 1⟩ := by
  constructor
  · intro among
    obtain ⟨t, declared, here⟩ := forall₂_mem_right made among
    obtain ⟨landing, lands, same⟩ := candidate_exists wellformed member declared around
    rw [here, Except.ok.injEq] at same
    exact ⟨t, declared, landing, lands, same⟩
  · intro ⟨t, declared, landing, lands, shape⟩
    obtain ⟨other, among, here⟩ := forall₂_mem_left made declared
    rw [candidate_of_lands wellformed lands, Except.ok.injEq, ← shape] at here
    exact here ▸ among

omit [DecidableEq S] in
theorem inherits_cons {around : Path S} {stop : Stop S I (Fin chart.size)}
    {rest : Trail S I (Fin chart.size)} {c : Candidate S I} :
    chart.Inherits around (stop :: rest) c ↔
      (∃ t ∈ stop.state.transitions, ∃ landing, chart.Lands stop.level t.target landing ∧
        c = ⟨t.input, around ++ landing.path, t.effect, around.length + 1⟩) ∨
      chart.Inherits (around ++ [stop.state.symbol]) rest c := by
  constructor
  · intro ⟨above, other, below, split, t, declared, landing, lands, shape⟩
    cases above with
    | nil =>
      cases split
      exact Or.inl ⟨t, declared, landing, lands, by simpa using shape⟩
    | cons first above =>
      cases split
      refine Or.inr ⟨above, other, below, rfl, t, declared, landing, lands, shape.trans ?_⟩
      simp [Nat.add_assoc, Nat.add_comm 1]
  · intro inherits
    rcases inherits with ⟨t, declared, landing, lands, shape⟩ | inherits
    · exact ⟨[], stop, rest, rfl, t, declared, landing, lands, by simpa using shape⟩
    · obtain ⟨above, other, below, split, t, declared, landing, lands, shape⟩ := inherits
      refine ⟨stop :: above, other, below, by rw [split, List.cons_append], t, declared, landing,
        lands, shape.trans ?_⟩
      simp [Nat.add_assoc, Nat.add_comm 1]

omit [DecidableEq S] in
theorem not_inherits_nil {around : Path S} {c : Candidate S I} :
    ¬ chart.Inherits around [] c := by
  intro ⟨above, stop, below, split, _⟩
  simp at split

theorem records_candidates {trail : Trail S I (Fin chart.size)}
    (placed : chart.Placed trail) {around leaf : Leaf S I}
    (records : chart.Records around trail leaf) (c : Candidate S I) :
    c ∈ leaf.candidates ↔ c ∈ around.candidates ∨ chart.Inherits around.path trail c := by
  induction records with
  | done => simp [not_inherits_nil]
  | @visit around leaf stop v rest visited _ ih =>
    obtain ⟨⟨wellformed, member⟩, below⟩ := placed_cons.mp placed
    obtain ⟨own, made, rfl⟩ := visit_ok_iff.mp visited
    rw [ih below, inherits_cons, List.mem_append, own_candidates wellformed member made, or_assoc]

theorem own_keys {number : Fin chart.size} {around : Path S} {transitions : List (Transition S I)}
    {own : List (Candidate S I)}
    (made : List.Forall₂ (fun t c => chart.candidate number around t = .ok c) transitions own) :
    own.map (fun c => (c.input, c.rank))
      = transitions.map fun t => (t.input, around.length + 1) := by
  induction made with
  | nil => rfl
  | cons here _ ih =>
    obtain ⟨landing, _, shape⟩ := bind_ok_iff.mp here
    cases shape
    simp [ih]

theorem records_declared {around leaf : Leaf S I} {trail : Trail S I (Fin chart.size)}
    (records : chart.Records around trail leaf) :
    leaf.candidates.map (fun c => (c.input, c.rank))
      = around.candidates.map (fun c => (c.input, c.rank))
        ++ trail.declared around.path.length := by
  induction records with
  | done => simp [Trail.declared]
  | visit visited _ ih =>
    obtain ⟨own, made, rfl⟩ := visit_ok_iff.mp visited
    rw [ih, List.map_append, own_keys made, Trail.declared, List.append_assoc]
    simp

theorem declared_of_records {leaf : Leaf S I} {trail : Trail S I (Fin chart.size)}
    (records : chart.Records .outside trail leaf) :
    leaf.candidates.map (fun c => (c.input, c.rank)) = trail.declared 0 :=
  records_declared records

theorem ranked_visit {number : Fin chart.size} (wellformed : chart.Wellformed number)
    {state : State S I (Fin chart.size)} (member : state ∈ (chart.level number).states)
    {around : Leaf S I} (ranked : Ranked around) {v : Visit S I (Fin chart.size)}
    (visited : chart.visit number around state = .ok v) : Ranked v.record := by
  obtain ⟨own, made, rfl⟩ := visit_ok_iff.mp visited
  have keys := own_keys made
  have ownRank : ∀ c ∈ own, c.rank = around.path.length + 1 := by
    intro c among
    have key := List.mem_map_of_mem (f := fun c => (c.input, c.rank)) among
    rw [keys] at key
    obtain ⟨t, _, same⟩ := List.mem_map.mp key
    exact (congrArg Prod.snd same).symm
  constructor
  · simp only [List.map_append, List.nodup_append]
    refine ⟨ranked.distinct, ?_, ?_⟩
    · rw [keys]
      have inputs := ((wellformed.sound number .refl).states state member).inputs
      have paired := inputs.map (f := fun input => (input, around.path.length + 1))
        fun _ _ same => congrArg Prod.fst same
      rwa [List.map_map] at paired
    · -- candidates from outside have lower ranks
      intro key old other new same
      obtain ⟨c, amongOld, rfl⟩ := List.mem_map.mp old
      obtain ⟨d, amongNew, rfl⟩ := List.mem_map.mp new
      have low := ranked.deep c amongOld
      have high := ownRank d amongNew
      have := congrArg Prod.snd same
      simp only at this
      omega
  · intro c among
    simp only [List.length_append, List.length_singleton]
    rcases List.mem_append.mp among with old | new
    · exact Nat.le_succ_of_le (ranked.deep c old)
    · exact Nat.le_of_eq (ownRank c new)

theorem records_ranked {trail : Trail S I (Fin chart.size)}
    (placed : chart.Placed trail) {around leaf : Leaf S I}
    (records : chart.Records around trail leaf) (ranked : Ranked around) : Ranked leaf := by
  induction records with
  | done => exact ranked
  | @visit around leaf stop v rest visited _ ih =>
    obtain ⟨⟨wellformed, member⟩, below⟩ := placed_cons.mp placed
    exact ih below (ranked_visit wellformed member ranked visited)

end Statechart.Chart
