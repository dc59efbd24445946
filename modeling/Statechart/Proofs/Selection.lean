import Statechart.Flat.Selection
import Statechart.Proofs.Indexing
import Statechart.Proofs.Sequencing

/-!
What selection yields. After any candidates, in whatever order and with whatever ranks, the ballot
holds one favourite for each input, which is tied exactly if its rank was met twice on its input.
-/
namespace Statechart

variable {S I : Type} [DecidableEq I]

def rivals (candidates : List (Candidate S I)) (input : I) (rank : Nat) : Nat :=
  candidates.countP fun c => c.input = input ∧ c.rank = rank

/-- The favourite is right for its input, among the candidates met so far. -/
structure Favourite.Heads (candidates : List (Candidate S I)) (favourite : Favourite S I) :
    Prop where
  member : favourite.best ∈ candidates
  deepest : ∀ c ∈ candidates, c.input = favourite.best.input → c.rank ≤ favourite.best.rank
  tied : favourite.tied = true ↔
    1 < rivals candidates favourite.best.input favourite.best.rank

def Ballot.inputs [Hashable I] (ballot : Ballot S I) : List I :=
  ballot.favourites.toList.map fun favourite => favourite.best.input

structure Ballot.Tallies [Hashable I] (candidates : List (Candidate S I)) (ballot : Ballot S I) :
    Prop where
  inputs : ballot.inputs = (candidates.map Candidate.input).eraseDups
  place : Points ballot.byInput ballot.inputs
  heads : ∀ (k : Nat) (f : Favourite S I), ballot.favourites[k]? = some f → f.Heads candidates

theorem rivals_append (candidates : List (Candidate S I)) (c : Candidate S I) (input : I)
    (rank : Nat) : rivals (candidates ++ [c]) input rank
      = rivals candidates input rank + if c.input = input ∧ c.rank = rank then 1 else 0 := by
  simp [rivals, List.countP_append, List.countP_singleton]

theorem rivals_pos {candidates : List (Candidate S I)} {c : Candidate S I}
    (member : c ∈ candidates) : 0 < rivals candidates c.input c.rank :=
  List.countP_pos_iff.mpr ⟨c, member, by simp⟩

theorem rivals_zero {candidates : List (Candidate S I)} {input : I} {rank : Nat}
    (none : ∀ c ∈ candidates, c.input = input → c.rank ≠ rank) :
    rivals candidates input rank = 0 := by
  apply List.countP_eq_zero.mpr
  intro c member both
  simp only [decide_eq_true_eq] at both
  exact none c member both.1 both.2

namespace Favourite

variable {candidates : List (Candidate S I)} {favourite : Favourite S I} {c : Candidate S I}

theorem heads_first (fresh : c.input ∉ candidates.map Candidate.input) :
    (⟨c, false⟩ : Favourite S I).Heads (candidates ++ [c]) := by
  have other : ∀ d ∈ candidates, d.input ≠ c.input := fun d member same =>
    fresh (List.mem_map.mpr ⟨d, member, same⟩)
  constructor
  · simp
  · intro d member same
    rcases List.mem_append.mp member with old | new
    · exact absurd same (other d old)
    · exact Nat.le_of_eq (congrArg Candidate.rank (List.mem_singleton.mp new))
  · rw [rivals_append, rivals_zero fun d member same => absurd same (other d member)]
    simp

theorem heads_other (heads : favourite.Heads candidates) (differ : c.input ≠ favourite.best.input) :
    favourite.Heads (candidates ++ [c]) := by
  constructor
  · exact List.mem_append_left _ heads.member
  · intro d member same
    rcases List.mem_append.mp member with old | new
    · exact heads.deepest d old same
    · rw [List.mem_singleton.mp new] at same
      exact absurd same differ
  · rw [rivals_append, if_neg fun both => differ both.1]
    exact heads.tied

omit [DecidableEq I] in
theorem meet_input (same : c.input = favourite.best.input) :
    (favourite.meet c).best.input = favourite.best.input := by
  unfold meet
  split
  · exact same
  · split <;> rfl

theorem heads_meet (heads : favourite.Heads candidates) (same : c.input = favourite.best.input) :
    (favourite.meet c).Heads (candidates ++ [c]) := by
  unfold meet
  have known := rivals_pos heads.member
  split
  · rename_i deeper
    constructor
    · simp
    · intro d member alike
      rcases List.mem_append.mp member with old | new
      · have := heads.deepest d old (alike.trans same)
        simp only at this ⊢
        omega
      · exact Nat.le_of_eq (congrArg Candidate.rank (List.mem_singleton.mp new))
    · have alone : rivals candidates c.input c.rank = 0 := rivals_zero fun d member alike => by
        have := heads.deepest d member (alike.trans same)
        omega
      rw [rivals_append, alone]
      simp
  · rename_i shallow
    have deepest : ∀ d ∈ candidates ++ [c], d.input = favourite.best.input →
        d.rank ≤ favourite.best.rank := by
      intro d member alike
      rcases List.mem_append.mp member with old | new
      · exact heads.deepest d old alike
      · rw [List.mem_singleton.mp new]
        omega
    split
    · rename_i level
      refine ⟨List.mem_append_left _ heads.member, deepest, ?_⟩
      rw [rivals_append, if_pos ⟨same, level⟩]
      simp only [true_iff]
      omega
    · rename_i differ
      refine ⟨List.mem_append_left _ heads.member, deepest, ?_⟩
      rw [rivals_append, if_neg fun both => differ both.2]
      exact heads.tied

end Favourite

namespace Ballot

variable [Hashable I] {candidates : List (Candidate S I)} {ballot : Ballot S I}

theorem inputs_getElem? (ballot : Ballot S I) (k : Nat) :
    ballot.inputs[k]? = (ballot.favourites[k]?).map fun favourite => favourite.best.input := by
  rw [inputs, List.getElem?_map, Array.getElem?_toList]

theorem input_mem (tallies : ballot.Tallies candidates) (input : I) :
    input ∈ candidates.map Candidate.input ↔ input ∈ ballot.inputs := by
  rw [tallies.inputs, List.mem_eraseDups]

theorem inputs_append (tallies : ballot.Tallies candidates) (c : Candidate S I) :
    ((candidates ++ [c]).map Candidate.input).eraseDups
      = ballot.inputs ++ if c.input ∈ ballot.inputs then [] else [c.input] := by
  rw [List.map_append, List.eraseDups_append, ← tallies.inputs]
  congr 1
  simp only [List.map_singleton, List.removeAll, List.filter_cons, List.filter_nil,
    ← input_mem tallies]
  by_cases known : c.input ∈ candidates.map Candidate.input
  · simp [known]
  · simp [known, List.eraseDups_cons]

theorem tallies_nil : Tallies ([] : List (Candidate S I)) {} :=
  ⟨rfl, .nil, by simp⟩

theorem inputs_push (ballot : Ballot S I) (favourite : Favourite S I) (places : Std.HashMap I Nat) :
    Ballot.inputs ⟨ballot.favourites.push favourite, places⟩
      = ballot.inputs ++ [favourite.best.input] := by
  simp [Ballot.inputs]

theorem inputs_meet {k : Nat} {f : Favourite S I} (here : ballot.favourites[k]? = some f)
    {c : Candidate S I} (same : c.input = f.best.input) :
    Ballot.inputs ⟨ballot.favourites.modify k (·.meet c), ballot.byInput⟩ = ballot.inputs := by
  apply List.ext_getElem?
  intro j
  rw [inputs_getElem?, inputs_getElem?, getElem?_modify_at here]
  split
  · rename_i own
    subst own
    rw [here]
    exact congrArg some (Favourite.meet_input same)
  · rfl

theorem tallies_push (tallies : ballot.Tallies candidates) {c : Candidate S I}
    (fresh : c.input ∉ ballot.inputs) :
    Tallies (candidates ++ [c]) ⟨ballot.favourites.push ⟨c, false⟩,
      ballot.byInput.insert c.input ballot.favourites.size⟩ := by
  have other : ∀ (k : Nat) (f : Favourite S I), ballot.favourites[k]? = some f →
      c.input ≠ f.best.input := by
    intro k f here same
    apply fresh
    rw [same]
    exact List.mem_map_of_mem (List.mem_iff_getElem?.mpr ⟨k, by simpa using here⟩)
  constructor
  · rw [inputs_append tallies, if_neg fresh, inputs_push]
  · have size : ballot.favourites.size = ballot.inputs.length := by simp [Ballot.inputs]
    rw [inputs_push, size]
    exact tallies.place.insert fresh
  · intro k f here
    rw [Array.getElem?_push] at here
    split at here
    · cases here
      exact Favourite.heads_first fun known => fresh ((input_mem tallies _).mp known)
    · exact Favourite.heads_other (tallies.heads k f here) (other k f here)

theorem tallies_meet (tallies : ballot.Tallies candidates) {c : Candidate S I} {k : Nat}
    (found : ballot.byInput[c.input]? = some k) :
    Tallies (candidates ++ [c]) ⟨ballot.favourites.modify k (·.meet c), ballot.byInput⟩ := by
  have here := (tallies.place c.input k).mp found
  have known : c.input ∈ ballot.inputs := List.mem_of_getElem? here
  rw [inputs_getElem?, Option.map_eq_some_iff] at here
  obtain ⟨f, here, same⟩ := here
  have inputs := inputs_meet here same.symm
  constructor
  · rw [inputs_append tallies, if_pos known, List.append_nil, inputs]
  · rw [inputs]
    exact tallies.place
  · intro j g there
    dsimp only at there
    rw [getElem?_modify_at here] at there
    split at there
    · cases there
      exact Favourite.heads_meet (tallies.heads k f here) same.symm
    · rename_i apart
      apply Favourite.heads_other (tallies.heads j g there)
      intro alike
      apply apart
      have place := (tallies.place c.input j).mpr (by rw [inputs_getElem?, there, alike]; rfl)
      rw [found] at place
      exact Option.some.inj place

theorem tallies_enter (tallies : ballot.Tallies candidates) (c : Candidate S I) :
    (ballot.enter c).Tallies (candidates ++ [c]) := by
  unfold enter
  cases found : ballot.byInput[c.input]? with
  | none => exact tallies_push tallies (tallies.place.fresh_iff.mpr found)
  | some k => exact tallies_meet tallies found

theorem tallies_ballot (leaf : Leaf S I) : leaf.ballot.Tallies leaf.candidates := by
  have run : ∀ (later earlier : List (Candidate S I)) (ballot : Ballot S I),
      ballot.Tallies earlier → (later.foldl Ballot.enter ballot).Tallies (earlier ++ later) := by
    intro later
    induction later with
    | nil =>
      intro earlier ballot tallies
      simpa using tallies
    | cons c later ih =>
      intro earlier ballot tallies
      simpa using ih (earlier ++ [c]) (ballot.enter c) (tallies_enter tallies c)
  exact run leaf.candidates [] {} tallies_nil

end Ballot

theorem rivals_eq_count (candidates : List (Candidate S I)) (input : I) (rank : Nat) :
    rivals candidates input rank
      = (candidates.map fun c => (c.input, c.rank)).count (input, rank) := by
  rw [List.count, List.countP_map]
  apply List.countP_congr
  intro c _
  simp [Prod.ext_iff]

theorem rivals_le_one {candidates : List (Candidate S I)}
    (distinct : (candidates.map fun c => (c.input, c.rank)).Nodup) (input : I) (rank : Nat) :
    rivals candidates input rank ≤ 1 := by
  rw [rivals_eq_count]
  exact List.nodup_iff_count_le_one.mp distinct _

theorem heads_of_ballot [Hashable I] {leaf : Leaf S I} {f : Favourite S I}
    (member : f ∈ leaf.ballot.favourites.toList) : f.Heads leaf.candidates := by
  obtain ⟨k, here⟩ := List.mem_iff_getElem?.mp member
  exact (Ballot.tallies_ballot leaf).heads k f (by simpa using here)

theorem candidate_of_winners [Hashable I] {leaf : Leaf S I} {winners : List (Candidate S I)}
    (selected : leaf.winners = .ok winners) {w : Candidate S I} (member : w ∈ winners) :
    w ∈ leaf.candidates := by
  obtain ⟨f, among, chosen⟩ := forall₂_mem_right (mapM_ok_iff.mp selected) member
  split at chosen
  · cases chosen
  · cases chosen
    exact (heads_of_ballot among).member

end Statechart
