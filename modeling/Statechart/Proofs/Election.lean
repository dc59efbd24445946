import Statechart.Proofs.Failures
import Statechart.Proofs.Selection

/-!
Who wins, on leaves of any kind. The candidates may come in any order and with any ranks: an input
whose greatest rank is that of one candidate alone elects it, and any other input is tied. Selection
yields the elected candidates, or fails on the first input that is tied. Main result:
`selection_elects_unique_maxima`.
-/
namespace Statechart

variable {S I : Type} [DecidableEq I]

namespace Leaf

def inputs (leaf : Leaf S I) : List I := (leaf.candidates.map Candidate.input).eraseDups

/-- The rank is the greatest one on the input, and several candidates have it. -/
structure TiedAt (leaf : Leaf S I) (input : I) (rank : Nat) : Prop where
  several : 1 < rivals leaf.candidates input rank
  greatest : ∀ c ∈ leaf.candidates, c.input = input → c.rank ≤ rank

def Ties (leaf : Leaf S I) (input : I) : Prop := ∃ rank, leaf.TiedAt input rank

/-- The candidate is the only one of its rank on its input, and none on it has a greater rank. -/
structure Elects (leaf : Leaf S I) (c : Candidate S I) : Prop where
  member : c ∈ leaf.candidates
  alone : rivals leaf.candidates c.input c.rank = 1
  greatest : ∀ d ∈ leaf.candidates, d.input = c.input → d.rank ≤ c.rank

variable {leaf : Leaf S I}

theorem mem_inputs {input : I} :
    input ∈ leaf.inputs ↔ ∃ c ∈ leaf.candidates, c.input = input := by
  rw [inputs, List.mem_eraseDups, List.mem_map]

theorem tied_member {input : I} {rank : Nat} (tied : leaf.TiedAt input rank) :
    ∃ c ∈ leaf.candidates, c.input = input ∧ c.rank = rank := by
  have some : 0 < rivals leaf.candidates input rank := Nat.lt_of_succ_lt tied.several
  obtain ⟨c, member, both⟩ := List.countP_pos_iff.mp some
  exact ⟨c, member, of_decide_eq_true both⟩

theorem tied_mem_inputs {input : I} (ties : leaf.Ties input) : input ∈ leaf.inputs := by
  obtain ⟨rank, tied⟩ := ties
  obtain ⟨c, member, named, _⟩ := tied_member tied
  exact mem_inputs.mpr ⟨c, member, named⟩

theorem tied_unique {input : I} {rank other : Nat} (tied : leaf.TiedAt input rank)
    (tiedOther : leaf.TiedAt input other) : rank = other := by
  obtain ⟨c, member, named, rfl⟩ := tied_member tied
  obtain ⟨d, memberOther, namedOther, rfl⟩ := tied_member tiedOther
  exact Nat.le_antisymm (tiedOther.greatest c member named) (tied.greatest d memberOther namedOther)

theorem elects_unique {c d : Candidate S I} (elects : leaf.Elects c) (electsOther : leaf.Elects d)
    (same : c.input = d.input) : c = d := by
  have rank : c.rank = d.rank := Nat.le_antisymm (electsOther.greatest c elects.member same)
    (elects.greatest d electsOther.member same.symm)
  have alone :
      (leaf.candidates.filter fun e => e.input = c.input ∧ e.rank = c.rank).length = 1 := by
    rw [← List.countP_eq_length_filter]
    exact elects.alone
  obtain ⟨e, only⟩ := List.length_eq_one_iff.mp alone
  have here : c ∈ leaf.candidates.filter fun e => e.input = c.input ∧ e.rank = c.rank :=
    List.mem_filter.mpr ⟨elects.member, by simp⟩
  have there : d ∈ leaf.candidates.filter fun e => e.input = c.input ∧ e.rank = c.rank :=
    List.mem_filter.mpr ⟨electsOther.member, by simp [same, rank]⟩
  rw [only, List.mem_singleton] at here there
  rw [here, there]

theorem untied_of_distinct (distinct : (leaf.candidates.map fun c => (c.input, c.rank)).Nodup)
    (input : I) : ¬ leaf.Ties input := by
  rintro ⟨rank, tied⟩
  exact absurd (rivals_le_one distinct input rank) (Nat.not_le.mpr tied.several)

theorem tied_of_favourite {f : Favourite S I} (heads : f.Heads leaf.candidates)
    (tied : f.tied = true) : leaf.TiedAt f.best.input f.best.rank :=
  ⟨heads.tied.mp tied, heads.deepest⟩

theorem favourite_of_tied {f : Favourite S I} (heads : f.Heads leaf.candidates)
    (ties : leaf.Ties f.best.input) : f.tied = true := by
  obtain ⟨rank, tied⟩ := ties
  obtain ⟨c, member, named, rfl⟩ := tied_member tied
  have same : c.rank = f.best.rank := Nat.le_antisymm (heads.deepest c member named)
    (tied.greatest f.best heads.member rfl)
  exact heads.tied.mpr (same ▸ tied.several)

theorem elects_of_favourite {f : Favourite S I} (heads : f.Heads leaf.candidates)
    (untied : ¬ leaf.Ties f.best.input) : leaf.Elects f.best := by
  have some := rivals_pos heads.member
  have few : ¬ 1 < rivals leaf.candidates f.best.input f.best.rank := fun several =>
    untied ⟨f.best.rank, several, heads.deepest⟩
  exact ⟨heads.member, by omega, heads.deepest⟩

variable [Hashable I]

theorem favourites_of_inputs (leaf : Leaf S I) :
    List.Forall₂ (fun input f => input = f.best.input ∧ f.Heads leaf.candidates) leaf.inputs
      leaf.ballot.favourites.toList := by
  have inputs : leaf.inputs = leaf.ballot.favourites.toList.map fun f => f.best.input :=
    (Ballot.tallies_ballot leaf).inputs.symm
  rw [inputs, List.forall₂_map_left_iff, List.forall₂_same]
  exact fun f member => ⟨rfl, heads_of_ballot member⟩

theorem winners_of_untied (untied : ∀ input, ¬ leaf.Ties input) : ∃ winners,
    leaf.winners = .ok winners ∧
      List.Forall₂ (fun input w => w.input = input ∧ leaf.Elects w) leaf.inputs winners := by
  have chosen : leaf.winners = .ok (leaf.ballot.favourites.toList.map Favourite.best) := by
    rw [Leaf.winners, mapM_ok_iff, List.forall₂_map_right_iff, List.forall₂_same]
    intro f member
    rw [if_neg]
    exact fun tied => untied _ ⟨_, tied_of_favourite (heads_of_ballot member) tied⟩
  refine ⟨_, chosen, ?_⟩
  rw [List.forall₂_map_right_iff]
  refine (favourites_of_inputs leaf).imp ?_
  rintro _ f ⟨rfl, heads⟩
  exact ⟨rfl, elects_of_favourite heads (untied _)⟩

theorem winners_of_distinct (distinct : (leaf.candidates.map fun c => (c.input, c.rank)).Nodup) :
    ∃ winners, leaf.winners = .ok winners ∧ winners.map Candidate.input = leaf.inputs ∧
      ∀ w ∈ winners, w ∈ leaf.candidates ∧
        ∀ c ∈ leaf.candidates, c.input = w.input → c.rank ≤ w.rank := by
  obtain ⟨winners, selected, elected⟩ := winners_of_untied (untied_of_distinct distinct)
  refine ⟨winners, selected, ?_, fun w member => ?_⟩
  · rw [← map_eq_of_forall₂ (elected.imp fun _ _ here => here.1.symm), List.map_id']
  · obtain ⟨_, _, _, elects⟩ := forall₂_mem_right elected member
    exact ⟨elects.member, elects.greatest⟩

theorem winners_of_tied {input : I} {rank : Nat} (first : IsFirst leaf.Ties leaf.inputs input)
    (tied : leaf.TiedAt input rank) : leaf.winners = .error (.ambiguous leaf.path input rank) := by
  have same : ∀ other (f : Favourite S I), other = f.best.input ∧ f.Heads leaf.candidates →
      (leaf.Ties other ↔ f.tied = true) := by
    rintro _ f ⟨rfl, heads⟩
    exact ⟨favourite_of_tied heads, fun tied => ⟨_, tied_of_favourite heads tied⟩⟩
  obtain ⟨f, ⟨earlier, later, split, untied, tie⟩, rfl, heads⟩ :=
    first_along (favourites_of_inputs leaf) same first
  have fine : ∀ g ∈ earlier, ∃ c, (if g.tied then
      Except.error (Fault.ambiguous leaf.path g.best.input g.best.rank) else .ok g.best) = .ok c :=
    fun g member => ⟨g.best, if_neg (untied g member)⟩
  rw [Leaf.winners, split]
  apply mapM_failed fine
  rw [if_pos tie, tied_unique tied (tied_of_favourite heads tie)]

omit [Hashable I] in
theorem untied_of_elects {c : Candidate S I} (elects : leaf.Elects c) : ¬ leaf.Ties c.input := by
  rintro ⟨rank, tied⟩
  obtain ⟨d, member, named, rfl⟩ := tied_member tied
  have same : d.rank = c.rank := Nat.le_antisymm (elects.greatest d member named)
    (tied.greatest c elects.member rfl)
  have several := tied.several
  rw [same, elects.alone] at several
  exact Nat.lt_irrefl 1 several

theorem elected_or_tied (leaf : Leaf S I) :
    (∃ winners, leaf.winners = .ok winners ∧
      List.Forall₂ (fun input w => w.input = input ∧ leaf.Elects w) leaf.inputs winners) ∨
    ∃ input rank, IsFirst leaf.Ties leaf.inputs input ∧ leaf.TiedAt input rank ∧
      leaf.winners = .error (.ambiguous leaf.path input rank) := by
  by_cases ties : ∃ input ∈ leaf.inputs, leaf.Ties input
  · obtain ⟨input, first⟩ := exists_first ties
    obtain ⟨rank, tied⟩ := first_holds first
    exact Or.inr ⟨input, rank, first, tied, winners_of_tied first tied⟩
  · exact Or.inl (winners_of_untied fun input tied => ties ⟨input, tied_mem_inputs tied, tied⟩)

/-- Selection succeeds exactly if the greatest rank of every input is that of one candidate alone.
Then it yields these candidates, in the order in which their inputs first appear. Otherwise it fails
on the first input whose greatest rank several candidates have. -/
theorem selection_elects_unique_maxima (leaf : Leaf S I) :
    ((∃ winners, leaf.winners = .ok winners) ↔
      ∀ input ∈ leaf.inputs, ∃ c, c.input = input ∧ leaf.Elects c) ∧
    (∀ winners, leaf.winners = .ok winners ↔
      List.Forall₂ (fun input w => w.input = input ∧ leaf.Elects w) leaf.inputs winners) ∧
    ∀ fault, leaf.winners = .error fault ↔ ∃ input rank,
      fault = .ambiguous leaf.path input rank ∧ IsFirst leaf.Ties leaf.inputs input ∧
        leaf.TiedAt input rank := by
  have alike : Relator.RightUnique fun input w => w.input = input ∧ leaf.Elects w := by
    rintro input v w ⟨rfl, elects⟩ ⟨same, electsToo⟩
    exact elects_unique elects electsToo same.symm
  have unelected : ∀ {input}, IsFirst leaf.Ties leaf.inputs input →
      ¬ ∀ input ∈ leaf.inputs, ∃ c, c.input = input ∧ leaf.Elects c := by
    intro input first each
    obtain ⟨c, rfl, elects⟩ := each input (first_mem first)
    exact untied_of_elects elects (first_holds first)
  have each : ∀ {winners}, List.Forall₂ (fun input w => w.input = input ∧ leaf.Elects w)
      leaf.inputs winners → ∀ input ∈ leaf.inputs, ∃ c, c.input = input ∧ leaf.Elects c := by
    intro winners elected input member
    obtain ⟨w, _, here⟩ := forall₂_mem_left elected member
    exact ⟨w, here⟩
  rcases elected_or_tied leaf with ⟨winners, selected, elected⟩ | ⟨input, rank, first, tied, failed⟩
  · refine ⟨⟨fun _ => each elected, fun _ => ⟨winners, selected⟩⟩, fun others => ?_,
      fun fault => ?_⟩
    · rw [selected, Except.ok.injEq]
      exact ⟨fun same => same ▸ elected,
        fun other => List.right_unique_forall₂' alike elected other⟩
    · rw [selected]
      refine ⟨nofun, ?_⟩
      rintro ⟨input, _, _, first, _⟩
      exact absurd (each elected) (unelected first)
  · simp only [failed, reduceCtorEq, exists_false, false_iff, Except.error.injEq]
    refine ⟨unelected first, fun _ elected => unelected first (each elected), fun fault => ?_⟩
    constructor
    · rintro rfl
      exact ⟨input, rank, rfl, first, tied⟩
    · rintro ⟨other, otherRank, rfl, firstOther, tiedOther⟩
      have again := winners_of_tied firstOther tiedOther
      rw [failed] at again
      exact Except.error.inj again

end Leaf
end Statechart
