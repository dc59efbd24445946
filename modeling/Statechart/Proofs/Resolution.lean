import Mathlib
import Statechart.Proofs.Election
import Statechart.Proofs.Moves

/-!
Resolving leaves of any kind. Paths may repeat, and candidates may have any ranks and lead anywhere.
The first leaf that is tied on an input, or that elects a candidate leading to no leaf, decides the
fault; where there is none each leaf gets a move for each of its inputs. Main result:
`leaves_resolve_unless_faulty`.
-/
namespace Statechart

open Compilation

namespace Leaf

variable {S I : Type} [DecidableEq I]

/-- The leaf elects a candidate for the input, and that candidate leads to none of the leaves. -/
def Loses (leaves : List (Leaf S I)) (leaf : Leaf S I) (input : I) : Prop :=
  ∃ c, leaf.Elects c ∧ c.input = input ∧ c.target ∉ leaves.map Leaf.path

def Faulty (leaves : List (Leaf S I)) (leaf : Leaf S I) : Prop :=
  ∃ input, leaf.Ties input ∨ leaf.Loses leaves input

/-- Of one leaf a tie comes before a missing target, on whatever inputs they are. -/
inductive FirstFault (leaves : List (Leaf S I)) : Fault S I → Prop where
  | ambiguous {leaf : Leaf S I} {input : I} {rank : Nat}
      (first : IsFirst (Faulty leaves) leaves leaf) (tie : IsFirst leaf.Ties leaf.inputs input)
      (tied : leaf.TiedAt input rank) : FirstFault leaves (.ambiguous leaf.path input rank)
  | unresolved {leaf : Leaf S I} {c : Candidate S I}
      (first : IsFirst (Faulty leaves) leaves leaf) (untied : ∀ input, ¬ leaf.Ties input)
      (loss : IsFirst (leaf.Loses leaves) leaf.inputs c.input) (elects : leaf.Elects c) :
      FirstFault leaves (.unresolvedTarget c.target)

variable [Named S] [Named I]

/-- A move for each input, along the candidate elected for it. Of several leaves with the path that
it leads to, the last one is entered. -/
def ResolvesTo (options : Options) (leaves : List (Leaf S I)) (leaf : Leaf S I)
    (moves : List (Move S I)) : Prop :=
  List.Forall₂ (fun input m => ∃ c target, c.input = input ∧ leaf.Elects c ∧
    IsFirst (fun other => other.path = c.target) leaves.reverse target ∧
    m.Follows options leaf target c) leaf.inputs moves

def AllResolveTo (options : Options) (leaves : List (Leaf S I)) (moves : List (Move S I)) : Prop :=
  ∃ parts, moves = parts.flatten ∧ List.Forall₂ (ResolvesTo options leaves) leaves parts

variable {leaves : List (Leaf S I)} {leaf : Leaf S I} {options : Options}

omit [Named S] [Named I] in
theorem loses_iff {c : Candidate S I} (elects : leaf.Elects c) :
    leaf.Loses leaves c.input ↔ c.target ∉ leaves.map Leaf.path := by
  constructor
  · rintro ⟨d, electsToo, same, lost⟩
    exact elects_unique electsToo elects same ▸ lost
  · exact fun lost => ⟨c, elects, rfl, lost⟩

omit [Named S] [Named I] in
theorem firstFault_of_faulty (some : ∃ leaf ∈ leaves, Faulty leaves leaf) :
    ∃ fault, FirstFault leaves fault := by
  obtain ⟨leaf, first⟩ := exists_first some
  by_cases ties : ∃ input ∈ leaf.inputs, leaf.Ties input
  · obtain ⟨input, tie⟩ := exists_first ties
    obtain ⟨rank, tied⟩ := first_holds tie
    exact ⟨_, .ambiguous first tie tied⟩
  · have untied : ∀ input, ¬ leaf.Ties input := fun input tied =>
      ties ⟨input, tied_mem_inputs tied, tied⟩
    obtain ⟨input, tied | ⟨c, elects, rfl, lost⟩⟩ := first_holds first
    · exact absurd tied (untied input)
    · have known : c.input ∈ leaf.inputs := mem_inputs.mpr ⟨c, elects.member, rfl⟩
      have losses : ∃ input ∈ leaf.inputs, leaf.Loses leaves input :=
        ⟨c.input, known, c, elects, rfl, lost⟩
      obtain ⟨other, loss⟩ := exists_first losses
      obtain ⟨d, electsOther, rfl, _⟩ := first_holds loss
      exact ⟨_, .unresolved first untied loss electsOther⟩

variable [DecidableEq S] [Hashable S]

omit [DecidableEq I] [Named S] [Named I] in
theorem byPath_some_iff {path : Path S} {target : Leaf S I} :
    (byPath leaves)[path]? = some target ↔
      IsFirst (fun other => other.path = path) leaves.reverse target := by
  rw [byPath_eq_find, List.find?_eq_some_iff_append]
  constructor
  · rintro ⟨here, earlier, later, split, none⟩
    refine ⟨earlier, later, split, fun other member => ?_, by simpa using here⟩
    simpa using none other member
  · rintro ⟨earlier, later, split, none, here⟩
    refine ⟨by simpa using here, earlier, later, split, fun other member => ?_⟩
    simpa using none other member

omit [DecidableEq I] [Named S] [Named I] in
theorem byPath_none_iff {path : Path S} :
    (byPath leaves)[path]? = none ↔ path ∉ leaves.map Leaf.path := by
  rw [byPath_eq_find, List.find?_eq_none]
  simp

variable [Hashable I]

theorem moves_make_unless_faulty (sound : ¬ Faulty leaves leaf) :
    (leaf.moves (byPath leaves) options).Makes (leaf.ResolvesTo options leaves) := by
  have untied : ∀ input, ¬ leaf.Ties input := fun input ties => sound ⟨input, Or.inl ties⟩
  obtain ⟨winners, selected, elected⟩ := winners_of_untied untied
  have each : ∀ input ∈ leaf.inputs, ∀ w, w.input = input ∧ leaf.Elects w → ∀ {exits},
      List.Forall₂ Hook.Yields leaf.exits exits →
      (leaf.move (byPath leaves) options exits w).Makes fun m =>
        ∃ c target, c.input = input ∧ leaf.Elects c ∧
          IsFirst (fun other => other.path = c.target) leaves.reverse target ∧
          m.Follows options leaf target c := by
    rintro _ _ w ⟨rfl, elects⟩ exits yields
    cases found : (byPath leaves)[w.target]? with
    | none => exact absurd ⟨w.input, Or.inr ⟨w, elects, rfl, byPath_none_iff.mp found⟩⟩ sound
    | some target =>
      refine makes_weaken (move_makes options yields found) fun m follows => ?_
      exact ⟨w, target, rfl, elects, byPath_some_iff.mp found, follows⟩
  unfold Leaf.moves
  apply makes_bind (makes_of_state (Hook.bindAll_yields leaf.exits))
  intro exits yields
  apply makes_bind (makes_of_ok selected)
  intro _ same
  subst same
  exact makes_mapM_along elected fun input member w here => each input member w here yields

theorem moves_fail_of_tie {input : I} {rank : Nat} (tie : IsFirst leaf.Ties leaf.inputs input)
    (tied : leaf.TiedAt input rank) :
    (leaf.moves (byPath leaves) options).Fails (.ambiguous leaf.path input rank) := by
  unfold Leaf.moves
  apply fails_later (makes_of_state (Hook.bindAll_yields leaf.exits))
  exact fun exits _ => fails_bind (fails_of_error (winners_of_tied tie tied)) _

theorem moves_fail_of_loss {c : Candidate S I} (untied : ∀ input, ¬ leaf.Ties input)
    (loss : IsFirst (leaf.Loses leaves) leaf.inputs c.input) (elects : leaf.Elects c) :
    (leaf.moves (byPath leaves) options).Fails (.unresolvedTarget c.target) := by
  obtain ⟨winners, selected, elected⟩ := winners_of_untied untied
  have same : ∀ input w, w.input = input ∧ leaf.Elects w →
      (leaf.Loses leaves input ↔ w.target ∉ leaves.map Leaf.path) := by
    rintro _ w ⟨rfl, electsToo⟩
    exact loses_iff electsToo
  obtain ⟨w, ⟨earlier, later, rfl, found, lost⟩, named, electsToo⟩ := first_along elected same loss
  cases elects_unique electsToo elects named
  unfold Leaf.moves
  apply fails_later (makes_of_state (Hook.bindAll_yields leaf.exits))
  intro exits yields
  apply fails_later (makes_of_ok selected)
  rintro _ rfl
  have fine : ∀ d ∈ earlier,
      (leaf.move (byPath leaves) options exits d).Makes fun _ => True := by
    intro d member
    cases target : (byPath leaves)[d.target]? with
    | none => exact absurd (byPath_none_iff.mp target) (found d member)
    | some other => exact makes_weaken (move_makes options yields target) fun _ _ => trivial
  apply fails_mapM fine
  unfold Leaf.move
  rw [byPath_none_iff.mpr lost]
  exact fails_throw

theorem allMoves_make_unless_faulty (sound : ∀ leaf ∈ leaves, ¬ Faulty leaves leaf) :
    (allMoves leaves options).Makes (AllResolveTo options leaves) := by
  unfold allMoves
  apply makes_bind (makes_mapM fun leaf member => moves_make_unless_faulty (sound leaf member))
  exact fun parts resolved => makes_pure ⟨parts, rfl, resolved⟩

theorem allMoves_fail_of_firstFault {fault : Fault S I} (fails : FirstFault leaves fault) :
    (allMoves leaves options).Fails fault := by
  have whole : ∀ {leaf : Leaf S I}, IsFirst (Faulty leaves) leaves leaf →
      (leaf.moves (byPath leaves) options).Fails fault → (allMoves leaves options).Fails fault := by
    rintro leaf ⟨earlier, later, split, sound, _⟩ failed
    unfold allMoves
    apply fails_bind
    have along :
        ((earlier ++ leaf :: later).mapM (Leaf.moves (byPath leaves) options)).Fails fault :=
      fails_mapM (fun other member => moves_make_unless_faulty (sound other member)) failed
    rwa [← split] at along
  cases fails with
  | ambiguous first tie tied => exact whole first (moves_fail_of_tie tie tied)
  | unresolved first untied loss elects => exact whole first (moves_fail_of_loss untied loss elects)

theorem firstFault_of_run {fault : Fault S I} {journal after : Journal}
    (run : (allMoves leaves options).run journal = (.error fault, after)) :
    FirstFault leaves fault := by
  by_cases some : ∃ leaf ∈ leaves, Faulty leaves leaf
  · obtain ⟨first, fails⟩ := firstFault_of_faulty some
    exact fault_of_fails (allMoves_fail_of_firstFault fails) run ▸ fails
  · have sound : ∀ leaf ∈ leaves, ¬ Faulty leaves leaf := fun leaf member faulty =>
      some ⟨leaf, member, faulty⟩
    have makes : (allMoves leaves options).Makes (AllResolveTo options leaves) :=
      allMoves_make_unless_faulty sound
    obtain ⟨_, _, succeeded, _⟩ := makes journal
    rw [run] at succeeded
    cases succeeded

/-- Resolving stops with the fault of the first faulty leaf, and there is such a fault as soon as a
leaf is faulty. Where none is, resolving succeeds, with a move for each input of each leaf. -/
theorem leaves_resolve_unless_faulty (leaves : List (Leaf S I)) (options : Options)
    (journal : Journal) :
    (∀ fault, (∃ after, (allMoves leaves options).run journal = (.error fault, after)) ↔
      FirstFault leaves fault) ∧
    ((∃ leaf ∈ leaves, Faulty leaves leaf) → ∃ fault, FirstFault leaves fault) ∧
    ((∀ leaf ∈ leaves, ¬ Faulty leaves leaf) → ∃ moves after,
      (allMoves leaves options).run journal = (.ok moves, after) ∧
        AllResolveTo options leaves moves) := by
  refine ⟨fun fault => ⟨?_, fun fails => ?_⟩, firstFault_of_faulty, fun sound => ?_⟩
  · rintro ⟨after, run⟩
    exact firstFault_of_run run
  · exact allMoves_fail_of_firstFault fails journal
  · exact allMoves_make_unless_faulty sound journal

def ford : List (Leaf String String) := [
  ⟨["bank"], [], [.fixed "leave"],
    [⟨"cross", ["bank"], none, 1⟩, ⟨"cross", ["river"], some (.fixed "wade"), 2⟩]⟩,
  ⟨["river"], [.fixed "shallow"], [], []⟩,
  ⟨["river"], [.fixed "deep"], [], []⟩]

def mire : List (Leaf String String) := [
  ⟨["bog"], [], [], [⟨"wade", ["shore"], none, 1⟩, ⟨"sink", ["bog"], none, 3⟩,
    ⟨"sink", ["bog"], none, 2⟩, ⟨"sink", ["bog"], none, 3⟩]⟩]

theorem ford_resolves_and_mire_fails : (∃ moves after,
    (allMoves ford {}).run {} = (.ok moves, after) ∧ AllResolveTo {} ford moves ∧
      moves.map (fun m => m.action.entries) = [[.said "leave", .said "wade", .said "deep"]]) ∧
    FirstFault mire (.ambiguous ["bog"] "sink" 3) := by
  constructor
  · obtain ⟨faults, faulty, resolve⟩ := leaves_resolve_unless_faulty ford {} {}
    have ran : ((allMoves ford {}).run {}).1.map (List.map fun m => m.action.entries)
        = .ok [[.said "leave", .said "wade", .said "deep"]] := by cbv
    have sound : ∀ leaf ∈ ford, ¬ Faulty ford leaf := by
      intro leaf member bad
      obtain ⟨fault, first⟩ := faulty ⟨leaf, member, bad⟩
      obtain ⟨after, run⟩ := (faults fault).mpr first
      rw [run] at ran
      cases ran
    obtain ⟨moves, after, run, resolved⟩ := resolve sound
    rw [run] at ran
    exact ⟨moves, after, run, resolved, Except.ok.inj ran⟩
  · have ran : ((allMoves mire {}).run {}).1.map List.length
        = .error (.ambiguous ["bog"] "sink" 3) := by cbv
    refine ((leaves_resolve_unless_faulty mire {} {}).1 _).mp ⟨((allMoves mire {}).run {}).2, ?_⟩
    cases run : (allMoves mire {}).run {} with
    | mk result after =>
      rw [run] at ran
      cases result with
      | ok => cases ran
      | error fault => rw [Except.error.inj ran]

end Leaf
end Statechart
