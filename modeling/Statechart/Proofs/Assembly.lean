import Mathlib.Data.List.Induction
import Statechart.Proofs.LevelFault
import Statechart.Proofs.Tabulation

/-!
Tables of any moves. A list of moves has a table unless two of them agree in source and input; the
fault is then about the first move that repeats an earlier one. The rows stand in the order in which
their paths first appear: the start, then the sources, then the targets.
-/
namespace Statechart

section Repeating

variable {S I : Type}

/-- The first of the moves that has the key of an earlier one. -/
def Move.FirstRepeated (moves : List (Move S I)) (m : Move S I) : Prop :=
  ∃ earlier later, moves = earlier ++ m :: later ∧ (earlier.map Move.key).Nodup ∧
    m.key ∈ earlier.map Move.key

theorem nodup_or_firstRepeated [DecidableEq S] [DecidableEq I] (moves : List (Move S I)) :
    (moves.map Move.key).Nodup ∨ ∃ m, Move.FirstRepeated moves m := by
  cases scanned : firstRepeated? [] (moves.map Move.key) with
  | none => exact Or.inl ((unseen_from_start _).mp (firstRepeated_none_iff.mp scanned))
  | some key =>
    obtain ⟨keys, others, split, unseen, again⟩ := firstRepeated_some_iff.mp scanned
    obtain ⟨earlier, rest, rfl, rfl, restKeys⟩ := List.map_eq_append_iff.mp split
    obtain ⟨m, later, rfl, rfl, _⟩ := List.map_eq_cons_iff.mp restKeys
    have distinct := (unseen_from_start _).mp unseen
    have known : m.key ∈ earlier.map Move.key := by simpa using again
    exact Or.inr ⟨m, earlier, later, rfl, distinct, known⟩

end Repeating

namespace Table

section Order

variable {S I : Type} [DecidableEq S]

theorem foldl_grown_eq_eraseDups (paths : List (Path S)) :
    paths.foldl grown [] = paths.eraseDups := by
  induction paths using List.reverseRecOn with
  | nil => rfl
  | append_singleton paths path ih =>
    rw [List.foldl_append, List.foldl_cons, List.foldl_nil, ih, List.eraseDups_append, grown]
    by_cases known : path ∈ paths
    · simp [known, List.removeAll]
    · simp [known, List.removeAll, List.eraseDups_cons]

end Order

variable {S I : Type} [DecidableEq S] [Hashable S] [DecidableEq I] [Hashable I] [Named S] [Named I]
  {options : Options} {moves : List (Move S I)} {table : Table S I}

theorem add_repeated (tells : table.Tells options moves) {m : Move S I}
    (again : m.key ∈ moves.map Move.key) :
    table.add options m = .error (.duplicateTransition m.source m.input) := by
  obtain ⟨next, middle, runTarget, tellsMiddle, _⟩ := place_spec tells m.target
  obtain ⟨number, after, runSource, tellsAfter, place, _⟩ := place_spec tellsMiddle m.source
  obtain ⟨other, member, same⟩ := List.mem_map.mp again
  have source : other.source = m.source := congrArg Prod.fst same
  have input : other.input = m.input := congrArg Prod.snd same
  obtain ⟨cell, found, _⟩ := cell?_of_move tellsAfter member (source ▸ place)
  rw [input] at found
  simp only [add, runTarget, runSource, found]

theorem addAll_repeated (tells : table.Tells options []) {m : Move S I}
    (first : Move.FirstRepeated moves m) :
    table.addAll options moves = .error (.duplicateTransition m.source m.input) := by
  obtain ⟨earlier, later, rfl, distinct, again⟩ := first
  obtain ⟨between, run, tellsBetween, _⟩ := addAll_spec tells (by simpa using distinct)
  have fails := add_repeated tellsBetween (by simpa using again)
  have run : earlier.foldlM (Table.add options) table = .ok between := run
  rw [addAll, List.foldlM_append, run]
  simp only [bind, Except.bind, List.foldlM_cons, fails]

structure Assembled (start : Path S) (moves : List (Move S I)) (options : Options)
    (table : Table S I) : Prop where
  distinct : (moves.map Move.key).Nodup
  tells : table.Tells options moves
  paths : table.paths = (start :: moves.map Move.source ++ moves.map Move.target).eraseDups
  start : table.start = 0

theorem ofMoves_of_distinct (start : Path S) (options : Options)
    (distinct : (moves.map Move.key).Nodup) :
    ∃ table, ofMoves start moves options = .ok table ∧ Assembled start moves options table := by
  have empty : Tells options ([] : List (Move S I)) {} := tells_nil
  obtain ⟨placed, placedPaths, placedStart⟩ := placeAll_spec empty (start :: moves.map Move.source)
  obtain ⟨table, run, tells, paths, tableStart⟩ := addAll_spec placed (by simpa using distinct)
  have placedPaths : (placeAll options ({} : Table S I) (start :: moves.map Move.source)).paths
      = (start :: moves.map Move.source).foldl grown [] := placedPaths
  have sources : ∀ m ∈ moves, m.source ∈
      (placeAll options ({} : Table S I) (start :: moves.map Move.source)).paths := by
    intro m member
    rw [placedPaths, foldl_grown_eq_eraseDups, List.mem_eraseDups]
    exact List.mem_cons_of_mem _ (List.mem_map_of_mem member)
  refine ⟨table, run, distinct, tells, ?_, tableStart.trans placedStart⟩
  rw [paths, foldl_grown_targets sources, placedPaths, ← List.foldl_append]
  exact foldl_grown_eq_eraseDups _

theorem ofMoves_of_firstRepeated (start : Path S) (options : Options) {m : Move S I}
    (first : Move.FirstRepeated moves m) :
    ofMoves start moves options = .error (.duplicateTransition m.source m.input) :=
  addAll_repeated (placeAll_spec tells_nil _).1 first

theorem assembled_of_ofMoves {start : Path S} (made : ofMoves start moves options = .ok table) :
    Assembled start moves options table := by
  rcases nodup_or_firstRepeated moves with distinct | ⟨m, first⟩
  · obtain ⟨other, madeOther, assembled⟩ := ofMoves_of_distinct start options distinct
    rw [made, Except.ok.injEq] at madeOther
    exact madeOther ▸ assembled
  · rw [ofMoves_of_firstRepeated start options first] at made
    cases made

theorem firstRepeated_of_ofMoves {start : Path S} {fault : Fault S I}
    (failed : ofMoves start moves options = .error fault) :
    ∃ m, Move.FirstRepeated moves m ∧ fault = .duplicateTransition m.source m.input := by
  rcases nodup_or_firstRepeated moves with distinct | ⟨m, first⟩
  · obtain ⟨table, made, _⟩ := ofMoves_of_distinct start options distinct
    rw [failed] at made
    cases made
  · rw [ofMoves_of_firstRepeated start options first] at failed
    exact ⟨m, first, (Except.error.inj failed).symm⟩

theorem ofMoves_relabelled (start : Path S) (moves : List (Move S I)) (options : Options)
    (relabel : Move S I → Option String) :
    ofMoves start (moves.map fun m => { m with label := relabel m }) options
      = ofMoves start moves options := by
  simp only [ofMoves, addAll, List.map_map, List.foldlM_map]
  rfl

/-- The table of moves fails exactly if two of them agree in source and input, and then with the
first that repeats an earlier one. It has a row for each path, in the order in which the start, the
sources and the targets first appear, and in a row a cell for each move from its path, in order. -/
theorem ofMoves_groups_moves (start : Path S) (moves : List (Move S I)) (options : Options) :
    ((∃ table, ofMoves start moves options = .ok table) ↔ (moves.map Move.key).Nodup) ∧
    (∀ fault, ofMoves start moves options = .error fault ↔
      ∃ m, Move.FirstRepeated moves m ∧ fault = .duplicateTransition m.source m.input) ∧
    (∀ relabel : Move S I → Option String,
      ofMoves start (moves.map fun m => { m with label := relabel m }) options
        = ofMoves start moves options) ∧
    ∀ table, ofMoves start moves options = .ok table →
      table.paths = (start :: moves.map Move.source ++ moves.map Move.target).eraseDups ∧
      (∀ path k, table.rowOf? path = some k ↔ table.paths[k]? = some path) ∧
      ∀ k row, table.row? k = some row →
        List.Forall₂ (CellOf options table) (moves.filter fun m => m.source = row.path)
          row.cells.toList := by
  refine ⟨⟨?_, ?_⟩, fun fault => ⟨firstRepeated_of_ofMoves, ?_⟩,
    ofMoves_relabelled start moves options, ?_⟩
  · rintro ⟨table, made⟩
    exact (assembled_of_ofMoves made).distinct
  · intro distinct
    obtain ⟨table, made, _⟩ := ofMoves_of_distinct start options distinct
    exact ⟨table, made⟩
  · rintro ⟨m, first, rfl⟩
    exact ofMoves_of_firstRepeated start options first
  · intro table made
    have assembled := assembled_of_ofMoves made
    exact ⟨assembled.paths, assembled.tells.paths, assembled.tells.cells⟩

def stroll : List (Move String String) := [
  ⟨["hall"], "wait", ["hall"], .write (.said "sigh"), 1, none⟩,
  ⟨["hall"], "climb", ["attic"], .idle, 1, some "up"⟩,
  ⟨["cellar"], "climb", ["hall"], .idle, 1, none⟩]

theorem stroll_grouped : ∃ table, ofMoves ["door"] stroll {} = .ok table ∧
    table.paths = [["door"], ["hall"], ["cellar"], ["attic"]] ∧
    ofMoves ["door"] (stroll ++ stroll) {} = .error (.duplicateTransition ["hall"] "wait") := by
  obtain ⟨succeeds, _, _, rows⟩ := ofMoves_groups_moves ["door"] stroll {}
  obtain ⟨table, made⟩ := succeeds.mpr (by decide)
  refine ⟨table, made, (rows table made).1.trans (by decide), ?_⟩
  have first : Move.FirstRepeated (stroll ++ stroll)
      ⟨["hall"], "wait", ["hall"], .write (.said "sigh"), 1, none⟩ :=
    ⟨stroll, stroll.tail, rfl, by decide, by decide⟩
  exact ((ofMoves_groups_moves ["door"] (stroll ++ stroll) {}).2.1 _).mpr ⟨_, first, rfl⟩

end Table
end Statechart
