import Statechart.Proofs.Labels
import Statechart.Proofs.Renaming

/-!
Moves and tables of renamed charts. A renamed chart has the moves and the table of the chart,
renamed: candidates are grouped and targets looked up alike, since that is done by equality of
symbols alone. Labels are left aside here.
-/
namespace Statechart

section Renaming

variable {S I S' I' : Type} (f : S → S') (g : I → I')

abbrev Compilation.rename {α : Type} (compilation : Compilation S I α) : Compilation S' I' α :=
  ExceptT.adapt (Fault.rename f g) compilation

def Move.rename (m : Move S I) : Move S' I' :=
  { source := m.source.map f
    input := g m.input
    target := m.target.map f
    action := m.action
    rank := m.rank
    label := m.label }

def Cell.rename (cell : Cell I) : Cell I' :=
  { input := g cell.input, next := cell.next, action := cell.action, label := cell.label }

variable [DecidableEq I] [Hashable I] [DecidableEq I'] [Hashable I']

def Row.rename (row : Row S I) : Row S' I' :=
  { path := row.path.map f
    label := row.label
    cells := row.cells.map (Cell.rename g)
    byInput := indexOf (row.inputs.map g) }

variable [DecidableEq S] [Hashable S] [DecidableEq S'] [Hashable S']

def Table.rename (table : Table S I) : Table S' I' :=
  { rows := table.rows.map (Row.rename f g)
    start := table.start
    byPath := indexOf (table.paths.map (List.map f)) }

end Renaming

variable {S I S' I' : Type} {f : S → S'} {g : I → I'}

def Favourite.rename (f : S → S') (g : I → I') (favourite : Favourite S I) : Favourite S' I' :=
  { best := favourite.best.rename f g, tied := favourite.tied }

theorem Favourite.meet_rename (favourite : Favourite S I) (c : Candidate S I) :
    (favourite.meet c).rename f g = (favourite.rename f g).meet (c.rename f g) := by
  have best : (favourite.rename f g).best.rank = favourite.best.rank := rfl
  have rank : (c.rename f g).rank = c.rank := rfl
  rw [meet, meet, best, rank]
  split
  · rfl
  · split <;> rfl

section Selection

variable [DecidableEq I] [Hashable I] [DecidableEq I'] [Hashable I']

/-- The favourites are the same, renamed, and are found for the renamed inputs. -/
structure Ballot.Renames (f : S → S') (g : I → I') (ballot : Ballot S I) (other : Ballot S' I') :
    Prop where
  favourites : other.favourites = ballot.favourites.map (Favourite.rename f g)
  byInput : ∀ input, other.byInput[g input]? = ballot.byInput[input]?

theorem Ballot.enter_renames (injective : Function.Injective g) {ballot : Ballot S I}
    {other : Ballot S' I'} (renames : ballot.Renames f g other) (c : Candidate S I) :
    (ballot.enter c).Renames f g (other.enter (c.rename f g)) := by
  have place : other.byInput[(c.rename f g).input]? = ballot.byInput[c.input]? :=
    renames.byInput c.input
  rw [enter, enter, place]
  cases ballot.byInput[c.input]? with
  | none =>
    constructor
    · rw [renames.favourites, Array.map_push]
      rfl
    · intro input
      have size : other.favourites.size = ballot.favourites.size := by
        rw [renames.favourites, Array.size_map]
      have named : (c.rename f g).input = g c.input := rfl
      simp only [named, size, Std.HashMap.getElem?_insert, beq_iff_eq, injective.eq_iff,
        renames.byInput]
  | some k =>
    refine ⟨?_, renames.byInput⟩
    have changed : (ballot.favourites.modify k (·.meet c)).map (Favourite.rename f g)
        = (ballot.favourites.map (Favourite.rename f g)).modify k (·.meet (c.rename f g)) :=
      modify_mapped (fun favourite => favourite.meet_rename c) ballot.favourites k
    rw [renames.favourites, changed]

theorem Leaf.ballot_renames (injective : Function.Injective g) (leaf : Leaf S I) :
    leaf.ballot.Renames f g (leaf.rename f g).ballot := by
  have all : ∀ (candidates : List (Candidate S I)) (ballot : Ballot S I) (other : Ballot S' I'),
      ballot.Renames f g other → (candidates.foldl Ballot.enter ballot).Renames f g
        ((candidates.map (Candidate.rename f g)).foldl Ballot.enter other) := by
    intro candidates
    induction candidates with
    | nil => exact fun _ _ renames => renames
    | cons c candidates ih =>
      intro ballot other renames
      exact ih _ _ (Ballot.enter_renames injective renames c)
  exact all leaf.candidates {} {} ⟨by simp, by simp⟩

theorem Leaf.winners_renamed (injective : Function.Injective g) (leaf : Leaf S I) :
    (leaf.rename f g).winners
      = List.map (Candidate.rename f g) <$> Fault.renameIn f g leaf.winners := by
  rw [winners, winners, (leaf.ballot_renames injective).favourites, Array.toList_map]
  apply mapM_mapError
  intro favourite _
  have tied : (favourite.rename f g).tied = favourite.tied := rfl
  rw [tied]
  cases favourite.tied <;> rfl

end Selection

section Moves

variable [DecidableEq S] [Hashable S] [DecidableEq S'] [Hashable S']

theorem byPath_renamed (injective : Function.Injective f) (leaves : List (Leaf S I))
    (path : Path S) : (Leaf.byPath (leaves.map (Leaf.rename f g)))[path.map f]?
      = ((Leaf.byPath leaves)[path]?).map (Leaf.rename f g) := by
  have same : ∀ leaf : Leaf S I, ((leaf.rename f g).path == path.map f) = (leaf.path == path) := by
    intro leaf
    rw [Bool.eq_iff_iff, beq_iff_eq, beq_iff_eq]
    exact (List.map_injective_iff.mpr injective).eq_iff
  have looked : (Leaf.byPath leaves)[path]? = _ :=
    getElem?_foldl_insert Leaf.path id leaves {} path
  have lookedToo : (Leaf.byPath (leaves.map (Leaf.rename f g)))[path.map f]? = _ :=
    getElem?_foldl_insert Leaf.path id (leaves.map (Leaf.rename f g)) {} (path.map f)
  rw [looked, lookedToo, ← List.map_reverse, List.find?_map]
  simp only [Function.comp_def, same, Std.HashMap.getElem?_empty, Option.or_none, Option.map_id, id]

variable [Named S] [Named I] [Named S'] [Named I']

theorem move_renamed {index : Std.HashMap (Path S) (Leaf S I)}
    {other : Std.HashMap (Path S') (Leaf S' I')}
    (indexed : ∀ path : Path S, other[path.map f]? = (index[path]?).map (Leaf.rename f g))
    (leaf : Leaf S I) (exits : List Action) (c : Candidate S I) :
    (leaf.rename f g).move other {} exits (c.rename f g)
      = Move.rename f g <$> (leaf.move index {} exits c).rename f g := by
  have target : (c.rename f g).target = c.target.map f := rfl
  rw [Leaf.move, Leaf.move, target, indexed]
  cases index[c.target]? <;> rfl

variable [DecidableEq I] [Hashable I] [DecidableEq I'] [Hashable I']

theorem leaf_moves_renamed (injectiveInputs : Function.Injective g)
    {index : Std.HashMap (Path S) (Leaf S I)} {other : Std.HashMap (Path S') (Leaf S' I')}
    (indexed : ∀ path : Path S, other[path.map f]? = (index[path]?).map (Leaf.rename f g))
    (leaf : Leaf S I) : (leaf.rename f g).moves other {}
      = List.map (Move.rename f g) <$> (leaf.moves index {}).rename f g := by
  have own : ∀ exits (winners : List (Candidate S I)),
      (winners.map (Candidate.rename f g)).mapM ((leaf.rename f g).move other {} exits)
        = List.map (Move.rename f g) <$> (winners.mapM (leaf.move index {} exits)).rename f g :=
    fun exits winners => Compilation.mapM_adapt fun c _ => move_renamed indexed leaf exits c
  have exits : (leaf.rename f g).exits = leaf.exits := rfl
  simp only [Leaf.moves, exits, Leaf.winners_renamed injectiveInputs, liftM_map_except,
    bind_map_left, own, Compilation.adapt_bind, Compilation.adapt_of_except,
    Compilation.adapt_of_state, map_bind]

theorem allMoves_renamed (injective : Function.Injective f) (injectiveInputs : Function.Injective g)
    (leaves : List (Leaf S I)) : Leaf.allMoves (leaves.map (Leaf.rename f g)) {}
      = List.map (Move.rename f g) <$> (Leaf.allMoves leaves {}).rename f g := by
  have parts : (leaves.map (Leaf.rename f g)).mapM
        (Leaf.moves (Leaf.byPath (leaves.map (Leaf.rename f g))) {})
      = List.map (List.map (Move.rename f g)) <$>
        (leaves.mapM (Leaf.moves (Leaf.byPath leaves) {})).rename f g :=
    Compilation.mapM_adapt fun leaf _ =>
      leaf_moves_renamed injectiveInputs (byPath_renamed injective leaves) leaf
  simp only [Leaf.allMoves, parts, bind_map_left, Compilation.adapt_bind, Compilation.adapt_pure,
    map_bind, map_pure, List.map_flatten]

theorem moves_renamed (injective : Function.Injective f) (injectiveInputs : Function.Injective g)
    (chart : Chart S I) (root : Fin chart.size) : (chart.rename f g).moves root {}
      = List.map (Move.rename f g) <$> (chart.moves root {}).rename f g := by
  simp only [Chart.moves, Chart.check_renamed injective injectiveInputs,
    Chart.leaves_renamed injective, liftM_map_except, bind_map_left,
    allMoves_renamed injective injectiveInputs, Compilation.adapt_bind,
    Compilation.adapt_of_except, map_bind]

end Moves

section Rows

variable [DecidableEq I] [Hashable I] [DecidableEq I'] [Hashable I']

theorem Row.push_rename (row : Row S I) (cell : Cell I) :
    (row.push cell).rename f g = (row.rename f g).push (cell.rename g) := by
  have inputs : (row.push cell).inputs = row.inputs ++ [cell.input] := row.inputs_push cell
  have size : (row.inputs.map g).length = (row.cells.map (Cell.rename g)).size := by
    simp [Row.inputs]
  rw [rename, inputs, List.map_append, List.map_singleton, indexOf_append, size]
  simp only [push, rename, Array.map_push]
  rfl

theorem Row.cell?_rename (injective : Function.Injective g) {row : Row S I}
    (indexed : Points row.byInput row.inputs) (input : I) :
    (row.rename f g).cell? (g input) = (row.cell? input).map (Cell.rename g) := by
  have place : (row.rename f g).byInput[g input]? = row.byInput[input]? :=
    getElem?_of_points injective indexed input
  simp only [cell?, place, Option.bind_eq_bind]
  cases row.byInput[input]? with
  | none => rfl
  | some k => exact Array.getElem?_map

end Rows

namespace Table

variable [DecidableEq S] [Hashable S] [DecidableEq S'] [Hashable S'] [DecidableEq I] [Hashable I]
  [DecidableEq I'] [Hashable I'] [Named S] [Named I] {moves : List (Move S I)} {table : Table S I}

omit [Named S] [Named I] in
theorem rename_empty : ({} : Table S I).rename f g = {} := by
  simp [rename, paths, indexOf]

theorem rowOf?_rename (injective : Function.Injective f) (tells : table.Tells {} moves)
    (path : Path S) : (table.rename f g).rowOf? (path.map f) = table.rowOf? path :=
  getElem?_of_points (List.map_injective_iff.mpr injective) tells.paths path

theorem cell?_rename (injective : Function.Injective g) (tells : table.Tells {} moves)
    (number : Nat) (input : I) :
    (table.rename f g).cell? number (g input) = (table.cell? number input).map (Cell.rename g) := by
  simp only [cell?, row?, rename, Array.getElem?_map]
  cases here : table.rows[number]? with
  | none => rfl
  | some row => exact row.cell?_rename injective (tells.inputs number row here) input

variable [Named S']

theorem place_renamed (injective : Function.Injective f) (tells : table.Tells {} moves)
    (path : Path S) : (table.rename f g).place {} (path.map f)
      = ((table.place {} path).1, (table.place {} path).2.rename f g) := by
  rw [place, place, rowOf?_rename injective tells]
  cases table.rowOf? path with
  | some number => rfl
  | none =>
    have size : (table.rename f g).rows.size = table.rows.size := Array.size_map
    have length : (table.paths.map (List.map f)).length = table.rows.size := by simp [paths]
    have fresh : Row.rename f g ({ path, label := none } : Row S I)
        = { path := path.map f, label := none } := by
      simp [Row.rename, Row.inputs, indexOf]
    have rows : (table.rows.push { path, label := none }).map (Row.rename f g)
        = (table.rename f g).rows.push { path := path.map f, label := none } := by
      rw [Array.map_push, fresh]
      rfl
    have byPath : indexOf ((table.paths ++ [path]).map (List.map f))
        = (table.rename f g).byPath.insert (path.map f) (table.rename f g).rows.size := by
      rw [List.map_append, List.map_singleton, indexOf_append, length, size]
      rfl
    refine Prod.ext size ?_
    simp only [rename, paths_push, Options.label]
    rw [byPath]
    exact congrArg (Table.mk · table.start _) rows.symm

theorem placeAll_renamed (injective : Function.Injective f) (tells : table.Tells {} moves)
    (paths : List (Path S)) : (table.rename f g).placeAll {} (paths.map (List.map f))
      = (table.placeAll {} paths).rename f g := by
  induction paths generalizing table with
  | nil => rfl
  | cons path paths ih =>
    obtain ⟨number, after, run, tellsAfter, _⟩ := place_spec tells path
    have placed := place_renamed (g := g) injective tells path
    rw [run] at placed
    simp only [placeAll, List.map_cons, List.foldl_cons, placed, run]
    exact ih tellsAfter

variable [Named I']

theorem add_renamed (injective : Function.Injective f) (injectiveInputs : Function.Injective g)
    (tells : table.Tells {} moves) (m : Move S I) : (table.rename f g).add {} (m.rename f g)
      = Table.rename f g <$> Fault.renameIn f g (table.add {} m) := by
  obtain ⟨next, middle, runTarget, tellsMiddle, _⟩ := place_spec tells m.target
  obtain ⟨number, after, runSource, tellsAfter, _⟩ := place_spec tellsMiddle m.source
  have placed := place_renamed (g := g) injective tells m.target
  have placedToo := place_renamed (g := g) injective tellsMiddle m.source
  rw [runTarget] at placed
  rw [runSource] at placedToo
  have source : (m.rename f g).source = m.source.map f := rfl
  have input : (m.rename f g).input = g m.input := rfl
  have target : (m.rename f g).target = m.target.map f := rfl
  simp only [add, source, target, input, placed, placedToo, runTarget, runSource,
    cell?_rename injectiveInputs tellsAfter]
  cases after.cell? number m.input with
  | some cell => rfl
  | none =>
    let cell : Cell I := ⟨m.input, next, m.action, none⟩
    have rows : (after.rows.modify number (·.push cell)).map (Row.rename f g)
        = (after.rows.map (Row.rename f g)).modify number (·.push (cell.rename g)) :=
      modify_mapped (fun row => row.push_rename cell) after.rows number
    have paths := paths_modify after number cell
    have whole : Table.rename f g { after with rows := after.rows.modify number (·.push cell) }
        = { after.rename f g with
          rows := (after.rename f g).rows.modify number (·.push (cell.rename g)) } := by
      rw [rename, paths, rows]
      rfl
    exact congrArg Except.ok whole.symm

theorem addAll_renamed (injective : Function.Injective f) (injectiveInputs : Function.Injective g)
    (tells : table.Tells {} moves) (more : List (Move S I)) :
    (table.rename f g).addAll {} (more.map (Move.rename f g))
      = Table.rename f g <$> Fault.renameIn f g (table.addAll {} more) := by
  induction more generalizing table moves with
  | nil => rfl
  | cons m more ih =>
    have first := add_renamed injective injectiveInputs tells m
    rw [addAll, List.map_cons, List.foldlM_cons, addAll, List.foldlM_cons, first]
    by_cases fresh : m.key ∈ moves.map Move.key
    · rw [add_repeated tells fresh]
      rfl
    · obtain ⟨after, run, tellsAfter, _⟩ := add_spec tells fresh
      rw [run]
      exact ih tellsAfter

end Table

section Tables

variable [DecidableEq S] [Hashable S] [DecidableEq S'] [Hashable S'] [DecidableEq I] [Hashable I]
  [DecidableEq I'] [Hashable I'] [Named S] [Named I] [Named S'] [Named I']

theorem table_renamed (injective : Function.Injective f) (injectiveInputs : Function.Injective g)
    (chart : Chart S I) (root : Fin chart.size) : (chart.rename f g).table root {}
      = Table.rename f g <$> (chart.table root {}).rename f g := by
  have empty : Table.Tells {} ([] : List (Move S I)) {} := Table.tells_nil
  have filled : ∀ (leaves : List (Leaf S I)) (moves : List (Move S I)),
      Table.addAll {} (Table.placeAll {} {} ((leaves.map (Leaf.rename f g)).map Leaf.path))
          (moves.map (Move.rename f g))
        = Table.rename f g <$> Fault.renameIn f g
          (Table.addAll {} (Table.placeAll {} {} (leaves.map Leaf.path)) moves) := by
    intro leaves moves
    have paths : (leaves.map (Leaf.rename f g)).map Leaf.path
        = (leaves.map Leaf.path).map (List.map f) := by
      rw [List.map_map, List.map_map]
      rfl
    have placed := Table.placeAll_renamed (g := g) injective empty (leaves.map Leaf.path)
    rw [Table.rename_empty] at placed
    rw [paths, placed]
    exact Table.addAll_renamed injective injectiveInputs
      (Table.placeAll_spec empty (leaves.map Leaf.path)).1 moves
  simp only [Chart.table, Chart.check_renamed injective injectiveInputs,
    Chart.leaves_renamed injective, liftM_map_except, bind_map_left,
    allMoves_renamed injective injectiveInputs, filled, Compilation.adapt_bind,
    Compilation.adapt_of_except, map_bind]

end Tables

end Statechart
