import Statechart.Proofs.Building
import Statechart.Proofs.Carrying
import Statechart.Proofs.Coherence
import Statechart.Proofs.Listing

/-!
Labels change nothing else. Each target is compiled with labels and without them. The same hooks are
bound in the same order, and the results are the same once the labels are taken off.
-/
namespace Statechart

def Move.unlabelled {S I : Type} (m : Move S I) : Move S I := { m with label := none }

def Cell.unlabelled {I : Type} (cell : Cell I) : Cell I := { cell with label := none }

def MachineArc.unlabelled {S I : Type} (arc : MachineArc S I) : MachineArc S I :=
  { arc with label := none }

def MachineState.unlabelled {S I : Type} (state : MachineState S I) : MachineState S I :=
  { state with arcs := state.arcs.map MachineArc.unlabelled, label := none }

section Rows

variable {S I : Type} [DecidableEq I] [Hashable I]

def Row.unlabelled (row : Row S I) : Row S I :=
  { row with cells := row.cells.map Cell.unlabelled, label := none }

theorem Row.unlabelled_push (row : Row S I) (cell : Cell I) :
    (row.push cell).unlabelled = row.unlabelled.push cell.unlabelled := by
  simp [Row.push, Row.unlabelled, Cell.unlabelled]

theorem Row.unlabelled_cell? (row : Row S I) (input : I) :
    row.unlabelled.cell? input = (row.cell? input).map Cell.unlabelled := by
  simp only [Row.cell?, Row.unlabelled, Array.getElem?_map]
  cases row.byInput[input]? <;> rfl

theorem Row.unlabelled_modify (rows : Array (Row S I)) (number : Nat) (cell : Cell I) :
    (rows.modify number (·.push cell)).map Row.unlabelled
      = (rows.map Row.unlabelled).modify number (·.push cell.unlabelled) :=
  modify_mapped (fun row => row.unlabelled_push cell) rows number

end Rows

section Results

variable {S I L : Type} [DecidableEq S] [Hashable S]

def Machine.unlabelled (machine : Machine S I) : Machine S I :=
  { machine with states := machine.states.map MachineState.unlabelled }

theorem Machine.unlabelled_ofStates (start : S) (states : List (MachineState S I)) :
    (Machine.ofStates start states).unlabelled
      = Machine.ofStates start (states.map MachineState.unlabelled) := by
  simp only [Machine.ofStates, Machine.unlabelled, List.zipIdx_map, List.foldl_map]
  rfl

def Nested.unlabelled (nested : Nested S I) : Nested S I :=
  { nested with machines := nested.machines.map Machine.unlabelled }

variable [DecidableEq I] [Hashable I]

def Table.unlabelled (table : Table S I) : Table S I :=
  { table with rows := table.rows.map Row.unlabelled }

theorem Table.unlabelled_empty : ({} : Table S I).unlabelled = {} := by
  simp [Table.unlabelled]

theorem Table.unlabelled_cell? (table : Table S I) (number : Nat) (input : I) :
    table.unlabelled.cell? number input = (table.cell? number input).map Cell.unlabelled := by
  simp only [Table.cell?, Table.row?, Table.unlabelled, Array.getElem?_map]
  cases table.rows[number]? with
  | none => rfl
  | some row => exact row.unlabelled_cell? input

end Results

section Steps

variable {S I α β : Type}

theorem liftM_map_except (f : α → β) (x : Except (Fault S I) α) :
    (liftM (f <$> x) : Compilation S I β) = f <$> (liftM x : Compilation S I α) := by
  cases x <;> rfl

theorem liftM_map_state (f : α → β) (x : StateM Journal α) :
    (liftM (f <$> x) : Compilation S I β) = f <$> (liftM x : Compilation S I α) := rfl

end Steps

section Moves

variable {S I : Type} [DecidableEq S] [Hashable S] [Named S] [Named I]

theorem move_unlabelled (index : Std.HashMap (Path S) (Leaf S I)) (options : Options)
    (leaf : Leaf S I) (exits : List Action) (c : Candidate S I) :
    leaf.move index {} exits c = Move.unlabelled <$> leaf.move index options exits c := by
  unfold Leaf.move
  split
  · rfl
  · simp [Move.unlabelled, Options.label]

variable [DecidableEq I] [Hashable I]

theorem allMoves_unlabelled (leaves : List (Leaf S I)) (options : Options) :
    Leaf.allMoves leaves {} = List.map Move.unlabelled <$> Leaf.allMoves leaves options := by
  have each : ∀ leaf ∈ leaves, leaf.moves (Leaf.byPath leaves) {}
      = List.map Move.unlabelled <$> leaf.moves (Leaf.byPath leaves) options := by
    intro leaf _
    have own : ∀ exits (winners : List (Candidate S I)),
        winners.mapM (leaf.move (Leaf.byPath leaves) {} exits) = List.map Move.unlabelled <$>
          winners.mapM (leaf.move (Leaf.byPath leaves) options exits) :=
      fun exits _ => mapM_erased fun c _ => move_unlabelled _ options leaf exits c
    simp only [Leaf.moves, own, map_bind]
  simp only [Leaf.allMoves, mapM_erased each, bind_map_left, map_bind, map_pure, List.map_flatten]

theorem moves_unlabelled (chart : Chart S I) (root : Fin chart.size) (options : Options) :
    chart.moves root {} = List.map Move.unlabelled <$> chart.moves root options := by
  simp only [Chart.moves, allMoves_unlabelled _ options, map_bind]

end Moves

section Tables

variable {S I : Type} [DecidableEq S] [Hashable S] [DecidableEq I] [Hashable I] [Named S]

theorem place_unlabelled (options : Options) (table : Table S I) (path : Path S) :
    table.unlabelled.place {} path
      = ((table.place options path).1, (table.place options path).2.unlabelled) := by
  unfold Table.place
  have same : table.unlabelled.rowOf? path = table.rowOf? path := rfl
  rw [same]
  cases table.rowOf? path with
  | some number => rfl
  | none => simp [Table.unlabelled, Row.unlabelled, Options.label]

theorem placeAll_unlabelled (options : Options) (table : Table S I) (paths : List (Path S)) :
    table.unlabelled.placeAll {} paths = (table.placeAll options paths).unlabelled := by
  induction paths generalizing table with
  | nil => rfl
  | cons path paths ih =>
    simp only [Table.placeAll, List.foldl_cons, place_unlabelled options]
    exact ih _

variable [Named I]

theorem add_unlabelled (options : Options) (table : Table S I) (m : Move S I) :
    table.unlabelled.add {} m.unlabelled = Table.unlabelled <$> table.add options m := by
  have source : m.unlabelled.source = m.source := rfl
  have input : m.unlabelled.input = m.input := rfl
  have target : m.unlabelled.target = m.target := rfl
  simp only [Table.add, source, target, input, place_unlabelled options, Table.unlabelled_cell?]
  generalize table.place options m.target = first
  generalize first.2.place options m.source = second
  cases second.2.cell? second.1 m.input with
  | some cell => rfl
  | none =>
    have rows := Row.unlabelled_modify second.2.rows second.1
      ⟨m.input, first.1, m.action, options.label (m.source.arrow m.input m.target)⟩
    exact congrArg Except.ok (congrArg (Table.mk · _ _) rows.symm)

theorem addAll_unlabelled (options : Options) (table : Table S I) (moves : List (Move S I)) :
    table.unlabelled.addAll {} (moves.map Move.unlabelled)
      = Table.unlabelled <$> table.addAll options moves := by
  induction moves generalizing table with
  | nil => rfl
  | cons m moves ih =>
    simp only [Table.addAll, List.map_cons, List.foldlM_cons, add_unlabelled options, bind_map_left,
      map_bind]
    exact bind_congr fun after => ih after

theorem filled_unlabelled (options : Options) (paths : List (Path S)) (moves : List (Move S I)) :
    Table.addAll {} (Table.placeAll {} {} paths) (moves.map Move.unlabelled)
      = Table.unlabelled <$> Table.addAll options (Table.placeAll options {} paths) moves := by
  rw [← addAll_unlabelled, ← placeAll_unlabelled, Table.unlabelled_empty]

theorem ofMoves_unlabelled (start : Path S) (moves : List (Move S I)) (options : Options) :
    Table.ofMoves start moves {} = Table.unlabelled <$> Table.ofMoves start moves options := by
  have sources : (moves.map Move.unlabelled).map Move.source = moves.map Move.source := by
    rw [List.map_map]
    rfl
  calc Table.ofMoves start moves {}
      = Table.ofMoves start (moves.map Move.unlabelled) {} :=
        (Table.ofMoves_relabelled start moves {} fun _ => none).symm
    _ = Table.unlabelled <$> Table.ofMoves start moves options := by
        rw [Table.ofMoves, sources]
        exact filled_unlabelled options _ moves

theorem table_unlabelled (chart : Chart S I) (root : Fin chart.size) (options : Options) :
    chart.table root {} = Table.unlabelled <$> chart.table root options := by
  simp only [Chart.table, allMoves_unlabelled _ options, map_bind, bind_map_left,
    filled_unlabelled options, liftM_map_except]

end Tables

section Machines

variable {S I L : Type} [Named S] [Named I]

theorem transition_bind_unlabelled (options : Options) (source : S) (t : Transition S I) :
    t.bind {} source = MachineArc.unlabelled <$> t.bind options source := by
  simp [Transition.bind, MachineArc.unlabelled, Options.label]

theorem state_bind_unlabelled (options : Options) (machineOf : L → Except (Fault S I) Nat)
    (state : State S I L) :
    state.bind {} machineOf = MachineState.unlabelled <$> state.bind options machineOf := by
  have arcs : state.transitions.mapM (Transition.bind {} state.symbol)
      = List.map MachineArc.unlabelled <$>
        state.transitions.mapM (Transition.bind options state.symbol) :=
    mapM_erased fun t _ => transition_bind_unlabelled options state.symbol t
  simp only [State.bind, arcs, liftM_map_state, bind_map_left, map_bind, map_pure]
  rfl

variable [DecidableEq S] [Hashable S]

theorem level_bind_unlabelled (options : Options) (machineOf : L → Except (Fault S I) Nat)
    (level : Level S I L) :
    level.bind {} machineOf = Machine.unlabelled <$> level.bind options machineOf := by
  have states : level.states.mapM (State.bind {} machineOf) = List.map MachineState.unlabelled <$>
      level.states.mapM (State.bind options machineOf) :=
    mapM_erased fun state _ => state_bind_unlabelled options machineOf state
  simp only [Level.bind, states, bind_map_left, map_bind, map_pure, Machine.unlabelled_ofStates]

theorem exchanged_unlabelled (chart : Chart S I) (options : Options) :
    chart.Exchanged options chart.level id Machine.unlabelled where
  inners _ := rfl
  cyclic _ := rfl
  bind machineOf number := by
    simp only [mapError_id, Compilation.adapt_id]
    exact level_bind_unlabelled options machineOf (chart.level number)

theorem nested_unlabelled [DecidableEq I] (chart : Chart S I) (root : Fin chart.size)
    (options : Options) :
    chart.nested root {} = Nested.unlabelled <$> chart.nested root options := by
  have carried := Chart.nested_carried (exchanged_unlabelled chart options)
    (mapError_id (chart.check root)).symm
  rwa [Compilation.adapt_id] at carried

end Machines

section Labelled

variable {S I : Type} [DecidableEq S] [Hashable S]

def Table.Unlabelled [DecidableEq I] [Hashable I] (table : Table S I) : Prop :=
  ∀ row ∈ table.rows.toList, row.label = none ∧ ∀ cell ∈ row.cells.toList, cell.label = none

def Nested.Unlabelled (nested : Nested S I) : Prop :=
  ∀ machine ∈ nested.machines.toList, ∀ state ∈ machine.states,
    state.label = none ∧ ∀ arc ∈ state.arcs, arc.label = none

theorem table_without_labels [DecidableEq I] [Hashable I] (table : Table S I) :
    table.unlabelled.Unlabelled := by
  simp [Table.Unlabelled, Table.unlabelled, Row.unlabelled, Cell.unlabelled]

theorem nested_without_labels (nested : Nested S I) : nested.unlabelled.Unlabelled := by
  simp [Nested.Unlabelled, Nested.unlabelled, Machine.unlabelled, MachineState.unlabelled,
    MachineArc.unlabelled]

variable [Named S] [Named I]

def Move.Labelled (m : Move S I) : Prop :=
  m.label = some (".".intercalate (m.source.map Named.name) ++ " -- " ++ Named.name m.input
    ++ " --> " ++ ".".intercalate (m.target.map Named.name))

/-- Rows are labelled with their paths, and cells with the path of the row they are in, their input
and the path of the row they lead to. -/
def Table.Labelled [DecidableEq I] [Hashable I] (table : Table S I) : Prop :=
  ∀ row ∈ table.rows.toList, row.label = some (".".intercalate (row.path.map Named.name)) ∧
    ∀ cell ∈ row.cells.toList, ∃ target, table.rows[cell.next]? = some target ∧
      cell.label = some (".".intercalate (row.path.map Named.name) ++ " -- "
        ++ Named.name cell.input ++ " --> " ++ ".".intercalate (target.path.map Named.name))

def Nested.Labelled (nested : Nested S I) : Prop :=
  ∀ machine ∈ nested.machines.toList, ∀ state ∈ machine.states,
    state.label = some (Named.name state.symbol) ∧ ∀ arc ∈ state.arcs,
      arc.label = some (Named.name state.symbol ++ " -- " ++ Named.name arc.input ++ " --> "
        ++ Named.name arc.target)

theorem table_labelled [DecidableEq I] [Hashable I] {table : Table S I} {moves : List (Move S I)}
    (tells : table.Tells { labelled := true } moves) : table.Labelled := by
  intro row member
  obtain ⟨k, here⟩ := List.mem_iff_getElem?.mp member
  rw [Array.getElem?_toList] at here
  refine ⟨tells.labels k row here, fun cell among => ?_⟩
  obtain ⟨m, memberMove, told⟩ := forall₂_mem_right (tells.cells k row here) among
  have source : m.source = row.path := by simpa using (List.mem_filter.mp memberMove).2
  obtain ⟨target, there, path⟩ := (Table.rowOf?_iff tells).mp told.next
  refine ⟨target, there, ?_⟩
  rw [told.label, told.input, source, ← path]
  rfl

theorem nested_labelled {chart : Chart S I} {root : Fin chart.size}
    {workshop : Workshop S I (Fin chart.size)} {nested : Nested S I}
    (built : chart.NestedFrom root { labelled := true } workshop nested) : nested.Labelled := by
  intro machine member
  rw [built.machines] at member
  obtain ⟨entry, among, rfl⟩ := List.mem_map.mp member
  have mirrors := built.stocked.mirrors entry among
  intro bound memberBound
  obtain ⟨state, _, mirror⟩ := forall₂_mem_right mirrors.states memberBound
  refine ⟨mirror.symbol ▸ mirror.label, fun arc memberArc => ?_⟩
  obtain ⟨t, _, related⟩ := forall₂_mem_right mirror.arcs memberArc
  rw [related.label, related.input, related.target, mirror.symbol]
  rfl

end Labelled

/-- Whatever was bound before, the compilation with labels and the one without them bind the same
and end in the same fault, or in results of which one is the other less its labels. All labels are
there in the one, and none in the other. -/
def Compilation.DiffersInLabels {S I α : Type} (compile : Options → Compilation S I α)
    (erase : α → α) (Labelled Unlabelled : α → Prop) : Prop :=
  ∀ journal, match (compile { labelled := true }).run journal with
    | (.ok result, after) =>
      (compile { labelled := false }).run journal = (.ok (erase result), after) ∧
        Labelled result ∧ Unlabelled (erase result)
    | (.error fault, after) =>
      (compile { labelled := false }).run journal = (.error fault, after)

theorem differs_of_erased {S I α : Type} {compile : Options → Compilation S I α} {erase : α → α}
    {Labelled Unlabelled : α → Prop}
    (erased : compile { labelled := false } = erase <$> compile { labelled := true })
    (labelled : ∀ journal after result,
      (compile { labelled := true }).run journal = (.ok result, after) → Labelled result)
    (unlabelled : ∀ result, Unlabelled (erase result)) :
    Compilation.DiffersInLabels compile erase Labelled Unlabelled := by
  intro journal
  have run : (erase <$> compile { labelled := true }).run journal
      = match (compile { labelled := true }).run journal with
        | (.ok result, after) => (.ok (erase result), after)
        | (.error fault, after) => (.error fault, after) := by
    rw [← bind_pure_comp, Compilation.run_bind]
    rfl
  rw [← erased] at run
  cases outcome : (compile { labelled := true }).run journal with
  | mk result after =>
    rw [outcome] at run
    cases result with
    | ok result => exact ⟨run, labelled journal after result outcome, unlabelled result⟩
    | error fault => exact run

namespace Chart

variable {S I : Type} [DecidableEq S] [Hashable S] [DecidableEq I] [Hashable I] [Named S] [Named I]

open Compilation

/-- Of any chart, checked or not, and of any moves, the compilations with labels and without them
are the same in everything but the labels. -/
theorem labels_change_nothing_else (chart : Chart S I) (root : Fin chart.size) (start : Path S)
    (moves : List (Move S I)) :
    DiffersInLabels (chart.moves root) (List.map Move.unlabelled)
      (fun moves => ∀ m ∈ moves, m.Labelled) (fun moves => ∀ m ∈ moves, m.label = none) ∧
    DiffersInLabels (chart.table root) Table.unlabelled Table.Labelled Table.Unlabelled ∧
    DiffersInLabels (chart.nested root) Nested.unlabelled Nested.Labelled Nested.Unlabelled ∧
    DiffersInLabels (fun options => (liftM (Table.ofMoves start moves options) :
      Compilation S I (Table S I))) Table.unlabelled Table.Labelled Table.Unlabelled := by
  refine ⟨?_, ?_, ?_, ?_⟩
  · refine differs_of_erased (moves_unlabelled chart root _) (fun journal after made run => ?_)
      (by simp [Move.unlabelled])
    obtain ⟨_, accepted⟩ := ok_of_run run
    exact labels_of_moves (check_ok_iff.mp accepted) (holds_of_makes (moves_makes accepted _) run)
  · refine differs_of_erased (table_unlabelled chart root _) (fun journal after table run => ?_)
      table_without_labels
    obtain ⟨_, tabled⟩ := holds_of_makes (table_makes (accepted_of_table run) _) run
    exact table_labelled tabled.tells
  · refine differs_of_erased (nested_unlabelled chart root _) (fun journal after _ run => ?_)
      nested_without_labels
    obtain ⟨_, accepted⟩ := ok_of_run run
    obtain ⟨workshop, built⟩ := holds_of_makes (nested_makes accepted _) run
    exact nested_labelled built
  · have erased : (liftM (Table.ofMoves start moves { labelled := false }) : Compilation S I _)
        = Table.unlabelled <$> liftM (Table.ofMoves start moves { labelled := true }) := by
      rw [ofMoves_unlabelled, liftM_map_except]
    refine differs_of_erased erased (fun journal after table run => ?_) table_without_labels
    have made : Table.ofMoves start moves { labelled := true } = .ok table := by
      rw [run_of_except] at run
      exact congrArg Prod.fst run
    exact table_labelled (Table.assembled_of_ofMoves made).tells

end Chart
end Statechart
