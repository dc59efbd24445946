import Statechart.Proofs.Tabulation

/-!
Listing a table. Read row by row and cell by cell, a table gives back the moves that it tells, those
from its first row first. The moves of a chart come in that order already, so the table of a chart
lists them as they are.
-/
namespace Statechart

/-- What there is to see of a move, in whatever form it is kept: the last field is what the action
does to a journal. A cell that leads to a missing row has no target. -/
structure Line (S I : Type) where
  source : Path S
  input : I
  target : Option (Path S)
  label : Option String
  step : Journal → Journal

def Move.line {S I : Type} (m : Move S I) : Line S I :=
  ⟨m.source, m.input, some m.target, m.label, m.action.run⟩

section Groups

variable {α κ : Type} [DecidableEq κ]

theorem flatMap_filter_of_grouped (keyOf : α → κ) {keys : List κ} {groups : List (List α)}
    (grouped : List.Forall₂ (fun key group => ∀ a ∈ group, keyOf a = key) keys groups)
    (distinct : keys.Nodup) :
    (keys.flatMap fun key => groups.flatten.filter fun a => keyOf a = key) = groups.flatten := by
  induction grouped with
  | nil => rfl
  | @cons key group keys groups here others ih =>
    rw [List.nodup_cons] at distinct
    have elsewhere : ∀ a ∈ groups.flatten, keyOf a ∈ keys := by
      intro a member
      obtain ⟨other, memberGroup, memberOther⟩ := List.mem_flatten.mp member
      obtain ⟨otherKey, memberKey, each⟩ := forall₂_mem_right others memberGroup
      exact each a memberOther ▸ memberKey
    have own : (group ++ groups.flatten).filter (fun a => keyOf a = key) = group := by
      have all : group.filter (fun a => keyOf a = key) = group :=
        List.filter_eq_self.mpr fun a member => decide_eq_true (here a member)
      have none : groups.flatten.filter (fun a => keyOf a = key) = [] :=
        List.filter_eq_nil_iff.mpr fun a member same =>
          distinct.1 (of_decide_eq_true same ▸ elsewhere a member)
      rw [List.filter_append, all, none, List.append_nil]
    have rest : ∀ other ∈ keys, (group ++ groups.flatten).filter (fun a => keyOf a = other)
        = groups.flatten.filter fun a => keyOf a = other := by
      intro other member
      have none : group.filter (fun a => keyOf a = other) = [] :=
        List.filter_eq_nil_iff.mpr fun a among same =>
          distinct.1 ((here a among).symm.trans (of_decide_eq_true same) ▸ member)
      rw [List.filter_append, none, List.nil_append]
    rw [List.flatten_cons, List.flatMap_cons, own, List.flatMap_congr rest, ih distinct.2]

end Groups

variable {S I : Type} [DecidableEq S] [Hashable S] [DecidableEq I] [Hashable I]

namespace Table

def line (table : Table S I) (row : Row S I) (cell : Cell I) : Line S I :=
  ⟨row.path, cell.input, (table.row? cell.next).map Row.path, cell.label, cell.action.run⟩

def lines (table : Table S I) : List (Line S I) :=
  table.rows.toList.flatMap fun row => row.cells.toList.map (table.line row)

variable [Named S] [Named I] {options : Options} {moves : List (Move S I)} {table : Table S I}

theorem line_of_cellOf (tells : table.Tells options moves) {row : Row S I} {m : Move S I}
    {cell : Cell I} (source : m.source = row.path)
    (labelled : m.label = options.label (m.source.arrow m.input m.target))
    (told : CellOf options table m cell) : m.line = table.line row cell := by
  obtain ⟨target, there, path⟩ := (rowOf?_iff tells).mp told.next
  rw [Move.line, line, told.input, told.action, told.label, labelled, source, row?, there, ← path]
  rfl

theorem lines_of_tells (tells : table.Tells options moves)
    (labelled : ∀ m ∈ moves, m.label = options.label (m.source.arrow m.input m.target)) :
    table.lines
      = (table.paths.flatMap fun path => moves.filter fun m => m.source = path).map Move.line := by
  rw [paths, List.flatMap_map, List.map_flatMap, lines]
  apply List.flatMap_congr
  intro row member
  obtain ⟨k, here⟩ := List.mem_iff_getElem?.mp member
  rw [Array.getElem?_toList] at here
  have known : ∀ m ∈ moves.filter fun m => m.source = row.path, m ∈ moves ∧ m.source = row.path :=
    fun m among => by simpa using List.mem_filter.mp among
  have told := (List.forall₂_and_left _ _).mpr ⟨known, tells.cells k row here⟩
  symm
  apply map_eq_of_forall₂
  refine told.imp ?_
  rintro m cell ⟨⟨among, source⟩, told⟩
  exact line_of_cellOf tells source (labelled m among) told

end Table

namespace Chart

variable [Named S] [Named I] {chart : Chart S I} {root : Fin chart.size} {options : Options}

omit [Hashable S] [DecidableEq I] [Hashable I] in
theorem moves_in_order (wellformed : chart.Wellformed root) {moves : List (Move S I)}
    (made : chart.MovesFrom root options moves) :
    (((chart.trails [] root).map Trail.path).flatMap fun path =>
      moves.filter fun m => m.source = path) = moves := by
  obtain ⟨parts, rfl, along⟩ := made
  have distinct := trails_paths_nodup wellformed (clear_nil root)
  refine flatMap_filter_of_grouped Move.source ?_ distinct
  rw [List.forall₂_map_left_iff]
  refine along.imp fun trail part each m member => ?_
  obtain ⟨_, _, carries⟩ := each.carries m member
  exact carries.source

omit [Hashable S] [DecidableEq I] [Hashable I] in
theorem labels_of_moves (wellformed : chart.Wellformed root) {moves : List (Move S I)}
    (made : chart.MovesFrom root options moves) :
    ∀ m ∈ moves, m.label = options.label (m.source.arrow m.input m.target) := by
  intro m member
  obtain ⟨_, _, _, _, carries⟩ := trail_of_move wellformed made member
  rw [carries.label, carries.source, carries.target]

/-- Compiled from one journal, the moves and the table of a checked chart bind the same hooks. The
table has the leaves as its rows, in the order of unrolling, and lists exactly the moves. -/
theorem table_lists_moves (chart : Chart S I) (root : Fin chart.size) (options : Options)
    (journal : Journal) (accepted : chart.check root = .ok ()) :
    ∃ leaves moves table after, chart.leaves root = .ok leaves ∧
      (chart.moves root options).run journal = (.ok moves, after) ∧
      (chart.table root options).run journal = (.ok table, after) ∧
      table.paths = leaves.map Leaf.path ∧ table.lines = moves.map Move.line := by
  have wellformed := check_ok_iff.mp accepted
  obtain ⟨leaves, unrolled, records⟩ := leaves_records wellformed
  obtain ⟨moves, table, after, run, runTable, tabled⟩ := table_run accepted options journal
  refine ⟨leaves, moves, table, after, unrolled, run, runTable, ?_, ?_⟩
  · rw [tabled.paths, paths_of_records records]
  · rw [Table.lines_of_tells tabled.tells (labels_of_moves wellformed tabled.made), tabled.paths,
      moves_in_order wellformed tabled.made]

def house : Chart String String where
  size := 2
  level number :=
    if number.val = 0 then {
      start := "east"
      states := [
        { symbol := "west", inner := some ⟨1, by decide⟩,
          transitions := [⟨"cross", "east", some (.lazy 0 "ring")⟩] },
        { symbol := "east", entry := some (.lazy 0 "ring"), inner := some ⟨1, by decide⟩,
          transitions := [⟨"cross", "west", none⟩] }] }
    else {
      start := "dark"
      states := [
        { symbol := "dark", transitions := [⟨"switch", "light", none⟩] },
        { symbol := "light", exit := some (.fixed "click"),
          transitions := [⟨"switch", "dark", none⟩] }] }

def houseRoot : Fin house.size := ⟨0, by decide⟩

theorem house_lists_moves : house.check houseRoot = .ok () ∧ ∃ moves table after,
    (house.moves houseRoot { labelled := true }).run {} = (.ok moves, after) ∧
    (house.table houseRoot { labelled := true }).run {} = (.ok table, after) ∧
    table.paths = [["east", "dark"], ["east", "light"], ["west", "dark"], ["west", "light"]] ∧
    table.lines = moves.map Move.line := by
  have accepted : house.check houseRoot = .ok () := by cbv
  obtain ⟨leaves, moves, table, after, unrolled, run, runTable, paths, lines⟩ :=
    table_lists_moves house houseRoot { labelled := true } {} accepted
  have named : (house.leaves houseRoot).map (List.map Leaf.path)
      = .ok [["east", "dark"], ["east", "light"], ["west", "dark"], ["west", "light"]] := by cbv
  rw [unrolled] at named
  exact ⟨accepted, moves, table, after, run, runTable, paths.trans (Except.ok.inj named), lines⟩

end Chart
end Statechart
