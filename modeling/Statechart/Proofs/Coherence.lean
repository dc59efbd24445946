import Statechart.Layout
import Statechart.Proofs.Assembly
import Statechart.Proofs.Driving

/-!
Coherent tables. In a table that was made of moves or of a chart, rows are found by their paths and
cells by their inputs, and no cell leads out of the table. So no inputs drive it out of its rows,
and its layout has no fault.
-/
namespace Statechart

namespace Layout

variable {S I : Type}

theorem firstMissing?_eq_none_iff {size number : Nat} {rows : List (RowLayout S I)} :
    firstMissing? size number rows = none ↔ ∀ row ∈ rows, ∀ cell ∈ row.cells, cell.next < size := by
  induction rows generalizing number with
  | nil => simp [firstMissing?]
  | cons row rest ih =>
    rw [firstMissing?, List.forall_mem_cons]
    cases found : row.cells.find? fun cell => size ≤ cell.next with
    | none =>
      have inside : ∀ cell ∈ row.cells, cell.next < size := by
        simpa using List.find?_eq_none.mp found
      exact ih.trans ⟨fun others => ⟨inside, others⟩, fun all => all.2⟩
    | some cell =>
      have member := List.mem_of_find?_eq_some found
      have outside : size ≤ cell.next := by simpa using List.find?_some found
      constructor
      · intro none
        cases none
      · intro all
        exact absurd (all.1 cell member) (Nat.not_lt.mpr outside)

end Layout

variable {S I : Type} [DecidableEq S] [Hashable S] [DecidableEq I] [Hashable I]

namespace Table

/-- What holds of a table as it stands, without the moves it was made of: it starts in its first
row, which is that of the given path. -/
structure Coherent (start : Path S) (table : Table S I) : Prop where
  distinct : table.paths.Nodup
  rows : ∀ path k, table.rowOf? path = some k ↔
    k < table.size ∧ ∃ row, table.row? k = some row ∧ row.path = path
  zero : table.start = 0 ∧ 0 < table.size
  first : ∃ row, table.row? 0 = some row ∧ row.path = start
  inputs : ∀ k row, table.row? k = some row → row.inputs.Nodup
  cells : ∀ k input cell, table.cell? k input = some cell ↔
    ∃ row, table.row? k = some row ∧ cell ∈ row.cells.toList ∧ cell.input = input
  next : ∀ k row, table.row? k = some row → ∀ cell ∈ row.cells.toList, cell.next < table.size

/-- The table can be relied on: it is coherent, stays so under all inputs and shows it. -/
structure Reliable (start : Path S) (table : Table S I) : Prop where
  coherent : table.Coherent start
  layout : table.layout.fault? = none
  driven : ∀ inputs, ∃ seen, table.driver.view inputs = some (start, seen)

variable {start : Path S} {table : Table S I}

theorem row?_of_lt {k : Nat} (inside : k < table.size) : ∃ row, table.row? k = some row :=
  ⟨_, Array.getElem?_eq_getElem inside⟩

theorem lt_of_row? {k : Nat} {row : Row S I} (here : table.row? k = some row) : k < table.size :=
  (Array.getElem?_eq_some_iff.mp here).1

theorem row?_of_path {path : Path S} {k : Nat} (here : table.paths[k]? = some path) :
    ∃ row, table.row? k = some row ∧ row.path = path := by
  rw [paths_getElem?, Option.map_eq_some_iff] at here
  exact here

theorem rowOf?_start (coherent : table.Coherent start) : table.rowOf? start = some table.start :=
  (coherent.rows start table.start).mpr
    (coherent.zero.1 ▸ ⟨coherent.zero.2, coherent.first⟩)

theorem cell?_next_lt (coherent : table.Coherent start) {k : Nat} {input : I} {cell : Cell I}
    (found : table.cell? k input = some cell) : cell.next < table.size := by
  obtain ⟨row, here, member, _⟩ := (coherent.cells k input cell).mp found
  exact coherent.next k row here cell member

theorem driver_stays (coherent : table.Coherent start) :
    table.driver.Matches table.driver (fun k j => k = j ∧ k < table.size) (· ∈ table.paths) := by
  constructor
  · exact ⟨table.start, table.start, rfl, rfl, rfl, coherent.zero.1 ▸ coherent.zero.2⟩
  · rintro k _ ⟨rfl, inside⟩
    obtain ⟨row, here⟩ := row?_of_lt inside
    exact ⟨row.path, path_mem here, by simp [driver, here], by simp [driver, here]⟩
  · rintro k _ ⟨rfl, inside⟩ input
    cases found : table.cell? k input with
    | none => exact Or.inl ⟨by simp [driver, found], by simp [driver, found]⟩
    | some cell =>
      refine Or.inr ⟨cell.next, cell.next, cell.action.run, cell.action.run, ?_, ?_, ?_, rfl⟩
      · simp [driver, found]
      · simp [driver, found]
      · exact ⟨rfl, cell?_next_lt coherent found⟩

theorem driven_of_coherent (coherent : table.Coherent start) (inputs : List I) :
    ∃ seen, table.driver.view inputs = some (start, seen) := by
  obtain ⟨row, here, path⟩ := coherent.first
  have inside : table.start < table.size := coherent.zero.1 ▸ coherent.zero.2
  obtain ⟨seen, run, _⟩ :=
    Driver.watch_of_matches (driver_stays coherent) inputs _ _ ⟨rfl, inside⟩
  have shown : table.driver.path table.start = some start := by
    simp [driver, coherent.zero.1, here, path]
  have begins : table.driver.start = some table.start := rfl
  exact ⟨seen, by simp [Driver.view, begins, shown, run]⟩

theorem layout_of_coherent (coherent : table.Coherent start) : table.layout.fault? = none := by
  have length : table.layout.rows.length = table.size := by simp [layout, size]
  have bound : ¬ (0 < table.layout.rows.length ∧
      table.layout.rows.length ≤ table.layout.start) := by
    have begins : table.layout.start = 0 := coherent.zero.1
    omega
  have version : ¬ table.layout.version ≠ layoutVersion := not_not_intro rfl
  rw [Layout.fault?, if_neg version, if_neg bound, length, Layout.firstMissing?_eq_none_iff]
  simp only [layout, List.forall_mem_map, Row.layout, Cell.layout]
  intro row member cell among
  obtain ⟨k, here⟩ := List.mem_iff_getElem?.mp member
  rw [Array.getElem?_toList] at here
  exact coherent.next k row here cell among

theorem reliable_of_coherent (coherent : table.Coherent start) : table.Reliable start :=
  ⟨coherent, layout_of_coherent coherent, driven_of_coherent coherent⟩

variable [Named S] [Named I] {options : Options} {moves : List (Move S I)}

theorem coherent_of_tells (tells : table.Tells options moves) (zero : table.start = 0)
    (first : table.paths[0]? = some start) : table.Coherent start := by
  obtain ⟨row, here, path⟩ := row?_of_path first
  constructor
  · exact tells.paths.nodup
  · intro path k
    rw [rowOf?_iff tells]
    exact ⟨fun ⟨row, here, same⟩ => ⟨lt_of_row? here, row, here, same⟩, fun found => found.2⟩
  · exact ⟨zero, lt_of_row? here⟩
  · exact ⟨row, here, path⟩
  · exact fun k row here => (tells.inputs k row here).nodup
  · intro k input cell
    simp only [cell?, Option.bind_eq_bind, Option.bind_eq_some_iff]
    refine exists_congr fun row => and_congr_right fun here => ?_
    exact Row.cell?_iff (tells.inputs k row here)
  · intro k row here cell member
    obtain ⟨m, _, told⟩ := forall₂_mem_right (tells.cells k row here) member
    obtain ⟨target, there, _⟩ := (rowOf?_iff tells).mp told.next
    exact lt_of_row? there

theorem coherent_of_ofMoves (made : ofMoves start moves options = .ok table) :
    table.Coherent start := by
  have assembled := assembled_of_ofMoves made
  refine coherent_of_tells assembled.tells assembled.start ?_
  rw [assembled.paths, List.cons_append, List.eraseDups_cons]
  rfl

end Table

namespace Chart

variable [Named S] [Named I] {chart : Chart S I} {root : Fin chart.size} {options : Options}

theorem initial_of_tabled (wellformed : chart.Wellformed root) {moves : List (Move S I)}
    {table : Table S I} (tabled : chart.TabledFrom root options moves table) :
    ∃ start, chart.initial root = .ok start ∧ table.paths[0]? = some start := by
  obtain ⟨trail, others, first, lands⟩ := trails_head wellformed (clear_nil root)
  refine ⟨trail.path, landing_of_lands wellformed lands, ?_⟩
  rw [tabled.paths, first]
  rfl

theorem accepted_of_table {journal after : Journal} {table : Table S I}
    (made : (chart.table root options).run journal = (.ok table, after)) :
    chart.check root = .ok () := by
  obtain ⟨_, accepted⟩ := Compilation.ok_of_run made
  exact accepted

/-- Whatever moves a table is made of, and whatever chart, it is coherent: it never sends a machine
to a row that it does not have, under no inputs, and its layout passes the check of layouts. -/
theorem made_tables_are_reliable (options : Options) :
    (∀ (start : Path S) (moves : List (Move S I)) table,
      Table.ofMoves start moves options = .ok table → table.Reliable start) ∧
    ∀ (chart : Chart S I) root journal after table,
      (chart.table root options).run journal = (.ok table, after) →
        ∃ start, chart.initial root = .ok start ∧ table.Reliable start := by
  constructor
  · intro start moves table made
    exact Table.reliable_of_coherent (Table.coherent_of_ofMoves made)
  · intro chart root journal after table made
    have accepted := accepted_of_table made
    obtain ⟨moves, tabled⟩ := Compilation.holds_of_makes (table_makes accepted options) made
    obtain ⟨start, initial, first⟩ := initial_of_tabled (check_ok_iff.mp accepted) tabled
    have coherent := Table.coherent_of_tells tabled.tells tabled.start first
    exact ⟨start, initial, Table.reliable_of_coherent coherent⟩

theorem stroll_and_lamp_are_reliable :
    (∃ table, Table.ofMoves ["door"] Table.stroll {} = .ok table ∧ table.Reliable ["door"]) ∧
    ∃ table after, (lamp.table lampRoot {}).run {} = (.ok table, after) ∧
      ∃ start, lamp.initial lampRoot = .ok start ∧ table.Reliable start := by
  constructor
  · have distinct : (Table.stroll.map Move.key).Nodup := by decide
    obtain ⟨table, made, _⟩ := Table.ofMoves_of_distinct ["door"] {} distinct
    exact ⟨table, made, (made_tables_are_reliable {}).1 _ _ _ made⟩
  · obtain ⟨table, after, made, _⟩ := table_makes lamp_accepted {} {}
    exact ⟨table, after, made, (made_tables_are_reliable {}).2 _ _ _ _ _ made⟩

end Chart
end Statechart
