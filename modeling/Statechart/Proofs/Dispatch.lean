import Mathlib
import Statechart.Proofs.Coherence

/-!
Layouts and dispatch. A table answers through its indexes, which its layout leaves out. What the
indexes of a coherent table find can be read off the layout, though. So tables with one layout give
one answer to each question and go the same way under all inputs, whatever their actions do.
-/
namespace Statechart

variable {S I : Type} [DecidableEq S] [Hashable S] [DecidableEq I] [Hashable I]

namespace Table

/-- The row that an input leads to. An input that is ignored leads nowhere else. -/
def turn (table : Table S I) (number : Nat) (input : I) : Nat :=
  ((table.cell? number input).map Cell.next).getD number

def rowAfter (table : Table S I) (inputs : List I) : Nat := inputs.foldl table.turn table.start

def Ignores (table : Table S I) (inputs : List I) (input : I) : Prop :=
  table.cell? (table.rowAfter inputs) input = none

/-- Both tables answer alike, whatever they are asked, and stand in the same row after all inputs;
nothing is said of their actions. -/
structure Agrees (first second : Table S I) : Prop where
  places : ∀ path, first.rowOf? path = second.rowOf? path
  rows : ∀ number, (first.row? number).map Row.layout = (second.row? number).map Row.layout
  cells : ∀ number input,
    (first.cell? number input).map Cell.layout = (second.cell? number input).map Cell.layout
  ignored : ∀ inputs input, first.Ignores inputs input ↔ second.Ignores inputs input
  numbers : ∀ inputs, first.rowAfter inputs = second.rowAfter inputs
  shown : ∀ inputs, ∃ row other, first.row? (first.rowAfter inputs) = some row ∧
    second.row? (second.rowAfter inputs) = some other ∧ row.path = other.path ∧
    row.label = other.label

variable {start otherStart : Path S} {table first second : Table S I}

theorem layout_row (table : Table S I) (number : Nat) :
    table.layout.rows[number]? = (table.row? number).map Row.layout := by
  simp [layout, row?]

theorem rowOf?_iff_layout (coherent : table.Coherent start) {path : Path S} {number : Nat} :
    table.rowOf? path = some number ↔
      ∃ row, table.layout.rows[number]? = some row ∧ row.path = path := by
  rw [coherent.rows, layout_row]
  constructor
  · rintro ⟨_, row, here, named⟩
    exact ⟨row.layout, by rw [here, Option.map_some], named⟩
  · rintro ⟨_, here, named⟩
    obtain ⟨row, there, rfl⟩ := Option.map_eq_some_iff.mp here
    exact ⟨lt_of_row? there, row, there, named⟩

theorem cell?_iff_layout (coherent : table.Coherent start) {number : Nat} {input : I}
    {cell : CellLayout I} : (table.cell? number input).map Cell.layout = some cell ↔
      ∃ row, table.layout.rows[number]? = some row ∧ cell ∈ row.cells ∧ cell.input = input := by
  simp only [Option.map_eq_some_iff, coherent.cells, layout_row]
  constructor
  · rintro ⟨own, ⟨row, here, member, named⟩, rfl⟩
    exact ⟨row.layout, ⟨row, here, rfl⟩, List.mem_map_of_mem member, named⟩
  · rintro ⟨_, ⟨row, here, rfl⟩, member, named⟩
    obtain ⟨own, memberOwn, rfl⟩ := List.mem_map.mp member
    exact ⟨own, ⟨row, here, memberOwn, named⟩, rfl⟩

theorem turn_lt (coherent : table.Coherent start) {number : Nat} (inside : number < table.size)
    (input : I) : table.turn number input < table.size := by
  unfold turn
  cases found : table.cell? number input with
  | none => exact inside
  | some cell => exact cell?_next_lt coherent found

theorem rowAfter_lt (coherent : table.Coherent start) (inputs : List I) :
    table.rowAfter inputs < table.size := by
  have begins : table.start < table.size := coherent.zero.1 ▸ coherent.zero.2
  unfold rowAfter
  generalize table.start = number at begins
  induction inputs generalizing number with
  | nil => exact begins
  | cons input inputs ih => exact ih _ (turn_lt coherent begins input)

theorem agrees_of_layout (coherent : first.Coherent start) (other : second.Coherent otherStart)
    (same : first.layout = second.layout) : first.Agrees second := by
  have rows : ∀ number,
      (first.row? number).map Row.layout = (second.row? number).map Row.layout := by
    intro number
    rw [← layout_row, same, layout_row]
  have cells : ∀ number input,
      (first.cell? number input).map Cell.layout = (second.cell? number input).map Cell.layout := by
    intro number input
    apply Option.ext
    intro cell
    rw [cell?_iff_layout coherent, cell?_iff_layout other, same]
  have turns : first.turn = second.turn := by
    funext number input
    have next := congrArg (Option.map CellLayout.next) (cells number input)
    rw [Option.map_map, Option.map_map] at next
    exact congrArg (Option.getD · number) next
  have numbers : ∀ inputs, first.rowAfter inputs = second.rowAfter inputs := by
    intro inputs
    have begins : first.start = second.start := congrArg Layout.start same
    rw [rowAfter, rowAfter, turns, begins]
  constructor
  · intro path
    apply Option.ext
    intro number
    rw [rowOf?_iff_layout coherent, rowOf?_iff_layout other, same]
  · exact rows
  · exact cells
  · intro inputs input
    rw [Ignores, Ignores, ← numbers, ← Option.map_eq_none_iff (f := Cell.layout), cells,
      Option.map_eq_none_iff]
  · exact numbers
  · intro inputs
    obtain ⟨row, here⟩ := row?_of_lt (rowAfter_lt coherent inputs)
    have alike := rows (first.rowAfter inputs)
    rw [here, Option.map_some, eq_comm, Option.map_eq_some_iff] at alike
    obtain ⟨twin, there, shown⟩ := alike
    refine ⟨row, twin, here, numbers inputs ▸ there, ?_, ?_⟩
    · exact congrArg RowLayout.path shown.symm
    · exact congrArg RowLayout.label shown.symm

end Table

variable [Named S] [Named I]

inductive Table.Made : Table S I → Prop where
  | moves {start : Path S} {moves : List (Move S I)} {options : Options} {table : Table S I}
      (made : Table.ofMoves start moves options = .ok table) : Made table
  | chart {chart : Chart S I} {root : Fin chart.size} {options : Options} {journal after : Journal}
      {table : Table S I} (made : (chart.table root options).run journal = (.ok table, after)) :
      Made table

namespace Table

theorem coherent_of_made {table : Table S I} (made : table.Made) :
    ∃ start, table.Coherent start := by
  cases made with
  | moves made => exact ⟨_, coherent_of_ofMoves made⟩
  | chart made =>
    have accepted := Chart.accepted_of_table made
    obtain ⟨moves, tabled⟩ := Compilation.holds_of_makes (Chart.table_makes accepted _) made
    obtain ⟨start, _, first⟩ := Chart.initial_of_tabled (Chart.check_ok_iff.mp accepted) tabled
    exact ⟨start, coherent_of_tells tabled.tells tabled.start first⟩

/-- A layout says all there is to say about finding rows and cells: two tables that have it, made of
whatever moves or charts, agree in every answer and in every run. -/
theorem layout_determines_dispatch {first second : Table S I} (madeFirst : first.Made)
    (madeSecond : second.Made) (same : first.layout = second.layout) : first.Agrees second := by
  obtain ⟨_, coherent⟩ := coherent_of_made madeFirst
  obtain ⟨_, other⟩ := coherent_of_made madeSecond
  exact agrees_of_layout coherent other same

def lampWays : List (Move String String) := [
  ⟨["off"], "switch", ["on", "bright"], .idle, 1, none⟩,
  ⟨["on", "bright"], "switch", ["off"], .idle, 1, none⟩,
  ⟨["on", "bright"], "dim", ["on", "dark"], .idle, 2, none⟩,
  ⟨["on", "dark"], "switch", ["off"], .idle, 1, none⟩,
  ⟨["on", "dark"], "dim", ["on", "bright"], .idle, 2, none⟩]

theorem lamp_and_its_ways_agree : ∃ ways table after,
    ofMoves ["off"] lampWays {} = .ok ways ∧
    (Chart.lamp.table Chart.lampRoot {}).run {} = (.ok table, after) ∧
    ways.layout = table.layout ∧ ways.Agrees table := by
  have distinct : (lampWays.map Move.key).Nodup := by decide
  obtain ⟨ways, made, _⟩ := ofMoves_of_distinct ["off"] {} distinct
  obtain ⟨table, after, run, _⟩ := Chart.table_makes Chart.lamp_accepted {} {}
  have layouts : (ofMoves ["off"] lampWays {}).map Table.layout
      = ((Chart.lamp.table Chart.lampRoot {}).run {}).1.map Table.layout := by cbv
  rw [made, run] at layouts
  have same : ways.layout = table.layout := Except.ok.inj layouts
  exact ⟨ways, table, after, made, run, same,
    layout_determines_dispatch (.moves made) (.chart run) same⟩

end Table
end Statechart
