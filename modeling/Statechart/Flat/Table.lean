import Statechart.Flat.Move

/-!
Transition tables. A table has a row for each leaf and drives a machine without its chart: a cell of
a row names an input, the row to go to and the action to run. Rows are found by path and cells by
input through indexes, which grow together with the rows and cells.
-/
namespace Statechart

structure Cell (I : Type) where
  input : I
  next : Nat
  action : Action
  label : Option String

structure Row (S I : Type) [DecidableEq I] [Hashable I] where
  path : Path S
  label : Option String
  cells : Array (Cell I) := #[]
  byInput : Std.HashMap I Nat := {}

structure Table (S I : Type) [DecidableEq S] [Hashable S] [DecidableEq I] [Hashable I] where
  rows : Array (Row S I) := #[]
  start : Nat := 0
  byPath : Std.HashMap (Path S) Nat := {}

variable {S I : Type} [DecidableEq S] [Hashable S] [DecidableEq I] [Hashable I]

namespace Row

def cell? (row : Row S I) (input : I) : Option (Cell I) := do
  let position ← row.byInput[input]?
  row.cells[position]?

def push (row : Row S I) (cell : Cell I) : Row S I :=
  { row with
    cells := row.cells.push cell
    byInput := row.byInput.insert cell.input row.cells.size }

end Row

namespace Table

def row? (table : Table S I) (number : Nat) : Option (Row S I) := table.rows[number]?

def rowOf? (table : Table S I) (path : Path S) : Option Nat := table.byPath[path]?

def cell? (table : Table S I) (number : Nat) (input : I) : Option (Cell I) := do
  let row ← table.row? number
  row.cell? input

def size (table : Table S I) : Nat := table.rows.size

def cellCount (table : Table S I) : Nat :=
  table.rows.foldl (fun count row => count + row.cells.size) 0

variable [Named S] [Named I]

def place (options : Options) (table : Table S I) (path : Path S) : Nat × Table S I :=
  match table.rowOf? path with
  | some number => (number, table)
  | none =>
    (table.rows.size, { table with
      rows := table.rows.push { path, label := options.label path.dotted }
      byPath := table.byPath.insert path table.rows.size })

def placeAll (options : Options) (table : Table S I) (paths : List (Path S)) : Table S I :=
  paths.foldl (fun table path => (table.place options path).2) table

def add (options : Options) (table : Table S I) (move : Move S I) :
    Except (Fault S I) (Table S I) :=
  let (next, table) := table.place options move.target
  let (number, table) := table.place options move.source
  match table.cell? number move.input with
  | some _ => .error (.duplicateTransition move.source move.input)
  | none =>
    let cell : Cell I := {
      input := move.input
      next
      action := move.action
      label := options.label (move.source.arrow move.input move.target) }
    .ok { table with rows := table.rows.modify number (·.push cell) }

def addAll (options : Options) (table : Table S I) (moves : List (Move S I)) :
    Except (Fault S I) (Table S I) :=
  moves.foldlM (Table.add options) table

/-- The table of any moves. The start path has the first row; the other sources follow, then the
targets that are no sources, each in the order in which they first appear. -/
def ofMoves (start : Path S) (moves : List (Move S I)) (options : Options) :
    Except (Fault S I) (Table S I) :=
  addAll options (placeAll options {} (start :: moves.map Move.source)) moves

end Table

variable [Named S] [Named I]

/-- The table of the machine whose root is the given level. Every leaf has a row, also one that no
move leaves, and the leaf that the machine starts in has the first one. -/
def Chart.table (chart : Chart S I) (root : Fin chart.size) (options : Options) :
    Compilation S I (Table S I) := do
  let _ ← (chart.check root : Except (Fault S I) _)
  let leaves ← (chart.leaves root : Except (Fault S I) _)
  let moves ← Leaf.allMoves leaves options
  (Table.addAll options (Table.placeAll options {} (leaves.map Leaf.path)) moves :
    Except (Fault S I) _)

end Statechart
