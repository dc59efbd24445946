import Statechart.Flat.Table

/-!
Layouts. The layout of a table is what can be kept of it outside a running program: rows, inputs and
row numbers, but no actions.
-/
namespace Statechart

def layoutVersion : Nat := 1

structure CellLayout (I : Type) where
  input : I
  next : Nat
  label : Option String
  deriving DecidableEq, Repr

structure RowLayout (S I : Type) where
  path : Path S
  label : Option String
  cells : List (CellLayout I)
  deriving DecidableEq, Repr

structure Layout (S I : Type) where
  version : Nat
  start : Nat
  rows : List (RowLayout S I)
  deriving DecidableEq, Repr

inductive LayoutFault (I : Type) where
  | unsupportedVersion (found : Nat)
  | startOutOfRange (start rows : Nat)
  | missingRow (row : Nat) (input : I) (next : Nat)
  deriving DecidableEq, Repr

def LayoutFault.message {I : Type} [Named I] : LayoutFault I → String
  | unsupportedVersion found =>
    "Unsupported layout version " ++ toString found ++ ", supported: " ++ toString layoutVersion
  | startOutOfRange start rows =>
    "Layout validation failed: start row " ++ toString start ++ " out of range ("
      ++ toString rows ++ " rows)"
  | missingRow row input next =>
    "Layout validation failed: row " ++ toString row ++ " input '" ++ Named.name input
      ++ "' points at missing row " ++ toString next

inductive LayoutError (I : Type) where
  | malformed
  | invalid (fault : LayoutFault I)
  deriving DecidableEq, Repr

namespace Layout

variable {S I : Type}

def firstMissing? (size : Nat) (number : Nat) : List (RowLayout S I) → Option (LayoutFault I)
  | [] => none
  | row :: rest =>
    match row.cells.find? fun cell => size ≤ cell.next with
    | some cell => some (.missingRow number cell.input cell.next)
    | none => firstMissing? size (number + 1) rest

/-- The first fault of a layout. A layout without rows may have any start. -/
def fault? (layout : Layout S I) : Option (LayoutFault I) :=
  if layout.version ≠ layoutVersion then some (.unsupportedVersion layout.version)
  else if 0 < layout.rows.length ∧ layout.rows.length ≤ layout.start then
    some (.startOutOfRange layout.start layout.rows.length)
  else firstMissing? layout.rows.length 0 layout.rows

def accept : Option (Layout S I) → Except (LayoutError I) (Layout S I)
  | none => .error .malformed
  | some layout =>
    match layout.fault? with
    | some fault => .error (.invalid fault)
    | none => .ok layout

theorem accept_sound {layout : Layout S I} (sound : layout.fault? = none) :
    accept (some layout) = .ok layout := by
  simp only [accept, sound]

theorem accept_faulty {layout : Layout S I} {fault : LayoutFault I}
    (faulty : layout.fault? = some fault) : accept (some layout) = .error (.invalid fault) := by
  simp only [accept, faulty]

end Layout

def Cell.layout {I : Type} (cell : Cell I) : CellLayout I :=
  { input := cell.input, next := cell.next, label := cell.label }

variable {S I : Type} [DecidableEq S] [Hashable S] [DecidableEq I] [Hashable I]

def Row.layout (row : Row S I) : RowLayout S I :=
  { path := row.path, label := row.label, cells := row.cells.toList.map Cell.layout }

def Table.layout (table : Table S I) : Layout S I :=
  { version := layoutVersion, start := table.start, rows := table.rows.toList.map Row.layout }

end Statechart
