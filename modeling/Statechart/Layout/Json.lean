import Statechart.Layout
import Statechart.Json.Reader
import Statechart.Json.Writer
import Statechart.Symbol.Portable

/-!
Layouts as JSON texts. A layout is written with all its fields in a fixed order; it is read from any
text whose records hold the same fields.
-/
namespace Statechart

variable {S I : Type}

def labelJson : Option String → Json
  | none => .null
  | some text => .string (some text)

variable [Portable S] [Portable I]

namespace CellLayout

def toJson (cell : CellLayout I) : Json := .object [
  (some "input", Portable.toJson cell.input),
  (some "next", .natural cell.next),
  (some "label", labelJson cell.label)]

def ofJson? (document : Json) : Option (CellLayout I) :=
  match document.fields? ["input", "next", "label"] with
  | some [some input, some next, label] => do
    let input ← Portable.ofJson? input
    let next ← next.word? 64
    let label ← Json.optionalText? label
    return { input, next, label }
  | _ => none

end CellLayout

namespace RowLayout

def toJson (row : RowLayout S I) : Json := .object [
  (some "state", .array (row.path.map Portable.toJson)),
  (some "label", labelJson row.label),
  (some "transitions", .array (row.cells.map CellLayout.toJson))]

def ofJson? (document : Json) : Option (RowLayout S I) :=
  match document.fields? ["state", "label", "transitions"] with
  | some [some path, label, some cells] => do
    let path ← path.list? Portable.ofJson?
    let label ← Json.optionalText? label
    let cells ← cells.list? CellLayout.ofJson?
    return { path, label, cells }
  | _ => none

end RowLayout

namespace Layout

def toJson (layout : Layout S I) : Json := .object [
  (some "version", .natural layout.version),
  (some "start", .natural layout.start),
  (some "states", .array (layout.rows.map RowLayout.toJson))]

def ofJson? (document : Json) : Option (Layout S I) :=
  match document.fields? ["version", "start", "states"] with
  | some [some version, some start, some rows] => do
    let version ← version.word? 32
    let start ← start.word? 64
    let rows ← rows.list? RowLayout.ofJson?
    return { version, start, rows }
  | _ => none

def print (layout : Layout S I) : String := layout.toJson.pretty

def parse (text : String) : Except (LayoutError I) (Layout S I) :=
  accept ((Json.parse? text).bind ofJson?)

end Layout
end Statechart
