import Statechart.Layout.Json

/-!
Layouts in binary form. Records are written field by field without anything between.
-/
namespace Statechart

variable {S I : Type} [Portable S] [Portable I]

namespace CellLayout

def toBytes (cell : CellLayout I) : Bytes :=
  Portable.toBytes cell.input ++ Bytes.ofNat 8 cell.next ++ Bytes.ofOption Bytes.ofText cell.label

def decoder : Decoder (CellLayout I) := do
  let input ← Portable.decoder
  let next ← Decoder.nat 8
  let label ← Decoder.option Decoder.text
  return { input, next, label }

end CellLayout

namespace RowLayout

def toBytes (row : RowLayout S I) : Bytes :=
  Bytes.ofList Portable.toBytes row.path ++ Bytes.ofOption Bytes.ofText row.label
    ++ Bytes.ofList CellLayout.toBytes row.cells

def decoder : Decoder (RowLayout S I) := do
  let path ← Decoder.list Portable.decoder
  let label ← Decoder.option Decoder.text
  let cells ← Decoder.list CellLayout.decoder
  return { path, label, cells }

end RowLayout

namespace Layout

def toBytes (layout : Layout S I) : Bytes :=
  Bytes.ofNat 4 layout.version ++ Bytes.ofNat 8 layout.start
    ++ Bytes.ofList RowLayout.toBytes layout.rows

def decoder : Decoder (Layout S I) := do
  let version ← Decoder.nat 4
  let start ← Decoder.nat 8
  let rows ← Decoder.list RowLayout.decoder
  return { version, start, rows }

/-- The layout at the front of the bytes. What follows it is not looked at. -/
def ofBytes (bytes : Bytes) : Except (LayoutError I) (Layout S I) :=
  accept ((decoder bytes).map Prod.fst)

end Layout
end Statechart
