import Statechart.Proofs.BinaryForm
import Statechart.Proofs.Printing
import Statechart.Proofs.Records

/-!
Layouts as JSON texts. The text of a layout is read back as the layout, or as its first fault, and
never as malformed; its binary form is read alike.
-/
namespace Statechart

theorem Enumerated.ofName_name {names : List String} (distinct : names.Nodup)
    (symbol : Enumerated names) : ofName? symbol.name = some symbol := by
  rw [ofName?, at_some_iff, name]
  exact distinct.idxOf_getElem _ _

theorem Tagged.ofJson_toJson (symbol : Tagged) :
    ofJson? (Portable.toJson symbol) = some symbol := by
  have written : Portable.toJson symbol
      = Json.record ["name", "id"] [.string (some symbol.name), .natural symbol.id.toNat] := rfl
  have small : symbol.id.toNat < Nat.pow 2 32 := symbol.id.toNat_lt
  rw [written, ofJson?, Json.fields_of_record (by decide) rfl]
  simp only [List.map, Json.text?, Json.word?, if_pos small, Option.bind_eq_bind, Option.bind_some,
    UInt32.ofNat_toNat, Option.pure_def]

theorem Tagged.toJson_plain (symbol : Tagged) : (Portable.toJson symbol).Plain := by
  refine .object ?_
  simp [Json.Plain.string, Json.Plain.natural]

namespace SymbolKind

theorem ofJson_toJson (kind : SymbolKind) (symbol : kind.Symbol) :
    Portable.ofJson? (Portable.toJson symbol) = some symbol :=
  match kind with
  | .text => rfl
  | .enumerated _ distinct _ => Enumerated.ofName_name distinct symbol
  | .tagged => Tagged.ofJson_toJson symbol

theorem toJson_plain (kind : SymbolKind) (symbol : kind.Symbol) : (Portable.toJson symbol).Plain :=
  match kind with
  | .text => .string _
  | .enumerated _ _ _ => .string _
  | .tagged => Tagged.toJson_plain symbol

end SymbolKind

theorem optionalText_labelJson (label : Option String) :
    Json.optionalText? (some (labelJson label)) = some label := by
  cases label <;> rfl

theorem labelJson_plain (label : Option String) : (labelJson label).Plain := by
  cases label with
  | none => exact .null
  | some text => exact .string _

variable {first second : SymbolKind}

/-- The version is a number of 32 bits, and the start and all next rows are numbers of 64 bits. -/
@[mk_iff]
structure Layout.InRange (layout : Layout first.Symbol second.Symbol) : Prop where
  version : layout.version < Nat.pow 2 32
  start : layout.start < Nat.pow 2 64
  next : ∀ row ∈ layout.rows, ∀ cell ∈ row.cells, cell.next < Nat.pow 2 64

instance (layout : Layout first.Symbol second.Symbol) : Decidable layout.InRange :=
  decidable_of_iff' _ (Layout.inRange_iff layout)

theorem CellLayout.ofJson_toJson {cell : CellLayout second.Symbol}
    (small : cell.next < Nat.pow 2 64) : ofJson? cell.toJson = some cell := by
  have written : cell.toJson = Json.record ["input", "next", "label"]
      [Portable.toJson cell.input, .natural cell.next, labelJson cell.label] := rfl
  rw [written, ofJson?, Json.fields_of_record (by decide) rfl]
  simp only [List.map, second.ofJson_toJson, Json.word?, if_pos small, optionalText_labelJson,
    Option.bind_eq_bind, Option.bind_some, Option.pure_def]

theorem CellLayout.toJson_plain (cell : CellLayout second.Symbol) : cell.toJson.Plain := by
  refine .object ?_
  simp [second.toJson_plain, labelJson_plain, Json.Plain.natural]

theorem RowLayout.ofJson_toJson {row : RowLayout first.Symbol second.Symbol}
    (small : ∀ cell ∈ row.cells, cell.next < Nat.pow 2 64) : ofJson? row.toJson = some row := by
  have written : row.toJson = Json.record ["state", "label", "transitions"]
      [.array (row.path.map Portable.toJson), labelJson row.label,
        .array (row.cells.map CellLayout.toJson)] := rfl
  have path := Json.mapM_of_written fun symbol (_ : symbol ∈ row.path) => first.ofJson_toJson symbol
  have cells := Json.mapM_of_written fun cell among => CellLayout.ofJson_toJson (small cell among)
  rw [written, ofJson?, Json.fields_of_record (by decide) rfl]
  simp only [List.map, Json.list?, path, cells, optionalText_labelJson,
    Option.bind_eq_bind, Option.bind_some, Option.pure_def]

theorem RowLayout.toJson_plain (row : RowLayout first.Symbol second.Symbol) : row.toJson.Plain := by
  have path : (Json.array (row.path.map Portable.toJson)).Plain :=
    .array (by simp [first.toJson_plain])
  have cells : (Json.array (row.cells.map CellLayout.toJson)).Plain :=
    .array (by simp [CellLayout.toJson_plain])
  refine .object ?_
  simp [path, cells, labelJson_plain]

namespace Layout

variable {layout : Layout first.Symbol second.Symbol}

theorem ofJson_toJson (range : layout.InRange) : ofJson? layout.toJson = some layout := by
  have written : layout.toJson = Json.record ["version", "start", "states"]
      [.natural layout.version, .natural layout.start,
        .array (layout.rows.map RowLayout.toJson)] := rfl
  have rows := Json.mapM_of_written fun row among => RowLayout.ofJson_toJson (range.next row among)
  rw [written, ofJson?, Json.fields_of_record (by decide) rfl]
  simp only [List.map, Json.word?, if_pos range.version, if_pos range.start, Json.list?, rows,
    Option.bind_eq_bind, Option.bind_some, Option.pure_def]

theorem toJson_plain (layout : Layout first.Symbol second.Symbol) : layout.toJson.Plain := by
  have rows : (Json.array (layout.rows.map RowLayout.toJson)).Plain :=
    .array (by simp [RowLayout.toJson_plain])
  refine .object ?_
  simp [rows, Json.Plain.natural]

theorem parse_print (range : layout.InRange) : parse layout.print = accept (some layout) := by
  rw [parse, print, Json.parse_pretty layout.toJson_plain, Option.bind_some, ofJson_toJson range]

/-- The text of a layout is read back as the layout, or as its first fault if it has one, and
never as malformed. A layout whose lengths can be counted in eight bytes is read alike from its
binary form. -/
theorem text_round_trip (first second : SymbolKind) (layout : Layout first.Symbol second.Symbol)
    (range : layout.InRange) :
    (parse layout.print : Reading first second) =
        (match layout.fault? with
        | none => .ok layout
        | some fault => .error (.invalid fault)) ∧
      (parse layout.print : Reading first second) ≠ .error .malformed ∧
      (layout.Fits →
        (parse layout.print : Reading first second) = ofBytes layout.toBytes) := by
  rw [parse_print range]
  refine ⟨?_, accept_ne_malformed, ?_⟩
  · cases state : layout.fault? with
    | none => rw [accept_sound state]
    | some fault => rw [accept_faulty state]
  · intro fits
    rw [ofBytes_of_heads ⟨fits, List.prefix_refl _⟩]

def strayLayout : Layout SymbolKind.tagged.Symbol SymbolKind.text.Symbol where
  version := 1
  start := 0
  rows := [{
    path := [⟨"say \"no\"\\", 4294967295⟩, ⟨"\x00\x1f/", 0⟩]
    label := some "😀\n"
    cells := [
      { input := "go", next := 0, label := none },
      { input := "\t", next := 18446744073709551615, label := some "" }] }]

theorem stray_round_trip :
    strayLayout.InRange ∧ strayLayout.Fits ∧
      (parse strayLayout.print : Reading .tagged .text)
        = .error (.invalid (.missingRow 0 (show String from "\t") 18446744073709551615)) ∧
      (parse strayLayout.print : Reading .tagged .text) = ofBytes strayLayout.toBytes := by
  have range : strayLayout.InRange := by decide
  have fits : strayLayout.Fits := by decide
  obtain ⟨read, -, alike⟩ := text_round_trip _ _ strayLayout range
  exact ⟨range, fits, read, alike fits⟩

end Layout
end Statechart
