import Mathlib
import Statechart.Proofs.LayoutText
import Statechart.Proofs.RecordContent

/-!
The content of layouts. Layouts, rows, cells and tagged symbols are records, and texts may have any
blanks and escapes. Texts that spell layouts of the same content are read alike, be it as a layout,
as a fault or as malformed. Main result: `same_content_reads_alike`.
-/
namespace Statechart

open Json

def Tagged.fields : List Field := [⟨"name", Eq, false⟩, ⟨"id", Eq, false⟩]

def SymbolKind.Alike : SymbolKind → Json → Json → Prop
  | .tagged => Json.Alike Tagged.fields
  | _ => Eq

def CellLayout.fields (kind : SymbolKind) : List Field :=
  [⟨"input", kind.Alike, false⟩, ⟨"next", Eq, false⟩, ⟨"label", Eq, true⟩]

def RowLayout.fields (first second : SymbolKind) : List Field :=
  [⟨"state", ListAlike first.Alike, false⟩, ⟨"label", Eq, true⟩,
    ⟨"transitions", ListAlike (Json.Alike (CellLayout.fields second)), false⟩]

def Layout.fields (first second : SymbolKind) : List Field :=
  [⟨"version", Eq, false⟩, ⟨"start", Eq, false⟩,
    ⟨"states", ListAlike (Json.Alike (RowLayout.fields first second)), false⟩]

variable {first second : SymbolKind} {document : Json}

theorem Tagged.ofJson_of_fields {name id : Option Json}
    (found : document.fields? ["name", "id"] = some [name, id]) :
    ofJson? document = do
      let name ← name.bind Json.text?
      let id ← id.bind (Json.word? 32)
      return { name, id := UInt32.ofNat id } := by
  rw [ofJson?, found]
  cases name with
  | none => rfl
  | some name =>
    cases id with
    | none => simp
    | some id => rfl

theorem CellLayout.ofJson_of_fields {input next label : Option Json}
    (found : document.fields? ["input", "next", "label"] = some [input, next, label]) :
    (ofJson? document : Option (CellLayout second.Symbol)) = do
      let input ← input.bind Portable.ofJson?
      let next ← next.bind (Json.word? 64)
      let label ← Json.optionalText? label
      return { input, next, label } := by
  rw [ofJson?, found]
  cases input with
  | none => rfl
  | some input =>
    cases next with
    | none => simp
    | some next => rfl

theorem RowLayout.ofJson_of_fields {path label cells : Option Json}
    (found : document.fields? ["state", "label", "transitions"] = some [path, label, cells]) :
    (ofJson? document : Option (RowLayout first.Symbol second.Symbol)) = do
      let path ← path.bind (Json.list? Portable.ofJson?)
      let label ← Json.optionalText? label
      let cells ← cells.bind (Json.list? CellLayout.ofJson?)
      return { path, label, cells } := by
  rw [ofJson?, found]
  cases path with
  | none => rfl
  | some path =>
    cases cells with
    | none => simp
    | some cells => rfl

theorem Layout.ofJson_of_fields {version start rows : Option Json}
    (found : document.fields? ["version", "start", "states"] = some [version, start, rows]) :
    (ofJson? document : Option (Layout first.Symbol second.Symbol)) = do
      let version ← version.bind (Json.word? 32)
      let start ← start.bind (Json.word? 64)
      let rows ← rows.bind (Json.list? RowLayout.ofJson?)
      return { version, start, rows } := by
  rw [ofJson?, found]
  cases version with
  | none => rfl
  | some version =>
    cases start with
    | none => simp
    | some start =>
      cases rows with
      | none => simp
      | some rows => rfl

theorem Tagged.ofJson_alike ⦃document counterpart : Json⦄
    (alike : Json.Alike Tagged.fields document counterpart) :
    ofJson? document = ofJson? counterpart := by
  have named : Tagged.fields.map Field.name = ["name", "id"] := rfl
  refine read_alike named (by decide) (fun unread => ?_) (fun found other agree => ?_) alike
  · rw [ofJson?, unread]
  · obtain _ | ⟨name, _ | ⟨id, ⟨⟩⟩⟩ := agree
    rw [ofJson_of_fields found, ofJson_of_fields other, name.required rfl fun _ _ => congrArg _,
      id.required rfl fun _ _ => congrArg _]

theorem SymbolKind.ofJson_alike {kind : SymbolKind} ⦃document counterpart : Json⦄
    (alike : kind.Alike document counterpart) :
    (Portable.ofJson? document : Option kind.Symbol) = Portable.ofJson? counterpart :=
  match kind with
  | .text => congrArg _ alike
  | .enumerated _ _ _ => congrArg _ alike
  | .tagged => Tagged.ofJson_alike alike

theorem CellLayout.ofJson_alike ⦃document counterpart : Json⦄
    (alike : Json.Alike (fields second) document counterpart) :
    (ofJson? document : Option (CellLayout second.Symbol)) = ofJson? counterpart := by
  have named : (fields second).map Field.name = ["input", "next", "label"] := rfl
  refine read_alike named (by decide) (fun unread => ?_) (fun found other agree => ?_) alike
  · rw [ofJson?, unread]
  · obtain _ | ⟨input, _ | ⟨next, _ | ⟨label, ⟨⟩⟩⟩⟩ := agree
    rw [ofJson_of_fields found, ofJson_of_fields other,
      input.required rfl SymbolKind.ofJson_alike,
      next.required rfl fun _ _ => congrArg _, label.label rfl]

theorem RowLayout.ofJson_alike ⦃document counterpart : Json⦄
    (alike : Json.Alike (fields first second) document counterpart) :
    (ofJson? document : Option (RowLayout first.Symbol second.Symbol)) = ofJson? counterpart := by
  have named : (fields first second).map Field.name = ["state", "label", "transitions"] := rfl
  refine read_alike named (by decide) (fun unread => ?_) (fun found other agree => ?_) alike
  · rw [ofJson?, unread]
  · obtain _ | ⟨path, _ | ⟨label, _ | ⟨cells, ⟨⟩⟩⟩⟩ := agree
    rw [ofJson_of_fields found, ofJson_of_fields other,
      path.required rfl fun _ _ => list_alike SymbolKind.ofJson_alike, label.label rfl,
      cells.required rfl fun _ _ => list_alike CellLayout.ofJson_alike]

namespace Layout

theorem ofJson_alike ⦃document counterpart : Json⦄
    (alike : Json.Alike (fields first second) document counterpart) :
    (ofJson? document : Option (Layout first.Symbol second.Symbol)) = ofJson? counterpart := by
  have named : (fields first second).map Field.name = ["version", "start", "states"] := rfl
  refine read_alike named (by decide) (fun unread => ?_) (fun found other agree => ?_) alike
  · rw [ofJson?, unread]
  · obtain _ | ⟨version, _ | ⟨start, _ | ⟨rows, ⟨⟩⟩⟩⟩ := agree
    rw [ofJson_of_fields found, ofJson_of_fields other,
      version.required rfl fun _ _ => congrArg _, start.required rfl fun _ _ => congrArg _,
      rows.required rfl fun _ _ => list_alike RowLayout.ofJson_alike]

def SameContent (first second : SymbolKind) (text other : String) : Prop :=
  ∃ document counterpart : Json, document.Spells text ∧ counterpart.Spells other ∧
    Json.Alike (fields first second) document counterpart

/-- What is read from a text depends only on the content of the layout in it: the same layout, the
same fault, or in both cases none at all. -/
theorem same_content_reads_alike (first second : SymbolKind) (text other : String)
    (same : SameContent first second text other) :
    (parse text : Reading first second) = parse other := by
  obtain ⟨document, counterpart, spelled, respelled, alike⟩ := same
  rw [parse, parse, parse_iff_spells.mpr spelled, parse_iff_spells.mpr respelled, Option.bind_some,
    Option.bind_some, ofJson_alike alike]

def tidyText : String :=
  "\x7b\"version\":1,\"start\":0,\"states\":[\x7b\"state\":[\x7b\"name\":\"go\",\"id\":7\x7d]," ++
  "\"label\":null,\"transitions\":[\x7b\"input\":\"go\",\"next\":0,\"label\":\"hi\"\x7d]\x7d]\x7d"

def looseText : String :=
  " \x7b\"states\" : [\n\x7b\"transitions\":[\x7b\"next\":0,\"label\":\"h\\u0069\"," ++
  "\"input\":\"go\"\x7d],\"state\":[\x7b\"id\":7,\t\"name\":\"g\\u006F\"\x7d]\x7d]," ++
  "\"\\u006eote\":[-1.5e+3,\"\\ud800\",\x7b\"\\uDC00\":[]\x7d],\"version\":1,\r\n\"start\":0\x7d\n"

def tidySymbol : Json := .object [(some "name", .string (some "go")), (some "id", .natural 7)]

def looseSymbol : Json := .object [(some "id", .natural 7), (some "name", .string (some "go"))]

def tidyCell : Json := .object [
  (some "input", .string (some "go")), (some "next", .natural 0),
  (some "label", .string (some "hi"))]

def looseCell : Json := .object [
  (some "next", .natural 0), (some "label", .string (some "hi")),
  (some "input", .string (some "go"))]

def tidyRow : Json := .object [
  (some "state", .array [tidySymbol]), (some "label", .null),
  (some "transitions", .array [tidyCell])]

def looseRow : Json := .object [
  (some "transitions", .array [looseCell]), (some "state", .array [looseSymbol])]

def tidy : Json := .object [
  (some "version", .natural 1), (some "start", .natural 0), (some "states", .array [tidyRow])]

def note : Json := .array [.number "-1.5e+3".toList, .string none, .object [(none, .array [])]]

def loose : Json := .object [
  (some "states", .array [looseRow]), (some "note", note), (some "version", .natural 1),
  (some "start", .natural 0)]

theorem rows_alike : Json.Alike (RowLayout.fields .tagged .text) tidyRow looseRow := by
  have path : ListAlike SymbolKind.tagged.Alike (.array [tidySymbol]) (.array [looseSymbol]) :=
    .items (.cons (.rel _ _ (.reordered (.swap _ _ _))) .nil)
  have cells : ListAlike (Json.Alike (CellLayout.fields .text)) (.array [tidyCell])
      (.array [looseCell]) :=
    .items (.cons (.rel _ _ (.reordered (List.perm_append_singleton _ [_, _]).symm)) .nil)
  have moved : Rewritten (RowLayout.fields .tagged .text) tidyRow (.object [
      (some "label", .null), (some "transitions", .array [tidyCell]),
      (some "state", .array [tidySymbol])]) :=
    .reordered (List.perm_append_singleton _ [_, _]).symm
  have omitted : Rewritten (RowLayout.fields .tagged .text)
      (.object [(some "transitions", .array [tidyCell]), (some "state", .array [tidySymbol])])
      (.object [(some "label", .null), (some "transitions", .array [tidyCell]),
        (some "state", .array [tidySymbol])]) :=
    .omitted (List.mem_cons_of_mem _ List.mem_cons_self) rfl (by simp)
  have cells_changed : Rewritten (RowLayout.fields .tagged .text)
      (.object [(some "transitions", .array [tidyCell]), (some "state", .array [tidySymbol])])
      (.object [(some "transitions", .array [looseCell]), (some "state", .array [tidySymbol])]) :=
    @Rewritten.member _ _ _ _ [] _
      (List.mem_cons_of_mem _ (List.mem_cons_of_mem _ List.mem_cons_self)) cells
  have path_changed : Rewritten (RowLayout.fields .tagged .text)
      (.object [(some "transitions", .array [looseCell]), (some "state", .array [tidySymbol])])
      looseRow :=
    @Rewritten.member _ _ _ _ [(some "transitions", .array [looseCell])] _ List.mem_cons_self path
  exact .trans _ _ _ (.rel _ _ moved) (.trans _ _ _ (.symm _ _ (.rel _ _ omitted))
    (.trans _ _ _ (.rel _ _ cells_changed) (.rel _ _ path_changed)))

theorem layouts_alike : Json.Alike (fields .tagged .text) tidy loose := by
  have rows : ListAlike (Json.Alike (RowLayout.fields .tagged .text)) (.array [tidyRow])
      (.array [looseRow]) := .items (.cons rows_alike .nil)
  have moved : Rewritten (fields .tagged .text) tidy (.object [
      (some "states", .array [tidyRow]), (some "version", .natural 1),
      (some "start", .natural 0)]) :=
    .reordered (List.perm_append_singleton _ [_, _])
  have noted : Rewritten (fields .tagged .text)
      (.object [(some "states", .array [tidyRow]), (some "version", .natural 1),
        (some "start", .natural 0)])
      (.object [(some "note", note), (some "states", .array [tidyRow]),
        (some "version", .natural 1), (some "start", .natural 0)]) :=
    .unknown note (by decide)
  have changed : Rewritten (fields .tagged .text)
      (.object [(some "note", note), (some "states", .array [tidyRow]),
        (some "version", .natural 1), (some "start", .natural 0)])
      (.object [(some "note", note), (some "states", .array [looseRow]),
        (some "version", .natural 1), (some "start", .natural 0)]) :=
    @Rewritten.member _ _ _ _ [(some "note", note)] _
      (List.mem_cons_of_mem _ (List.mem_cons_of_mem _ List.mem_cons_self)) rows
  have swapped : Rewritten (fields .tagged .text)
      (.object [(some "note", note), (some "states", .array [looseRow]),
        (some "version", .natural 1), (some "start", .natural 0)]) loose :=
    .reordered (.swap _ _ _)
  exact .trans _ _ _ (.rel _ _ moved) (.trans _ _ _ (.rel _ _ noted)
    (.trans _ _ _ (.rel _ _ changed) (.rel _ _ swapped)))

def sameLayout : Layout SymbolKind.tagged.Symbol SymbolKind.text.Symbol where
  version := 1
  start := 0
  rows := [{ path := [⟨"go", 7⟩], label := none, cells := [⟨"go", 0, some "hi"⟩] }]

theorem loose_reads_as_tidy : SameContent .tagged .text tidyText looseText ∧
    (parse tidyText : Reading .tagged .text) = .ok sameLayout ∧
    (parse looseText : Reading .tagged .text) = .ok sameLayout := by
  have spelled : tidy.Spells tidyText := parse_iff_spells.mp (by cbv)
  have respelled : loose.Spells looseText := parse_iff_spells.mp (by cbv)
  have same : SameContent .tagged .text tidyText looseText :=
    ⟨tidy, loose, spelled, respelled, layouts_alike⟩
  have made : ofJson? tidy = some sameLayout := rfl
  have read : (parse tidyText : Reading .tagged .text) = .ok sameLayout := by
    rw [parse, parse_iff_spells.mpr spelled, Option.bind_some, made]
    rfl
  refine ⟨same, read, ?_⟩
  rw [← same_content_reads_alike .tagged .text tidyText looseText same, read]

end Layout
end Statechart
