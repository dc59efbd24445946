import Mathlib.Tactic.MkIffOfInductiveProp
import Statechart.Layout.Binary
import Statechart.Proofs.Decoding

/-!
The binary form of a layout. A layout whose numbers, lengths and names fit is written in one way,
and no written layout starts with another; so bytes hold the layout whose binary form they start
with, or none.
-/
namespace Statechart

variable {first second : SymbolKind}

/-- Numbers and lengths fit in eight bytes, the version in four. -/
@[mk_iff]
structure CellLayout.Fits (cell : CellLayout second.Symbol) : Prop where
  input : second.Fits cell.input
  next : cell.next < Nat.pow 2 64
  label : ∀ label ∈ cell.label, label.utf8ByteSize < Nat.pow 2 64

@[mk_iff]
structure RowLayout.Fits (row : RowLayout first.Symbol second.Symbol) : Prop where
  depth : row.path.length < Nat.pow 2 64
  path : ∀ symbol ∈ row.path, first.Fits symbol
  label : ∀ label ∈ row.label, label.utf8ByteSize < Nat.pow 2 64
  width : row.cells.length < Nat.pow 2 64
  cells : ∀ cell ∈ row.cells, cell.Fits

@[mk_iff]
structure Layout.Fits (layout : Layout first.Symbol second.Symbol) : Prop where
  version : layout.version < Nat.pow 2 32
  start : layout.start < Nat.pow 2 64
  size : layout.rows.length < Nat.pow 2 64
  rows : ∀ row ∈ layout.rows, row.Fits

instance (cell : CellLayout second.Symbol) : Decidable cell.Fits :=
  decidable_of_iff' _ (CellLayout.fits_iff cell)

instance (row : RowLayout first.Symbol second.Symbol) : Decidable row.Fits :=
  decidable_of_iff' _ (RowLayout.fits_iff row)

instance (layout : Layout first.Symbol second.Symbol) : Decidable layout.Fits :=
  decidable_of_iff' _ (Layout.fits_iff layout)

abbrev Layout.Reading (first second : SymbolKind) :=
  Except (LayoutError second.Symbol) (Layout first.Symbol second.Symbol)

open Decoder

theorem CellLayout.reads :
    (CellLayout.decoder : Decoder (CellLayout second.Symbol)).Reads CellLayout.Fits
      CellLayout.toBytes := by
  intro bytes cell rest
  rw [CellLayout.fits_iff]
  exact record_reads second.reads eight_reads (option_reads text_reads) (fun _ => rfl)
    (fun _ _ _ => ⟨rfl, rfl, rfl⟩) bytes cell rest

theorem RowLayout.reads :
    (RowLayout.decoder : Decoder (RowLayout first.Symbol second.Symbol)).Reads RowLayout.Fits
      RowLayout.toBytes := by
  intro bytes row rest
  rw [RowLayout.fits_iff, ← and_assoc]
  exact record_reads (list_reads first.reads) (option_reads text_reads)
    (list_reads CellLayout.reads) (fun _ => rfl) (fun _ _ _ => ⟨rfl, rfl, rfl⟩) bytes row rest

namespace Layout

theorem reads :
    (decoder : Decoder (Layout first.Symbol second.Symbol)).Reads Fits toBytes := by
  intro bytes layout rest
  rw [fits_iff]
  exact record_reads four_reads eight_reads (list_reads RowLayout.reads) (fun _ => rfl)
    (fun _ _ _ => ⟨rfl, rfl, rfl⟩) bytes layout rest

def Heads (layout : Layout first.Symbol second.Symbol) (bytes : Bytes) : Prop :=
  layout.Fits ∧ layout.toBytes <+: bytes

variable {layout other : Layout first.Symbol second.Symbol} {bytes : Bytes}

theorem decoded_iff_heads :
    (decoder bytes).map Prod.fst = some layout ↔ layout.Heads bytes := by
  rw [Option.map_eq_some_iff, Heads]
  constructor
  · rintro ⟨⟨_, rest⟩, read, rfl⟩
    obtain ⟨fits, rfl⟩ := (reads _ _ _).mp read
    exact ⟨fits, rest, rfl⟩
  · rintro ⟨fits, rest, rfl⟩
    exact ⟨(layout, rest), (reads _ _ _).mpr ⟨fits, rfl⟩, rfl⟩

theorem heads_unique (one : layout.Heads bytes) (another : other.Heads bytes) : layout = other :=
  Option.some.inj ((decoded_iff_heads.mpr one).symm.trans (decoded_iff_heads.mpr another))

theorem ofBytes_of_heads (heads : layout.Heads bytes) : ofBytes bytes = accept (some layout) := by
  rw [ofBytes, decoded_iff_heads.mpr heads]

theorem ofBytes_of_headless
    (headless : ¬ ∃ layout : Layout first.Symbol second.Symbol, layout.Heads bytes) :
    (ofBytes bytes : Reading first second) = .error .malformed := by
  cases read : ((decoder bytes).map Prod.fst : Option (Layout first.Symbol second.Symbol)) with
  | none => rw [ofBytes, read, accept]
  | some layout => exact absurd ⟨layout, decoded_iff_heads.mp read⟩ headless

theorem headed_or_malformed (first second : SymbolKind) (bytes : Bytes) :
    (∃ layout : Layout first.Symbol second.Symbol,
      layout.Heads bytes ∧ ofBytes bytes = accept (some layout)) ∨
    (ofBytes bytes : Reading first second) = .error .malformed := by
  by_cases headed : ∃ layout : Layout first.Symbol second.Symbol, layout.Heads bytes
  · obtain ⟨layout, heads⟩ := headed
    exact .inl ⟨layout, heads, ofBytes_of_heads heads⟩
  · exact .inr (ofBytes_of_headless headed)

theorem accept_ok_iff :
    accept (some layout) = .ok other ↔ layout = other ∧ other.fault? = none := by
  cases state : layout.fault? with
  | some fault =>
    rw [accept_faulty state]
    constructor
    · intro accepted
      cases accepted
    · rintro ⟨rfl, sound⟩
      rw [sound] at state
      cases state
  | none =>
    rw [accept_sound state, Except.ok.injEq]
    constructor
    · rintro rfl
      exact ⟨rfl, state⟩
    · rintro ⟨same, -⟩
      exact same

theorem accept_invalid_iff {fault : LayoutFault second.Symbol} :
    accept (some layout) = .error (.invalid fault) ↔ layout.fault? = some fault := by
  cases state : layout.fault? with
  | some found => simp [accept_faulty state]
  | none => simp [accept_sound state]

theorem accept_ne_malformed : accept (some layout) ≠ .error .malformed := by
  cases state : layout.fault? with
  | some found => simp [accept_faulty state]
  | none => simp [accept_sound state]

theorem cut_headless {front : Bytes} (fits : layout.Fits) (cut : front <+: layout.toBytes)
    (short : front ≠ layout.toBytes) (heads : other.Heads front) : False := by
  have longer : other.Heads layout.toBytes := ⟨heads.1, heads.2.trans cut⟩
  obtain rfl := heads_unique longer ⟨fits, List.prefix_refl _⟩
  exact short (cut.eq_of_length_le heads.2.length_le)

/-- The binary form is exact. Bytes are read as the layout they start with, with its first fault if
it has one, and as malformed if they start with none. So what is written is read back whatever
follows it, nothing that is cut short is read, and no written layout starts with another. -/
theorem read_iff_heads (first second : SymbolKind) :
    (∀ (bytes : Bytes) (layout : Layout first.Symbol second.Symbol),
      ofBytes bytes = .ok layout ↔ layout.Heads bytes ∧ layout.fault? = none) ∧
    (∀ (bytes : Bytes) (fault : LayoutFault second.Symbol),
      (ofBytes bytes : Reading first second) = .error (.invalid fault) ↔
        ∃ layout : Layout first.Symbol second.Symbol,
          layout.Heads bytes ∧ layout.fault? = some fault) ∧
    (∀ bytes : Bytes,
      (ofBytes bytes : Reading first second) = .error .malformed ↔
        ¬ ∃ layout : Layout first.Symbol second.Symbol, layout.Heads bytes) ∧
    (∀ (layout : Layout first.Symbol second.Symbol) (rest : Bytes), layout.Fits →
      ofBytes (layout.toBytes ++ rest) = accept (some layout)) ∧
    (∀ (layout : Layout first.Symbol second.Symbol) (front : Bytes), layout.Fits →
      front <+: layout.toBytes → front ≠ layout.toBytes →
      (ofBytes front : Reading first second) = .error .malformed) ∧
    (∀ layout other : Layout first.Symbol second.Symbol, layout.Fits → other.Fits →
      layout.toBytes <+: other.toBytes → layout = other) := by
  refine ⟨?ok, ?invalid, ?malformed, ?written, ?cut, ?distinct⟩
  case ok =>
    intro bytes layout
    constructor
    · intro read
      rcases headed_or_malformed first second bytes with ⟨other, heads, same⟩ | malformed
      · rw [same, accept_ok_iff] at read
        obtain ⟨rfl, sound⟩ := read
        exact ⟨heads, sound⟩
      · rw [malformed] at read
        cases read
    · rintro ⟨heads, sound⟩
      rw [ofBytes_of_heads heads, accept_ok_iff]
      exact ⟨rfl, sound⟩
  case invalid =>
    intro bytes fault
    constructor
    · intro read
      rcases headed_or_malformed first second bytes with ⟨layout, heads, same⟩ | malformed
      · rw [same, accept_invalid_iff] at read
        exact ⟨layout, heads, read⟩
      · rw [malformed] at read
        cases read
    · rintro ⟨layout, heads, faulty⟩
      rw [ofBytes_of_heads heads, accept_invalid_iff]
      exact faulty
  case malformed =>
    intro bytes
    constructor
    · rintro read ⟨layout, heads⟩
      rw [ofBytes_of_heads heads] at read
      exact accept_ne_malformed read
    · exact ofBytes_of_headless
  case written =>
    intro layout rest fits
    exact ofBytes_of_heads ⟨fits, List.prefix_append _ _⟩
  case cut =>
    intro layout front fits cut short
    exact ofBytes_of_headless fun ⟨_, heads⟩ => cut_headless fits cut short heads
  case distinct =>
    intro layout other fits other_fits starts
    exact heads_unique ⟨fits, starts⟩ ⟨other_fits, List.prefix_refl _⟩

end Layout
end Statechart
