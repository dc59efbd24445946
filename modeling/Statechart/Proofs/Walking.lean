import Mathlib.Logic.Relation
import Statechart.Layout.Binary
import Statechart.Proofs.Coherence

/-!
Walking through a layout. A layout that was read, from whatever text or bytes, can be walked through
without looking where a step leads: no cell of it leads to a missing row. Whether there is a row to
begin with has to be asked once, since a layout without rows is read with any start.
-/
namespace Statechart.Layout

variable {S I : Type}

def Steps (layout : Layout S I) (number next : Nat) : Prop :=
  ∃ row cell, layout.rows[number]? = some row ∧ cell ∈ row.cells ∧ cell.next = next

abbrev Walks (layout : Layout S I) : Nat → Nat → Prop := Relation.ReflTransGen layout.Steps

structure Walkable (layout : Layout S I) : Prop where
  next : ∀ row ∈ layout.rows, ∀ cell ∈ row.cells, ∃ other, layout.rows[cell.next]? = some other
  start : layout.rows ≠ [] → ∃ row, layout.rows[layout.start]? = some row
  walks : layout.rows ≠ [] → ∀ number, layout.Walks layout.start number →
    ∃ row, layout.rows[number]? = some row

variable {layout : Layout S I}

theorem row_exists_iff {number : Nat} :
    (∃ row, layout.rows[number]? = some row) ↔ number < layout.rows.length := by
  simp [List.getElem?_eq_some_iff]

theorem faultless_iff : layout.fault? = none ↔ layout.version = layoutVersion ∧
    (layout.rows ≠ [] → layout.start < layout.rows.length) ∧
    ∀ row ∈ layout.rows, ∀ cell ∈ row.cells, cell.next < layout.rows.length := by
  unfold fault?
  split
  · simp_all
  · rename_i version
    split
    · rename_i outside
      have some : layout.rows ≠ [] := List.ne_nil_of_length_pos outside.1
      have missing : ¬ layout.start < layout.rows.length := Nat.not_lt.mpr outside.2
      simp [some, missing]
    · rename_i inside
      have start : layout.rows ≠ [] → layout.start < layout.rows.length := by
        intro some
        have := List.length_pos_iff.mpr some
        omega
      rw [firstMissing?_eq_none_iff]
      exact ⟨fun next => ⟨Decidable.not_not.mp version, start, next⟩, fun all => all.2.2⟩

theorem row_of_walk (next : ∀ row ∈ layout.rows, ∀ cell ∈ row.cells,
      ∃ other, layout.rows[cell.next]? = some other) {first number : Nat}
    (begins : ∃ row, layout.rows[first]? = some row) (walk : layout.Walks first number) :
    ∃ row, layout.rows[number]? = some row := by
  induction walk with
  | refl => exact begins
  | tail _ step _ =>
    obtain ⟨row, cell, here, member, rfl⟩ := step
    exact next row (List.mem_of_getElem? here) cell member

theorem faultless_iff_walkable :
    layout.fault? = none ↔ layout.version = layoutVersion ∧ layout.Walkable := by
  simp only [faultless_iff, ← row_exists_iff]
  constructor
  · rintro ⟨version, start, next⟩
    exact ⟨version, next, start, fun some _ walk => row_of_walk next (start some) walk⟩
  · rintro ⟨version, walkable⟩
    exact ⟨version, walkable.start, walkable.next⟩

theorem faultless_of_accept {read : Option (Layout S I)} (accepted : accept read = .ok layout) :
    layout.fault? = none := by
  cases read with
  | none => cases accepted
  | some other =>
    cases state : other.fault? with
    | none =>
      rw [accept_sound state, Except.ok.injEq] at accepted
      exact accepted ▸ state
    | some fault =>
      rw [accept_faulty state] at accepted
      cases accepted

/-- A layout that was read from a text or from bytes has no cell that leads to a missing row. If it
has rows at all it starts in one of them, and no walk from there ever leaves them. Nothing else of
the right version is refused. -/
theorem read_layouts_are_walkable [Portable S] [Portable I] :
    (∀ text (layout : Layout S I), parse text = .ok layout → layout.Walkable) ∧
    (∀ bytes (layout : Layout S I), ofBytes bytes = .ok layout → layout.Walkable) ∧
    ∀ layout : Layout S I, layout.Walkable → layout.version = layoutVersion →
      accept (some layout) = .ok layout := by
  refine ⟨fun text layout read => ?_, fun bytes layout read => ?_,
    fun layout walkable version => ?_⟩
  · exact (faultless_iff_walkable.mp (faultless_of_accept read)).2
  · exact (faultless_iff_walkable.mp (faultless_of_accept read)).2
  · exact accept_sound (faultless_iff_walkable.mpr ⟨version, walkable⟩)

def doorLayout : Layout String String where
  version := 1
  start := 1
  rows := [
    { path := ["open"], label := none, cells := [{ input := "push", next := 1, label := none }] },
    { path := ["shut"], label := none, cells := [{ input := "pull", next := 0, label := none }] }]

theorem door_walkable :
    (ofBytes doorLayout.toBytes : Except (LayoutError String) (Layout String String))
      = .ok doorLayout ∧
    ∀ number, doorLayout.Walks 1 number → ∃ row, doorLayout.rows[number]? = some row := by
  have read : (ofBytes doorLayout.toBytes : Except (LayoutError String) (Layout String String))
      = .ok doorLayout := by decide
  have walkable := read_layouts_are_walkable.2.1 _ _ read
  exact ⟨read, walkable.walks (by decide)⟩

def vacantLayout : Layout String String where
  version := 1
  start := 5
  rows := []

theorem vacant_layout_starts_nowhere :
    (parse "\x7b\"version\":1,\"start\":5,\"states\":[]\x7d" :
      Except (LayoutError String) (Layout String String)) = .ok vacantLayout ∧
    (ofBytes vacantLayout.toBytes : Except (LayoutError String) (Layout String String))
      = .ok vacantLayout ∧
    ¬ ∃ row, vacantLayout.rows[vacantLayout.start]? = some row := by
  refine ⟨?_, ?_, ?_⟩
  · decide +kernel
  · decide
  · simp [vacantLayout]

end Statechart.Layout
