import Statechart.Proofs.Coherence
import Statechart.Proofs.Listing
import Statechart.Proofs.Steadiness

/-!
Rebuilding a table from the moves of its chart. The rebuilt table numbers its rows in another order
and has none for a leaf that it never comes to. Rows of one path correspond, and from rows that
correspond both tables show the same.
-/
namespace Statechart

/-- What a table shows in a row: the row's path and label, and the label of the cell that led there
with what its action wrote, or nothing where the last input was ignored. -/
structure Scene (S : Type) where
  path : Path S
  label : Option String
  taken : Option (Option String × List Entry)
  deriving DecidableEq, Repr

def Cell.shown {I : Type} (cell : Cell I) : Option String × List Entry :=
  (cell.label, (cell.action.run {}).entries.toList)

namespace Table

section Playing

variable {S I : Type} [DecidableEq S] [Hashable S] [DecidableEq I] [Hashable I]

def scene? (table : Table S I) (number : Nat) (taken : Option (Cell I)) : Option (Scene S) := do
  let row ← table.row? number
  return ⟨row.path, row.label, taken.map Cell.shown⟩

/-- The scene after each input, from a row on; fails where a row is missing. -/
def scenes? (table : Table S I) (number : Nat) : List I → Option (List (Scene S))
  | [] => some []
  | input :: inputs => do
    let taken := table.cell? number input
    let next := (taken.map Cell.next).getD number
    let here ← table.scene? next taken
    let later ← table.scenes? next inputs
    return here :: later

def play? (table : Table S I) (inputs : List I) : Option (List (Scene S)) := do
  let first ← table.scene? table.start none
  let later ← table.scenes? table.start inputs
  return first :: later

end Playing

variable {S I : Type} [DecidableEq S] [Hashable S] [DecidableEq I] [Hashable I]

def Corresponds (first second : Table S I) (k j : Nat) : Prop :=
  ∃ path, first.rowOf? path = some k ∧ second.rowOf? path = some j

variable [Named S] [Named I] {options : Options} {moves : List (Move S I)}
  {first second : Table S I}

theorem scene_of_corresponds (tells : first.Tells options moves)
    (tellsSecond : second.Tells options moves) {k j : Nat} (same : Corresponds first second k j)
    (taken other : Option (Cell I)) (alike : taken.map Cell.shown = other.map Cell.shown) :
    ∃ scene, first.scene? k taken = some scene ∧ second.scene? j other = some scene := by
  obtain ⟨path, place, placeSecond⟩ := same
  obtain ⟨row, here, rfl⟩ := (rowOf?_iff tells).mp place
  obtain ⟨twin, there, path⟩ := (rowOf?_iff tellsSecond).mp placeSecond
  have label : twin.label = row.label := by
    rw [tells.labels k row here, tellsSecond.labels j twin there, path]
  refine ⟨_, by rw [scene?, row?, here]; rfl, ?_⟩
  rw [scene?, row?, there, ← alike, Option.bind_eq_bind, Option.bind_some, path, label]
  rfl

theorem cell?_of_corresponds (tells : first.Tells options moves)
    (tellsSecond : second.Tells options moves) {k j : Nat} (same : Corresponds first second k j)
    (input : I) : (first.cell? k input = none ∧ second.cell? j input = none) ∨
      ∃ cell other, first.cell? k input = some cell ∧ second.cell? j input = some other ∧
        cell.label = other.label ∧ cell.action = other.action ∧
        Corresponds first second cell.next other.next := by
  obtain ⟨path, place, placeSecond⟩ := same
  obtain ⟨row, here, rfl⟩ := (rowOf?_iff tells).mp place
  obtain ⟨twin, there, path⟩ := (rowOf?_iff tellsSecond).mp placeSecond
  cases found : first.cell? k input with
  | some cell =>
    obtain ⟨m, member, source, rfl, told⟩ := (cell?_iff tells here).mp found
    obtain ⟨other, foundSecond, toldSecond⟩ :=
      cell?_of_move tellsSecond member (source ▸ placeSecond)
    exact Or.inr ⟨cell, other, rfl, foundSecond, told.label.trans toldSecond.label.symm,
      told.action.trans toldSecond.action.symm, m.target, told.next, toldSecond.next⟩
  | none =>
    cases foundSecond : second.cell? j input with
    | none => exact Or.inl ⟨rfl, rfl⟩
    | some other =>
      obtain ⟨m, member, source, rfl, _⟩ := (cell?_iff tellsSecond there).mp foundSecond
      obtain ⟨cell, known, _⟩ := cell?_of_move tells member (source.trans path ▸ place)
      rw [found] at known
      cases known

theorem scenes_of_corresponds (tells : first.Tells options moves)
    (tellsSecond : second.Tells options moves) (inputs : List I) {k j : Nat}
    (same : Corresponds first second k j) :
    ∃ scenes, first.scenes? k inputs = some scenes ∧ second.scenes? j inputs = some scenes := by
  induction inputs generalizing k j with
  | nil => exact ⟨[], rfl, rfl⟩
  | cons input inputs ih =>
    rcases cell?_of_corresponds tells tellsSecond same input with ⟨ignored, ignoredSecond⟩ |
      ⟨cell, other, found, foundSecond, label, action, sameNext⟩
    · obtain ⟨scene, here, there⟩ := scene_of_corresponds tells tellsSecond same none none rfl
      obtain ⟨later, run, runSecond⟩ := ih same
      refine ⟨scene :: later, ?_, ?_⟩
      · simp [scenes?, ignored, here, run]
      · simp [scenes?, ignoredSecond, there, runSecond]
    · have alike : (some cell).map Cell.shown = (some other).map Cell.shown := by
        simp [Cell.shown, label, action]
      obtain ⟨scene, here, there⟩ :=
        scene_of_corresponds tells tellsSecond sameNext (some cell) (some other) alike
      obtain ⟨later, run, runSecond⟩ := ih sameNext
      refine ⟨scene :: later, ?_, ?_⟩
      · simp [scenes?, found, here, run]
      · simp [scenes?, foundSecond, there, runSecond]

theorem play_of_corresponds (tells : first.Tells options moves)
    (tellsSecond : second.Tells options moves)
    (same : Corresponds first second first.start second.start) (inputs : List I) :
    ∃ scenes, first.play? inputs = some scenes ∧ second.play? inputs = some scenes := by
  obtain ⟨scene, here, there⟩ := scene_of_corresponds tells tellsSecond same none none rfl
  obtain ⟨later, run, runSecond⟩ := scenes_of_corresponds tells tellsSecond inputs same
  exact ⟨scene :: later, by simp [play?, here, run], by simp [play?, there, runSecond]⟩

theorem rowOf?_of_paths (tells : first.Tells options moves)
    (tellsSecond : second.Tells options moves) (paths : first.paths = second.paths)
    (path : Path S) : first.rowOf? path = second.rowOf? path := by
  apply Option.ext
  intro k
  rw [rowOf?, rowOf?, tells.paths path k, tellsSecond.paths path k, paths]

theorem cells_layout (tells : first.Tells options moves) {k : Nat} {row : Row S I}
    (here : first.rows[k]? = some row) :
    row.cells.toList.map Cell.layout = (moves.filter fun m => m.source = row.path).map fun m =>
      ⟨m.input, (first.rowOf? m.target).getD 0,
        options.label (m.source.arrow m.input m.target)⟩ := by
  symm
  apply map_eq_of_forall₂
  refine (tells.cells k row here).imp fun m cell told => ?_
  rw [told.next, Cell.layout, told.input, told.label]
  rfl

theorem layout_of_paths (tells : first.Tells options moves)
    (tellsSecond : second.Tells options moves) (paths : first.paths = second.paths)
    (start : first.start = second.start) : first.layout = second.layout := by
  have rows : first.rows.toList.map Row.layout = second.rows.toList.map Row.layout := by
    apply List.ext_getElem?
    intro k
    have path : (first.rows[k]?).map Row.path = (second.rows[k]?).map Row.path := by
      rw [← paths_getElem?, ← paths_getElem?, paths]
    rw [List.getElem?_map, List.getElem?_map, Array.getElem?_toList, Array.getElem?_toList]
    cases here : first.rows[k]? with
    | none =>
      rw [here, Option.map_none, eq_comm, Option.map_eq_none_iff] at path
      rw [path]
    | some row =>
      rw [here, Option.map_some, eq_comm, Option.map_eq_some_iff] at path
      obtain ⟨twin, there, path⟩ := path
      rw [there, Option.map_some, Option.map_some, Row.layout, Row.layout, cells_layout tells here,
        cells_layout tellsSecond there, tells.labels k row here, tellsSecond.labels k twin there,
        path]
      simp only [rowOf?_of_paths tells tellsSecond paths]
  rw [layout, layout, start, rows]

theorem rowOf?_eq_none_iff {start : Path S} {table : Table S I}
    (assembled : Assembled start moves options table) {path : Path S} :
    table.rowOf? path = none ↔
      path ≠ start ∧ ∀ m ∈ moves, path ≠ m.source ∧ path ≠ m.target := by
  rw [rowOf?, ← assembled.tells.paths.fresh_iff, assembled.paths, List.mem_eraseDups]
  simp only [List.mem_append, List.mem_cons, List.mem_map, not_or, not_exists, not_and]
  constructor
  · rintro ⟨⟨differ, sources⟩, targets⟩
    exact ⟨differ, fun m member =>
      ⟨fun same => sources m member same.symm, fun same => targets m member same.symm⟩⟩
  · rintro ⟨differ, apart⟩
    exact ⟨⟨differ, fun m member same => (apart m member).1 same.symm⟩,
      fun m member same => (apart m member).2 same.symm⟩

theorem paths_of_assembled {start : Path S} {table : Table S I}
    (assembled : Assembled start moves options table) {others : List (Path S)}
    (distinct : (start :: others).Nodup)
    (grouped : ((start :: others).flatMap fun path =>
      moves.filter fun m => m.source = path) = moves)
    (targets : ∀ m ∈ moves, m.target ∈ start :: others)
    (present : ∀ path ∈ others, ∃ m ∈ moves, m.source = path) :
    table.paths = start :: others := by
  have own : ∀ path, ∀ other ∈ (moves.filter fun m => m.source = path).map Move.source,
      other = path := by
    intro path other member
    obtain ⟨m, among, rfl⟩ := List.mem_map.mp member
    exact of_decide_eq_true (List.mem_filter.mp among).2
  have nonempty : ∀ path ∈ others,
      (moves.filter fun m => m.source = path).map Move.source ≠ [] := by
    intro path member
    obtain ⟨m, among, source⟩ := present path member
    have kept : m ∈ moves.filter fun m => m.source = path :=
      List.mem_filter.mpr ⟨among, decide_eq_true source⟩
    exact List.ne_nil_of_mem (List.mem_map_of_mem kept)
  have sources : moves.map Move.source = (start :: others).flatMap fun path =>
      (moves.filter fun m => m.source = path).map Move.source := by
    rw [← List.map_flatMap, grouped]
  have first : ((moves.filter fun m => m.source = start).map Move.source).foldl grown [start]
      = [start] := foldl_grown_of_known fun other member => by simp [own start other member]
  rw [assembled.paths, ← foldl_grown_eq_eraseDups, List.foldl_append, List.foldl_cons, sources,
    List.flatMap_cons, List.foldl_append]
  have alone : grown [] start = [start] := rfl
  have apart : ([start] ++ others).Nodup := distinct
  rw [alone, first, foldl_grown_copies _ own nonempty apart]
  exact foldl_grown_of_known (List.forall_mem_map.mpr targets)

end Table

namespace Chart

variable {S I : Type} [DecidableEq S] [Hashable S] [DecidableEq I] [Hashable I]
  [Named S] [Named I]

theorem leaf_left_of_declares {chart : Chart S I} {root : Fin chart.size} {options : Options}
    (accepted : chart.check root = .ok ())
    (declares : ∀ state ∈ (chart.level root).states, state.transitions ≠ [])
    {leaves : List (Leaf S I)} (unrolled : chart.leaves root = .ok leaves) {moves : List (Move S I)}
    {journal after : Journal} (run : (chart.moves root options).run journal = (.ok moves, after)) :
    ∀ leaf ∈ leaves, ∃ m ∈ moves, m.source = leaf.path := by
  have wellformed := check_ok_iff.mp accepted
  obtain ⟨_, unrolledSame, records⟩ := leaves_records wellformed
  have made := Compilation.holds_of_makes (moves_makes accepted options) run
  rw [unrolled, Except.ok.injEq] at unrolledSame
  subst unrolledSame
  intro leaf member
  obtain ⟨trail, among, record⟩ := forall₂_mem_right records member
  have leads := (mem_trails wellformed (clear_nil root)).mp among
  have path : leaf.path = trail.path := records_path record
  have first : ∃ stop ∈ trail, stop.state ∈ (chart.level root).states := by
    cases leads with
    | leaf inside _ => exact ⟨_, List.mem_cons_self, inside⟩
    | deeper inside _ _ => exact ⟨_, List.mem_cons_self, inside⟩
  obtain ⟨stop, member, inside⟩ := first
  obtain ⟨t, declared⟩ := List.exists_mem_of_ne_nil _ (declares stop.state inside)
  have loud : ¬ trail.Silent t.input := fun silent => silent stop member t declared rfl
  obtain ⟨m, chosen, _, _, _, carries⟩ := move_of_trail wellformed made leads loud
  exact ⟨m, chosen, carries.source.trans path.symm⟩

/-- The table that is rebuilt from the moves of a checked chart without lazy hooks shows the same as
the chart's own on all inputs. It lacks the leaves that are not the start and that no move leaves or
comes to; where every other leaf has a move, the two have one layout. -/
theorem rebuilt_table_plays_alike (chart : Chart S I) (root : Fin chart.size) (options : Options)
    (journal other : Journal) (accepted : chart.check root = .ok ()) (fixed : chart.Fixed root) :
    ∃ start leaves moves rebuilt table, chart.initial root = .ok start ∧
      chart.leaves root = .ok leaves ∧
      (chart.moves root options).run journal = (.ok moves, journal) ∧
      Table.ofMoves start moves options = .ok rebuilt ∧
      (chart.table root options).run other = (.ok table, other) ∧
      (∀ inputs, ∃ scenes, rebuilt.play? inputs = some scenes ∧ table.play? inputs = some scenes) ∧
      (∀ leaf ∈ leaves, rebuilt.rowOf? leaf.path = none ↔
        leaf.path ≠ start ∧ ∀ m ∈ moves, leaf.path ≠ m.source ∧ leaf.path ≠ m.target) ∧
      ((∀ leaf ∈ leaves, leaf.path ≠ start → ∃ m ∈ moves, m.source = leaf.path) →
        rebuilt.layout = table.layout) := by
  have wellformed := check_ok_iff.mp accepted
  obtain ⟨leaves, unrolled, records⟩ := leaves_records wellformed
  obtain ⟨moves, table, after, run, runTable, tabled⟩ := table_run accepted options other
  have steady := Compilation.result_of_steady (moves_steady accepted fixed options) run
  obtain ⟨trail, trails, head, lands⟩ := trails_head wellformed (clear_nil root)
  obtain ⟨rebuilt, made, assembled⟩ := Table.ofMoves_of_distinct trail.path options
    (moves_keys_nodup wellformed tabled.made)
  have unbound : after = other := congrArg Prod.snd (run.symm.trans (steady other))
  have paths : table.paths = trail.path :: trails.map Trail.path := by
    rw [tabled.paths, head, List.map_cons]
  have leafPaths : leaves.map Leaf.path = trail.path :: trails.map Trail.path := by
    rw [paths_of_records records, head, List.map_cons]
  refine ⟨trail.path, leaves, moves, rebuilt, table, landing_of_lands wellformed lands, unrolled,
    steady journal, made, unbound ▸ runTable, ?_, ?_, ?_⟩
  · have coherent := Table.coherent_of_ofMoves made
    have coherentOwn : table.Coherent trail.path :=
      Table.coherent_of_tells tabled.tells tabled.start (by rw [paths]; rfl)
    have same : Table.Corresponds rebuilt table rebuilt.start table.start :=
      ⟨trail.path, Table.rowOf?_start coherent, Table.rowOf?_start coherentOwn⟩
    exact Table.play_of_corresponds assembled.tells tabled.tells same
  · exact fun leaf _ => Table.rowOf?_eq_none_iff assembled
  · intro present
    have distinct := trails_paths_nodup wellformed (clear_nil root)
    have grouped := moves_in_order wellformed tabled.made
    have ends := ends_of_moves wellformed tabled.made
    rw [head, List.map_cons] at distinct grouped ends
    have order : rebuilt.paths = trail.path :: trails.map Trail.path := by
      apply Table.paths_of_assembled assembled distinct grouped fun m member => (ends m member).2
      intro path later
      have member : path ∈ leaves.map Leaf.path := leafPaths ▸ List.mem_cons_of_mem _ later
      obtain ⟨leaf, among, rfl⟩ := List.mem_map.mp member
      exact present leaf among fun same => (List.nodup_cons.mp distinct).1 (same ▸ later)
    exact Table.layout_of_paths assembled.tells tabled.tells (order.trans paths.symm)
      (assembled.start.trans tabled.start.symm)

theorem lamp_rebuilt_plays_alike : ∃ start leaves moves rebuilt table,
    lamp.initial lampRoot = .ok start ∧ lamp.leaves lampRoot = .ok leaves ∧
    (lamp.moves lampRoot {}).run {} = (.ok moves, {}) ∧
    Table.ofMoves start moves {} = .ok rebuilt ∧
    (lamp.table lampRoot {}).run {} = (.ok table, {}) ∧
    (∃ scenes, rebuilt.play? ["switch", "dim", "hum", "switch"] = some scenes ∧
      table.play? ["switch", "dim", "hum", "switch"] = some scenes) ∧
    rebuilt.layout = table.layout := by
  obtain ⟨start, leaves, moves, rebuilt, table, initial, unrolled, run, made, runTable, plays, _,
    layouts⟩ := rebuilt_table_plays_alike lamp lampRoot {} {} {} lamp_accepted lamp_fixed
  have declares : ∀ state ∈ (lamp.level lampRoot).states, state.transitions ≠ [] := by decide
  have left := leaf_left_of_declares lamp_accepted declares unrolled run
  exact ⟨start, leaves, moves, rebuilt, table, initial, unrolled, run, made, runTable, plays _,
    layouts fun leaf member _ => left leaf member⟩

end Chart
end Statechart
