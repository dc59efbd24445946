import Statechart.Flat.Table
import Statechart.Proofs.Moves

/-!
Tables tell moves. While a table is filled its indexes stay in step with its rows and cells, rows
are only added at the end, and each row keeps exactly the moves from its path, in order.
-/
namespace Statechart

namespace Row

variable {S I : Type} [DecidableEq I] [Hashable I]

def inputs (row : Row S I) : List I := row.cells.toList.map Cell.input

theorem cell?_iff {row : Row S I} (indexed : Points row.byInput row.inputs) {input : I}
    {cell : Cell I} :
    row.cell? input = some cell ↔ cell ∈ row.cells.toList ∧ cell.input = input := by
  have place : ∀ k, row.byInput[input]? = some k ↔
      ∃ other, row.cells[k]? = some other ∧ other.input = input := by
    intro k
    rw [indexed, inputs, List.getElem?_map, Array.getElem?_toList, Option.map_eq_some_iff]
  simp only [cell?, Option.bind_eq_bind, Option.bind_eq_some_iff, place]
  constructor
  · intro ⟨k, ⟨other, here, named⟩, found⟩
    rw [here, Option.some.injEq] at found
    subst found
    exact ⟨List.mem_iff_getElem?.mpr ⟨k, by simpa using here⟩, named⟩
  · intro ⟨member, named⟩
    obtain ⟨k, here⟩ := List.mem_iff_getElem?.mp member
    rw [Array.getElem?_toList] at here
    exact ⟨k, ⟨cell, here, named⟩, here⟩

theorem cell?_eq_none {row : Row S I} (indexed : Points row.byInput row.inputs) {input : I}
    (fresh : input ∉ row.inputs) : row.cell? input = none := by
  rw [indexed.fresh_iff] at fresh
  simp only [cell?, fresh, Option.bind_eq_bind, Option.bind_none]

theorem inputs_push (row : Row S I) (cell : Cell I) :
    (row.push cell).inputs = row.inputs ++ [cell.input] := by
  simp [inputs, push]

theorem points_push {row : Row S I} (indexed : Points row.byInput row.inputs) {cell : Cell I}
    (fresh : cell.input ∉ row.inputs) : Points (row.push cell).byInput (row.push cell).inputs := by
  have size : row.cells.size = row.inputs.length := by simp [inputs]
  rw [inputs_push, push, size]
  exact indexed.insert fresh

end Row

namespace Table

variable {S I : Type} [DecidableEq S]

def grown (paths : List (Path S)) (path : Path S) : List (Path S) :=
  if path ∈ paths then paths else paths ++ [path]

theorem foldl_grown_of_known {paths more : List (Path S)} (known : ∀ path ∈ more, path ∈ paths) :
    more.foldl grown paths = paths := by
  induction more with
  | nil => rfl
  | cons path more ih =>
    rw [List.foldl_cons, grown, if_pos (known path List.mem_cons_self)]
    exact ih fun other member => known other (List.mem_cons_of_mem path member)

theorem foldl_grown_copies (copies : Path S → List (Path S))
    (own : ∀ path, ∀ other ∈ copies path, other = path) {paths before : List (Path S)}
    (present : ∀ path ∈ paths, copies path ≠ []) (distinct : (before ++ paths).Nodup) :
    (paths.flatMap copies).foldl grown before = before ++ paths := by
  induction paths generalizing before with
  | nil => simp
  | cons path paths ih =>
    have regrouped : before ++ path :: paths = before ++ [path] ++ paths := by simp
    have fresh : path ∉ before := fun member =>
      (List.nodup_append'.mp distinct).2.2 member List.mem_cons_self
    have first : (copies path).foldl grown before = before ++ [path] := by
      obtain ⟨other, rest, split⟩ := List.exists_cons_of_ne_nil (present path List.mem_cons_self)
      have named : other = path := own path other (by simp [split])
      rw [split, List.foldl_cons, named, grown, if_neg fresh]
      apply foldl_grown_of_known
      intro another member
      rw [own path another (by simp [split, member])]
      simp
    rw [regrouped] at distinct ⊢
    rw [List.flatMap_cons, List.foldl_append, first]
    exact ih (fun other member => present other (List.mem_cons_of_mem path member)) distinct

theorem foldl_grown_of_nodup {paths more : List (Path S)} (distinct : (paths ++ more).Nodup) :
    more.foldl grown paths = paths ++ more := by
  have alone := foldl_grown_copies (fun path => [path]) (by simp) (by simp) distinct
  simpa using alone

theorem mem_grown {paths : List (Path S)} {path other : Path S} :
    other ∈ grown paths path ↔ other ∈ paths ∨ other = path := by
  unfold grown
  split
  · rename_i known
    exact ⟨Or.inl, fun either => either.elim id fun same => same ▸ known⟩
  · rw [List.mem_append, List.mem_singleton]

theorem foldl_grown_targets {moves : List (Move S I)} {paths : List (Path S)}
    (sources : ∀ m ∈ moves, m.source ∈ paths) :
    moves.foldl (fun paths m => grown (grown paths m.target) m.source) paths
      = (moves.map Move.target).foldl grown paths := by
  induction moves generalizing paths with
  | nil => rfl
  | cons m moves ih =>
    have kept : ∀ other ∈ m :: moves, other.source ∈ grown paths m.target :=
      fun other member => mem_grown.mpr (Or.inl (sources other member))
    have step : grown (grown paths m.target) m.source = grown paths m.target :=
      if_pos (kept m List.mem_cons_self)
    rw [List.foldl_cons, step, List.map_cons, List.foldl_cons]
    exact ih fun other member => kept other (List.mem_cons_of_mem m member)

end Table

variable {S I : Type} [DecidableEq S] [Hashable S] [DecidableEq I] [Hashable I]

namespace Table

def paths (table : Table S I) : List (Path S) := table.rows.toList.map Row.path

theorem paths_getElem? (table : Table S I) (k : Nat) :
    table.paths[k]? = (table.rows[k]?).map Row.path := by
  rw [paths, List.getElem?_map, Array.getElem?_toList]

theorem path_mem {table : Table S I} {k : Nat} {row : Row S I} (here : table.rows[k]? = some row) :
    row.path ∈ table.paths := by
  apply List.mem_of_getElem? (i := k)
  rw [paths_getElem?, here]
  rfl

variable [Named S] [Named I]

/-- The cell tells where the move goes on its input, by the row of its target. -/
structure CellOf (options : Options) (table : Table S I) (m : Move S I) (cell : Cell I) : Prop where
  input : cell.input = m.input
  next : table.rowOf? m.target = some cell.next
  action : cell.action = m.action
  label : cell.label = options.label (m.source.arrow m.input m.target)

/-- The indexes are in step, and every row has the cells of the moves from its path. -/
structure Tells (options : Options) (moves : List (Move S I)) (table : Table S I) : Prop where
  paths : Points table.byPath table.paths
  inputs : ∀ (k : Nat) (row : Row S I), table.rows[k]? = some row → Points row.byInput row.inputs
  labels : ∀ (k : Nat) (row : Row S I), table.rows[k]? = some row →
    row.label = options.label row.path.dotted
  sources : ∀ m ∈ moves, m.source ∈ table.paths
  cells : ∀ (k : Nat) (row : Row S I), table.rows[k]? = some row →
    List.Forall₂ (CellOf options table) (moves.filter fun m => m.source = row.path) row.cells.toList

variable {options : Options} {moves : List (Move S I)} {table : Table S I}

theorem tells_nil : Tells options ([] : List (Move S I)) {} :=
  ⟨.nil, by simp, by simp, nofun, by simp⟩

theorem rowOf?_iff (tells : table.Tells options moves) {path : Path S} {k : Nat} :
    table.rowOf? path = some k ↔ ∃ row, table.rows[k]? = some row ∧ row.path = path := by
  rw [rowOf?, tells.paths, paths_getElem?, Option.map_eq_some_iff]

theorem cellOf_unique {m : Move S I} {cell other : Cell I} (first : CellOf options table m cell)
    (second : CellOf options table m other) : cell = other := by
  have next : cell.next = other.next := Option.some.inj (first.next.symm.trans second.next)
  have input := first.input.trans second.input.symm
  have action := first.action.trans second.action.symm
  have label := first.label.trans second.label.symm
  cases cell
  cases other
  rw [Cell.mk.injEq]
  exact ⟨input, next, action, label⟩

theorem cellOf_kept {after : Table S I}
    (kept : ∀ path k, table.rowOf? path = some k → after.rowOf? path = some k) {m : Move S I}
    {cell : Cell I} (told : CellOf options table m cell) : CellOf options after m cell :=
  ⟨told.input, kept _ _ told.next, told.action, told.label⟩

theorem inputs_of_cells {moves : List (Move S I)} {cells : List (Cell I)}
    (each : List.Forall₂ (CellOf options table) moves cells) :
    cells.map Cell.input = moves.map Move.input :=
  (map_eq_of_forall₂ (each.imp fun _ _ told => told.input.symm)).symm

theorem cell?_iff (tells : table.Tells options moves) {k : Nat} {row : Row S I}
    (here : table.rows[k]? = some row) {input : I} {cell : Cell I} :
    table.cell? k input = some cell ↔
      ∃ m ∈ moves, m.source = row.path ∧ m.input = input ∧ CellOf options table m cell := by
  simp only [cell?, row?, here, Option.bind_eq_bind, Option.bind_some,
    Row.cell?_iff (tells.inputs k row here)]
  have cells := tells.cells k row here
  constructor
  · intro ⟨member, named⟩
    obtain ⟨m, memberMove, told⟩ := forall₂_mem_right cells member
    obtain ⟨among, source⟩ := List.mem_filter.mp memberMove
    exact ⟨m, among, of_decide_eq_true source, told.input.symm.trans named, told⟩
  · intro ⟨m, among, source, named, told⟩
    have memberMove : m ∈ moves.filter fun m => m.source = row.path :=
      List.mem_filter.mpr ⟨among, decide_eq_true source⟩
    obtain ⟨other, member, toldOther⟩ := forall₂_mem_left cells memberMove
    rw [cellOf_unique told toldOther]
    exact ⟨member, toldOther.input.trans named⟩

theorem cell?_of_move (tells : table.Tells options moves) {m : Move S I} (member : m ∈ moves)
    {k : Nat} (place : table.rowOf? m.source = some k) :
    ∃ cell, table.cell? k m.input = some cell ∧ CellOf options table m cell := by
  obtain ⟨row, here, path⟩ := (rowOf?_iff tells).mp place
  have among : m ∈ moves.filter fun m => m.source = row.path :=
    List.mem_filter.mpr ⟨member, decide_eq_true path.symm⟩
  obtain ⟨cell, _, told⟩ := forall₂_mem_left (tells.cells k row here) among
  exact ⟨cell, (cell?_iff tells here).mpr ⟨m, member, path.symm, rfl, told⟩, told⟩

theorem rowOf?_mem (tells : table.Tells options moves) {path : Path S} :
    path ∈ table.paths ↔ ∃ k, table.rowOf? path = some k :=
  tells.paths.mem_iff

omit [Named S] [Named I] in
theorem paths_push (table : Table S I) (row : Row S I) (byPath : Std.HashMap (Path S) Nat) :
    Table.paths { table with rows := table.rows.push row, byPath } = table.paths ++ [row.path] := by
  simp [paths]

theorem tells_push (tells : table.Tells options moves) {path : Path S}
    (fresh : path ∉ table.paths) : Tells options moves { table with
      rows := table.rows.push { path, label := options.label path.dotted }
      byPath := table.byPath.insert path table.rows.size } := by
  have kept : ∀ other k, table.rowOf? other = some k →
      (table.byPath.insert path table.rows.size)[other]? = some k := by
    intro other k here
    have differ : path ≠ other := fun same => fresh (same ▸ (rowOf?_mem tells).mpr ⟨k, here⟩)
    rw [Std.HashMap.getElem?_insert, if_neg (by simpa using differ)]
    exact here
  have rows : ∀ (k : Nat) (row : Row S I),
      (table.rows.push { path, label := options.label path.dotted })[k]? = some row →
        table.rows[k]? = some row ∨ row = { path, label := options.label path.dotted } := by
    intro k row here
    rw [Array.getElem?_push] at here
    split at here
    · exact Or.inr (Option.some.inj here).symm
    · exact Or.inl here
  constructor
  · have size : table.rows.size = table.paths.length := by simp [paths]
    rw [paths_push, size]
    exact tells.paths.insert fresh
  · intro k row here
    rcases rows k row here with old | new
    · exact tells.inputs k row old
    · rw [new]
      exact .nil
  · intro k row here
    rcases rows k row here with old | new
    · exact tells.labels k row old
    · rw [new]
  · intro m member
    rw [paths_push]
    exact List.mem_append_left _ (tells.sources m member)
  · intro k row here
    rcases rows k row here with old | new
    · exact (tells.cells k row old).imp fun _ _ => cellOf_kept kept
    · have none : (moves.filter fun m => m.source = row.path) = [] := by
        apply List.filter_eq_nil_iff.mpr
        intro m member source
        have path : m.source = path := by simpa [new] using source
        exact fresh (path ▸ tells.sources m member)
      rw [none, new]
      exact .nil

theorem place_spec (tells : table.Tells options moves) (path : Path S) :
    ∃ number after, table.place options path = (number, after) ∧ after.Tells options moves ∧
      after.rowOf? path = some number ∧ after.paths = grown table.paths path ∧
      after.start = table.start := by
  unfold place
  cases found : table.rowOf? path with
  | some number =>
    have known : path ∈ table.paths := (rowOf?_mem tells).mpr ⟨number, found⟩
    exact ⟨number, table, rfl, tells, found, by rw [grown, if_pos known], rfl⟩
  | none =>
    have fresh : path ∉ table.paths := tells.paths.fresh_iff.mpr found
    refine ⟨_, _, rfl, tells_push tells fresh, ?_, ?_, rfl⟩
    · simp [rowOf?]
    · rw [paths_push, grown, if_neg fresh]

theorem placeAll_spec (tells : table.Tells options moves) (paths : List (Path S)) :
    (table.placeAll options paths).Tells options moves ∧
      (table.placeAll options paths).paths = paths.foldl grown table.paths ∧
      (table.placeAll options paths).start = table.start := by
  induction paths generalizing table with
  | nil => exact ⟨tells, rfl, rfl⟩
  | cons path paths ih =>
    obtain ⟨number, after, run, tellsAfter, _, grow, start⟩ := place_spec tells path
    have step : table.placeAll options (path :: paths) = after.placeAll options paths := by
      rw [placeAll, List.foldl_cons, run]
      rfl
    have later := ih tellsAfter
    rw [step, List.foldl_cons, ← grow, ← start]
    exact later

theorem rowOf?_grown {after : Table S I} {later : List (Move S I)}
    (tells : table.Tells options moves) (tellsAfter : after.Tells options later) {path : Path S}
    (grow : after.paths = grown table.paths path) {other : Path S} {k : Nat}
    (here : table.rowOf? other = some k) : after.rowOf? other = some k := by
  have place : table.paths[k]? = some other := (tells.paths other k).mp here
  apply (tellsAfter.paths other k).mpr
  rw [grow, grown]
  split
  · exact place
  · rw [List.getElem?_append_left (List.getElem?_eq_some_iff.mp place).1]
    exact place

omit [Named S] [Named I] in
theorem paths_modify (table : Table S I) (number : Nat) (cell : Cell I) :
    Table.paths { table with rows := table.rows.modify number (·.push cell) } = table.paths := by
  apply List.ext_getElem?
  intro k
  rw [paths_getElem?, paths_getElem?, Array.getElem?_modify]
  split
  · rw [Option.map_map]
    rfl
  · rfl

theorem tells_modify (tells : table.Tells options moves) {number : Nat} {row : Row S I}
    (here : table.rows[number]? = some row) {m : Move S I} (source : row.path = m.source)
    {cell : Cell I} (told : CellOf options table m cell) (fresh : m.input ∉ row.inputs) :
    Tells options (moves ++ [m])
      { table with rows := table.rows.modify number (·.push cell) } := by
  have rows : ∀ (k : Nat) (other : Row S I),
      (table.rows.modify number (·.push cell))[k]? = some other →
        k = number ∧ other = row.push cell ∨ k ≠ number ∧ table.rows[k]? = some other := by
    intro k other there
    rw [getElem?_modify_at here] at there
    split at there
    · rename_i same
      exact Or.inl ⟨same.symm, (Option.some.inj there).symm⟩
    · rename_i differ
      exact Or.inr ⟨fun same => differ same.symm, there⟩
  have kept : ∀ other otherCell, CellOf options table other otherCell → CellOf options
      { table with rows := table.rows.modify number (·.push cell) } other otherCell := by
    intro other otherCell told
    refine cellOf_kept ?_ told
    exact fun _ _ here => here
  constructor
  · rw [paths_modify]
    exact tells.paths
  · intro k other there
    rcases rows k other there with ⟨_, rfl⟩ | ⟨_, old⟩
    · exact Row.points_push (tells.inputs number row here) (told.input ▸ fresh)
    · exact tells.inputs k other old
  · intro k other there
    rcases rows k other there with ⟨_, rfl⟩ | ⟨_, old⟩
    · exact tells.labels number row here
    · exact tells.labels k other old
  · intro other member
    rw [paths_modify]
    rcases List.mem_append.mp member with old | new
    · exact tells.sources other old
    · rw [List.mem_singleton.mp new, ← source]
      exact path_mem here
  · intro k other there
    rw [List.filter_append]
    rcases rows k other there with ⟨_, rfl⟩ | ⟨differ, old⟩
    · have own : [m].filter (fun m => m.source = (row.push cell).path) = [m] := by
        simp [Row.push, source]
      have cells : (row.push cell).cells.toList = row.cells.toList ++ [cell] := by simp [Row.push]
      rw [own, cells]
      refine List.rel_append ?_ (.cons (kept m cell told) .nil)
      exact (tells.cells number row here).imp kept
    · have apart : m.source ≠ other.path := by
        intro same
        have first := (rowOf?_iff tells).mpr ⟨row, here, source⟩
        have second := (rowOf?_iff tells).mpr ⟨other, old, same.symm⟩
        rw [first, Option.some.injEq] at second
        exact differ second.symm
      have none : [m].filter (fun m => m.source = other.path) = [] := by simp [apart]
      rw [none, List.append_nil]
      exact (tells.cells k other old).imp kept

theorem input_fresh (tells : table.Tells options moves) {k : Nat} {row : Row S I}
    (here : table.rows[k]? = some row) {input : I}
    (fresh : (row.path, input) ∉ moves.map Move.key) :
    input ∉ row.inputs := by
  intro member
  rw [Row.inputs, inputs_of_cells (tells.cells k row here)] at member
  obtain ⟨m, among, rfl⟩ := List.mem_map.mp member
  obtain ⟨among, source⟩ := List.mem_filter.mp among
  rw [← of_decide_eq_true source] at fresh
  exact fresh (List.mem_map_of_mem among)

theorem add_spec (tells : table.Tells options moves) {m : Move S I}
    (fresh : m.key ∉ moves.map Move.key) :
    ∃ after, table.add options m = .ok after ∧ after.Tells options (moves ++ [m]) ∧
      after.paths = grown (grown table.paths m.target) m.source ∧ after.start = table.start := by
  obtain ⟨next, middle, runTarget, tellsMiddle, target, growTarget, startMiddle⟩ :=
    place_spec tells m.target
  obtain ⟨number, after, runSource, tellsAfter, source, growSource, startAfter⟩ :=
    place_spec tellsMiddle m.source
  obtain ⟨row, here, path⟩ := (rowOf?_iff tellsAfter).mp source
  have target := rowOf?_grown tellsMiddle tellsAfter growSource target
  have own : (row.path, m.input) = m.key := congrArg (·, m.input) path
  have unused := input_fresh tellsAfter here (own ▸ fresh)
  have none : after.cell? number m.input = none := by
    simp only [cell?, row?, here, Option.bind_eq_bind, Option.bind_some]
    exact Row.cell?_eq_none (tellsAfter.inputs number row here) unused
  have told : CellOf options after m ⟨m.input, next, m.action,
      options.label (m.source.arrow m.input m.target)⟩ := ⟨rfl, target, rfl, rfl⟩
  have tellsMore := tells_modify tellsAfter here path told unused
  refine ⟨_, ?_, tellsMore, ?_, startAfter.trans startMiddle⟩
  · simp only [add, runTarget, runSource, none]
  · rw [paths_modify, growSource, growTarget]

theorem addAll_spec (tells : table.Tells options moves) {more : List (Move S I)}
    (distinct : ((moves ++ more).map Move.key).Nodup) :
    ∃ after, table.addAll options more = .ok after ∧ after.Tells options (moves ++ more) ∧
      after.paths = more.foldl (fun paths m => grown (grown paths m.target) m.source) table.paths ∧
      after.start = table.start := by
  induction more generalizing table moves with
  | nil => exact ⟨table, rfl, by simpa using tells, rfl, rfl⟩
  | cons m more ih =>
    have regrouped : moves ++ m :: more = moves ++ [m] ++ more := by simp
    rw [regrouped] at distinct ⊢
    have fresh : m.key ∉ moves.map Move.key := by
      rw [List.map_append, List.map_append, List.nodup_append', List.nodup_append'] at distinct
      intro member
      exact distinct.1.2.2 member (by simp)
    obtain ⟨between, run, tellsBetween, grow, start⟩ := add_spec tells fresh
    obtain ⟨after, runMore, tellsAfter, growMore, startAfter⟩ := ih tellsBetween distinct
    refine ⟨after, ?_, tellsAfter, ?_, startAfter.trans start⟩
    · rw [addAll, List.foldlM_cons, run]
      exact runMore
    · rw [growMore, grow, List.foldl_cons]

end Table

namespace Chart

variable [Named S] [Named I]

open Compilation

/-- The table tells the moves of the chart, and has its leaves as rows in the order of unrolling. -/
structure TabledFrom (chart : Chart S I) (root : Fin chart.size) (options : Options)
    (moves : List (Move S I)) (table : Table S I) : Prop where
  made : chart.MovesFrom root options moves
  tells : table.Tells options moves
  paths : table.paths = (chart.trails [] root).map Trail.path
  start : table.start = 0

theorem tabled_of_moves {chart : Chart S I} {root : Fin chart.size} {options : Options}
    (wellformed : chart.Wellformed root) {moves : List (Move S I)}
    (made : chart.MovesFrom root options moves) {leaves : List (Leaf S I)}
    (records : List.Forall₂ (chart.Records .outside) (chart.trails [] root) leaves) :
    ∃ table, Table.addAll options (Table.placeAll options {} (leaves.map Leaf.path)) moves
      = .ok table ∧ chart.TabledFrom root options moves table := by
  have empty : Table.Tells options ([] : List (Move S I)) {} := Table.tells_nil
  obtain ⟨placed, placedPaths, placedStart⟩ := Table.placeAll_spec empty (leaves.map Leaf.path)
  obtain ⟨table, added, tells, paths, start⟩ := Table.addAll_spec placed
    (by simpa using moves_keys_nodup wellformed made)
  have rows : (Table.placeAll options ({} : Table S I) (leaves.map Leaf.path)).paths
      = (chart.trails [] root).map Trail.path := by
    rw [placedPaths, paths_of_records records]
    exact Table.foldl_grown_of_nodup (trails_paths_nodup wellformed (clear_nil root))
  refine ⟨table, added, made, tells, ?_, start.trans placedStart⟩
  have ends := ends_of_moves wellformed made
  rw [paths, rows, Table.foldl_grown_targets fun m member => (ends m member).1,
    Table.foldl_grown_of_known (List.forall_mem_map.mpr fun m member => (ends m member).2)]

theorem table_run {chart : Chart S I} {root : Fin chart.size}
    (accepted : chart.check root = .ok ()) (options : Options) (journal : Journal) :
    ∃ moves table after, (chart.moves root options).run journal = (.ok moves, after) ∧
      (chart.table root options).run journal = (.ok table, after) ∧
      chart.TabledFrom root options moves table := by
  have wellformed := check_ok_iff.mp accepted
  obtain ⟨leaves, unrolled, records⟩ := leaves_records wellformed
  obtain ⟨moves, after, run, made⟩ := allMoves_makes wellformed records options journal
  obtain ⟨table, added, tabled⟩ := tabled_of_moves wellformed made records
  refine ⟨moves, table, after, ?_, ?_, tabled⟩
  · rw [Chart.moves, run_of_ok accepted, run_of_ok unrolled, run]
  · rw [Chart.table, run_of_ok accepted, run_of_ok unrolled, run_bind, run]
    exact congrArg (·, after) added

theorem table_makes {chart : Chart S I} {root : Fin chart.size}
    (accepted : chart.check root = .ok ()) (options : Options) :
    (chart.table root options).Makes fun table =>
      ∃ moves, chart.TabledFrom root options moves table := by
  intro journal
  obtain ⟨moves, table, after, _, run, tabled⟩ := table_run accepted options journal
  exact ⟨table, after, run, moves, tabled⟩

end Chart
end Statechart
