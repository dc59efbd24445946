import Statechart.Proofs.Building
import Statechart.Proofs.Driving
import Statechart.Proofs.Tabulation

/-!
Tables and nested machines are indistinguishable. Both follow the reactions of the trail that the
machine is in: a table knows it by the row of its path, nested machines by a post for each stop.
-/
namespace Statechart.Chart

variable {S I : Type} [DecidableEq S] [Hashable S] [Named S] [Named I]
  {chart : Chart S I} {root : Fin chart.size} {options : Options}

section Table

variable [DecidableEq I] [Hashable I] {moves : List (Move S I)} {table : Table S I}
  {trail : Trail S I (Fin chart.size)} {number : Nat}

theorem cell_of_silent (wellformed : chart.Wellformed root)
    (tabled : chart.TabledFrom root options moves table) (leads : chart.Leads root trail)
    (place : table.rowOf? trail.path = some number) {input : I} (silent : trail.Silent input) :
    table.cell? number input = none := by
  obtain ⟨row, here, path⟩ := (Table.rowOf?_iff tabled.tells).mp place
  cases found : table.cell? number input with
  | none => rfl
  | some cell =>
    obtain ⟨m, member, source, rfl, _⟩ := (Table.cell?_iff tabled.tells here).mp found
    obtain ⟨other, _, _, leadsOther, carries⟩ := trail_of_move wellformed tabled.made member
    have same : other = trail := leads_path_injective wellformed.sound leadsOther leads
      (carries.source.symm.trans (source.trans path))
    subst same
    exact absurd silent (not_silent_of_reacts carries.reacts)

theorem cell_of_reacts (wellformed : chart.Wellformed root)
    (tabled : chart.TabledFrom root options moves table) (leads : chart.Leads root trail)
    (place : table.rowOf? trail.path = some number) {input : I} {rank : Nat} {hooks : List Hook}
    {next : Trail S I (Fin chart.size)} (reacts : chart.Reacts trail input rank hooks next) :
    ∃ cell, table.cell? number input = some cell ∧ table.rowOf? next.path = some cell.next ∧
      Performs cell.action.run hooks := by
  obtain ⟨m, member, rfl, otherHooks, other, carries⟩ :=
    move_of_trail wellformed tabled.made leads (not_silent_of_reacts reacts)
  obtain ⟨_, rfl, rfl⟩ := reacts_unique wellformed leads reacts carries.reacts
  obtain ⟨cell, found, told⟩ :=
    Table.cell?_of_move tabled.tells member (carries.source.symm ▸ place)
  refine ⟨cell, found, ?_, ?_⟩
  · rw [← carries.target]
    exact told.next
  · rw [told.action]
    exact carries.action

theorem start_row (wellformed : chart.Wellformed root)
    (tabled : chart.TabledFrom root options moves table) :
    ∃ trail, chart.Lands root (chart.level root).start trail ∧
      table.rowOf? trail.path = some table.start := by
  obtain ⟨trail, others, first, lands⟩ := trails_head wellformed (clear_nil root)
  refine ⟨trail, lands, (tabled.tells.paths _ _).mpr ?_⟩
  rw [tabled.paths, tabled.start, first]
  rfl

end Table

/-- The post is the stop, as far as machines know. -/
structure Stands (chart : Chart S I) (workshop : Workshop S I (Fin chart.size))
    (stop : Stop S I (Fin chart.size)) (post : Post S) : Prop where
  level : workshop.number? stop.level = some post.1
  symbol : post.2 = stop.state.symbol

section Nested

variable {workshop : Workshop S I (Fin chart.size)} {nested : Nested S I}

theorem descend_of_lands (built : chart.NestedFrom root options workshop nested)
    {level : Fin chart.size} (wellformed : chart.Wellformed level) {target : S}
    {trail : Trail S I (Fin chart.size)} (lands : chart.Lands level target trail) {k : Nat}
    (found : workshop.number? level = some k) {machine : Machine S I}
    (mirrors : machine.Mirrors options (fun level k => workshop.number? level = some k)
      (chart.level level)) {depth : Nat} (room : trail.length ≤ depth + 1) :
    ∃ below, nested.descend depth (machine.inner? target) = some below ∧
      List.Forall₂ (chart.Stands workshop) trail ((k, target) :: below) := by
  induction lands generalizing k machine depth with
  | @leaf level target state member named plain =>
    subst named
    have inner := inner?_of_mirrors mirrors (wellformed.sound level .refl).distinct member
    rw [plain] at inner
    generalize machine.inner? state.symbol = number at inner
    cases inner with
    | none => exact ⟨[], by rw [Nested.descend], .cons ⟨found, rfl⟩ .nil⟩
  | @deeper level inside target state rest member named nests below ih =>
    subst named
    have inner := inner?_of_mirrors mirrors (wellformed.sound level .refl).distinct member
    rw [nests] at inner
    generalize machine.inner? state.symbol = number at inner
    cases inner with
    | @some _ j foundInside =>
      obtain ⟨deeper, here, mirrorsInside⟩ := machine_of_level built foundInside
      have start : deeper.start = (chart.level inside).start :=
        congrArg Machine.start mirrorsInside.indexed
      cases depth with
      | zero =>
        have := leads_length_pos (leads_of_lands below)
        rw [List.length_cons] at room
        omega
      | succ depth =>
        have further := wellformed_of_nests wellformed (nests_of_state member nests)
        obtain ⟨posts, run, stand⟩ := ih further foundInside mirrorsInside (by simpa using room)
        refine ⟨(j, deeper.start) :: posts, ?_, .cons ⟨found, rfl⟩ (start ▸ stand)⟩
        simp [Nested.descend, here, start, run]

theorem length_le_machines (wellformed : chart.Wellformed root)
    (built : chart.NestedFrom root options workshop nested) {number : Fin chart.size}
    (reaches : chart.Reaches root number) {trail : Trail S I (Fin chart.size)}
    (leads : chart.Leads number trail) : trail.length ≤ nested.machines.size := by
  have inWorkshop : ∀ inside, chart.Reaches root inside → inside ∈ workshop.levels := by
    intro inside further
    induction further with
    | refl => exact Workshop.mem_of_number? built.root
    | tail _ nests ih => exact built.stocked.closed _ ih _ nests
  have among : trail.levels ⊆ workshop.levels := by
    intro level member
    obtain ⟨stop, memberStop, rfl⟩ := List.mem_map.mp member
    exact inWorkshop _ (reaches.trans (leads_reaches leads memberStop))
  have distinct := leads_levels_nodup (acyclic_of_reaches wellformed.acyclic reaches) leads
  have := (distinct.subperm among).length_le
  simpa [built.machines, Trail.levels, Workshop.levels] using this

variable {trail : Trail S I (Fin chart.size)} {posts : List (Post S)}

theorem leaving_performs (built : chart.NestedFrom root options workshop nested)
    (stand : List.Forall₂ (chart.Stands workshop) trail posts)
    (placed : chart.Placed trail) :
    Performs (fun journal => posts.foldr nested.leave journal) trail.exits := by
  induction stand with
  | nil => exact performs_nil
  | @cons stop post trail posts here _ ih =>
    obtain ⟨⟨inside, member⟩, placedBelow⟩ := placed_cons.mp placed
    obtain ⟨machine, found, mirrors⟩ := machine_of_level built here.level
    have own : Performs (nested.leave post) stop.state.exit.toList := by
      have performs := leave_performs mirrors (inside.sound _ .refl).distinct member
      unfold Nested.leave
      simp only [found, here.symbol]
      exact performs
    rw [Trail.exits_cons]
    exact performs_append (ih placedBelow) own

theorem entering_performs (built : chart.NestedFrom root options workshop nested)
    (stand : List.Forall₂ (chart.Stands workshop) trail posts)
    (placed : chart.Placed trail) :
    Performs (fun journal => posts.foldl nested.enter journal) trail.entries := by
  induction stand with
  | nil => exact performs_nil
  | @cons stop post trail posts here _ ih =>
    obtain ⟨⟨inside, member⟩, placedBelow⟩ := placed_cons.mp placed
    obtain ⟨machine, found, mirrors⟩ := machine_of_level built here.level
    have own : Performs (fun journal => nested.enter journal post) stop.state.entry.toList := by
      have performs := enter_performs mirrors (inside.sound _ .refl).distinct member
      unfold Nested.enter
      simp only [found, here.symbol]
      exact performs
    rw [Trail.entries_cons]
    exact performs_append own (ih placedBelow)

variable [DecidableEq I]

theorem descend_start (wellformed : chart.Wellformed root)
    (built : chart.NestedFrom root options workshop nested) {trail : Trail S I (Fin chart.size)}
    (lands : chart.Lands root (chart.level root).start trail) :
    ∃ posts, nested.driver.start = some posts ∧
      List.Forall₂ (chart.Stands workshop) trail posts := by
  obtain ⟨machine, here, mirrors⟩ := machine_of_level built built.root
  have start : machine.start = (chart.level root).start := congrArg Machine.start mirrors.indexed
  have room := length_le_machines wellformed built .refl (leads_of_lands lands)
  have positive := leads_length_pos (leads_of_lands lands)
  obtain ⟨depth, size⟩ : ∃ depth, nested.machines.size = depth + 1 :=
    ⟨nested.machines.size - 1, by omega⟩
  obtain ⟨below, run, stand⟩ :=
    descend_of_lands built wellformed lands built.root mirrors (size ▸ room)
  refine ⟨(nested.root, machine.start) :: below, ?_, start ▸ stand⟩
  simp [Nested.driver, size, Nested.descend, here, start, run]

theorem answer_of_silent (built : chart.NestedFrom root options workshop nested)
    (stand : List.Forall₂ (chart.Stands workshop) trail posts)
    (placed : chart.Placed trail) {input : I} (silent : trail.Silent input) :
    nested.answer input posts = none := by
  induction stand with
  | nil => rfl
  | @cons stop post trail posts here _ ih =>
    obtain ⟨own, below⟩ := Trail.silent_cons.mp silent
    obtain ⟨⟨inside, member⟩, placedBelow⟩ := placed_cons.mp placed
    obtain ⟨machine, found, mirrors⟩ := machine_of_level built here.level
    have step : machine.step? post.2 input = none := by
      rw [here.symbol]
      exact step?_of_silent mirrors (inside.sound _ .refl).distinct member own
    rw [Nested.answer, ih placedBelow below]
    simp [found, step]

theorem answer_of_answers (built : chart.NestedFrom root options workshop nested)
    (stand : List.Forall₂ (chart.Stands workshop) trail posts)
    (placed : chart.Placed trail) {input : I}
    {above : Trail S I (Fin chart.size)} {stop : Stop S I (Fin chart.size)} {t : Transition S I}
    (answers : trail.Answers input above stop t) :
    ∃ (outer : List (Post S)) (k : Nat) (machine : Machine S I) (action : Action),
      workshop.number? stop.level = some k ∧
      machine.Mirrors options (fun level k => workshop.number? level = some k)
        (chart.level stop.level) ∧
      Performs action.run t.effect.toList ∧
      List.Forall₂ (chart.Stands workshop) above outer ∧
      nested.answer input posts = some (outer, k, ⟨t.target, action, machine.inner? t.target⟩) := by
  induction stand generalizing above with
  | nil => exact absurd (Trail.silent_nil input) (Trail.not_silent_of_answers answers)
  | @cons first post trail posts here stand ih =>
    obtain ⟨⟨insideFirst, member⟩, placedBelow⟩ := placed_cons.mp placed
    rcases Trail.answers_cons.mp answers with
      ⟨rfl, rfl, declared, rfl, silent⟩ | ⟨deeper, rfl, inside⟩
    · obtain ⟨machine, found, mirrors⟩ := machine_of_level built here.level
      have sound := insideFirst.sound _ .refl
      obtain ⟨action, performs, step⟩ := step?_of_declared mirrors sound.distinct member
        (sound.states _ member).inputs declared
      refine ⟨[], post.1, machine, action, here.level, mirrors, performs, .nil, ?_⟩
      rw [Nested.answer, answer_of_silent built stand placedBelow silent]
      simp [found, here.symbol, step]
    · obtain ⟨outer, k, machine, action, found, mirrors, performs, standAbove, answer⟩ :=
        ih placedBelow inside
      refine ⟨post :: outer, k, machine, action, found, mirrors, performs,
        .cons here standAbove, ?_⟩
      rw [Nested.answer, answer]

theorem nested_reacts (wellformed : chart.Wellformed root)
    (built : chart.NestedFrom root options workshop nested) (leads : chart.Leads root trail)
    (stand : List.Forall₂ (chart.Stands workshop) trail posts) {input : I} {rank : Nat}
    {hooks : List Hook} {next : Trail S I (Fin chart.size)}
    (reacts : chart.Reacts trail input rank hooks next) :
    ∃ nextPosts step, nested.driver.react posts input = some (.moves nextPosts step) ∧
      List.Forall₂ (chart.Stands workshop) next nextPosts ∧ Performs step hooks := by
  have placed := placed_of_leads wellformed leads
  have placedNext := placed_of_leads wellformed (leads_of_reacts leads reacts)
  cases reacts with
  | @intro above landing stop t answers lands =>
    have reaches := leads_reaches leads (Trail.stop_mem_of_answers answers)
    obtain ⟨outer, k, machine, action, found, mirrors, performs, standAbove, answer⟩ :=
      answer_of_answers built stand placed answers
    have room := length_le_machines wellformed built reaches (leads_of_lands lands)
    obtain ⟨below, run, standLanding⟩ := descend_of_lands built
      (wellformed_of_reaches wellformed reaches) lands found mirrors (Nat.le_succ_of_le room)
    have standNext : List.Forall₂ (chart.Stands workshop) (above ++ landing)
        (outer ++ (k, t.target) :: below) := List.rel_append standAbove standLanding
    refine ⟨_, nested.pass posts action (outer ++ (k, t.target) :: below), ?_, standNext, ?_⟩
    · simp [Nested.driver, answer, run]
    · have out := performs_append (leaving_performs built stand placed) performs
      have whole := performs_append out (entering_performs built standNext placedNext)
      exact whole

end Nested

variable [DecidableEq I] [Hashable I]

def Together (chart : Chart S I) (root : Fin chart.size) (table : Table S I)
    (workshop : Workshop S I (Fin chart.size)) (number : Nat) (posts : List (Post S)) : Prop :=
  ∃ trail, chart.Leads root trail ∧ table.rowOf? trail.path = some number ∧
    List.Forall₂ (chart.Stands workshop) trail posts

theorem drivers_match (wellformed : chart.Wellformed root) (fixed : chart.Fixed root)
    {others : Options} {moves : List (Move S I)} {table : Table S I}
    (tabled : chart.TabledFrom root options moves table)
    {workshop : Workshop S I (Fin chart.size)} {nested : Nested S I}
    (built : chart.NestedFrom root others workshop nested) :
    table.driver.Matches nested.driver (chart.Together root table workshop) fun path =>
      ∃ trail, chart.Leads root trail ∧ path = trail.path := by
  constructor
  · obtain ⟨trail, lands, place⟩ := start_row wellformed tabled
    obtain ⟨posts, start, stand⟩ := descend_start wellformed built lands
    exact ⟨_, posts, rfl, start, trail, leads_of_lands lands, place, stand⟩
  · intro number posts ⟨trail, leads, place, stand⟩
    obtain ⟨row, here, path⟩ := (Table.rowOf?_iff tabled.tells).mp place
    refine ⟨trail.path, ⟨trail, leads, rfl⟩, by simp [Table.driver, Table.row?, here, path], ?_⟩
    have symbols : posts.map Prod.snd = trail.path := by
      clear * - stand
      induction stand with
      | nil => rfl
      | cons first _ ih => rw [List.map_cons, ih, first.symbol, Trail.path_cons]
    simp [Nested.driver, symbols]
  · intro number posts ⟨trail, leads, place, stand⟩ input
    rcases silent_or_reacts wellformed leads input with silent | ⟨rank, hooks, next, reacts⟩
    · have cell := cell_of_silent wellformed tabled leads place silent
      have answer := answer_of_silent built stand (placed_of_leads wellformed leads) silent
      exact Or.inl ⟨by simp [Table.driver, cell], by simp [Nested.driver, answer]⟩
    · obtain ⟨cell, found, placeNext, performs⟩ :=
        cell_of_reacts wellformed tabled leads place reacts
      obtain ⟨nextPosts, step, answer, standNext, performsNested⟩ :=
        nested_reacts wellformed built leads stand reacts
      refine Or.inr ⟨cell.next, nextPosts, cell.action.run, step, by simp [Table.driver, found],
        answer, ⟨next, leads_of_reacts leads reacts, placeNext, standNext⟩, ?_⟩
      exact performs_fixed (fixed_of_reacts fixed leads reacts) performs performsNested {}

/-- On all inputs the table and the nested machines of a checked chart without lazy hooks show the
same: the leaf they start in, the inputs they ignore, the leaf after each input and what is
written meanwhile. -/
theorem table_and_nested_show_the_same (chart : Chart S I) (root : Fin chart.size)
    (accepted : chart.check root = .ok ()) (fixed : chart.Fixed root)
    (options others : Options) (journal other : Journal) :
    ∃ table after nested otherAfter,
      (chart.table root options).run journal = (.ok table, after) ∧
      (chart.nested root others).run other = (.ok nested, otherAfter) ∧
      ∀ inputs, ∃ path seen, table.driver.view inputs = some (path, seen) ∧
        nested.driver.view inputs = some (path, seen) ∧
        ∀ shown ∈ path :: seen.map Sighting.path,
          ∃ trail, chart.Leads root trail ∧ shown = trail.path := by
  have wellformed := check_ok_iff.mp accepted
  obtain ⟨table, after, run, moves, tabled⟩ := table_makes accepted options journal
  obtain ⟨nested, otherAfter, runNested, workshop, built⟩ := nested_makes accepted others other
  refine ⟨table, after, nested, otherAfter, run, runNested, fun inputs => ?_⟩
  obtain ⟨path, seen, view, viewNested, first, later⟩ :=
    Driver.view_of_matches (drivers_match wellformed fixed tabled built) inputs
  refine ⟨path, seen, view, viewNested, List.forall_mem_cons.mpr ⟨first, ?_⟩⟩
  exact List.forall_mem_map.mpr later

theorem lamp_shows_the_same : ∃ table after nested otherAfter,
    (lamp.table lampRoot {}).run {} = (.ok table, after) ∧
    (lamp.nested lampRoot {}).run {} = (.ok nested, otherAfter) ∧
    ∃ view, table.driver.view ["switch", "dim", "switch"] = some view ∧
      nested.driver.view ["switch", "dim", "switch"] = some view := by
  obtain ⟨table, after, nested, otherAfter, run, runNested, same⟩ :=
    table_and_nested_show_the_same lamp lampRoot lamp_accepted lamp_fixed {} {} {} {}
  obtain ⟨path, seen, view, viewNested, _⟩ := same ["switch", "dim", "switch"]
  exact ⟨table, after, nested, otherAfter, run, runNested, (path, seen), view, viewNested⟩

end Statechart.Chart
