import Statechart.Flat.Table
import Statechart.Proofs.Carrying
import Statechart.Proofs.Unrolling

/-!
Charts that cover others. A chart covers another one if each of its levels has a level of the other
one as its origin, equal but for the levels nested in it, which are again sent to their origins.
Several levels may have one origin. Where no level is inside itself, nothing that is found out by
going down from a level tells it from its origin: neither the check nor the leaves nor the moves.
-/
namespace Statechart

section Mapping

variable {S I L M : Type}

def State.mapInner (f : L → M) (state : State S I L) : State S I M :=
  { state with inner := state.inner.map f }

def Level.mapInner (f : L → M) (level : Level S I L) : Level S I M :=
  { level with states := level.states.map (State.mapInner f) }

def Visit.mapInner (f : L → M) (v : Visit S I L) : Visit S I M :=
  { v with inner := v.inner.map f }

theorem Level.symbols_mapInner (f : L → M) (level : Level S I L) :
    (level.mapInner f).symbols = level.symbols := by
  simp only [symbols, mapInner, List.map_map]
  rfl

theorem Level.inners_mapInner (f : L → M) (level : Level S I L) :
    (level.mapInner f).inners = level.inners.map f := by
  simp only [inners, mapInner, List.filterMap_map, List.map_filterMap]
  rfl

variable [DecidableEq S]

theorem Level.state?_mapInner (f : L → M) (level : Level S I L) (symbol : S) :
    (level.mapInner f).state? symbol = (level.state? symbol).map (State.mapInner f) :=
  List.find?_map

theorem Level.startFirst_mapInner (f : L → M) (level : Level S I L) :
    (level.mapInner f).startFirst = List.map (State.mapInner f) <$> level.startFirst := by
  have start : (level.mapInner f).start = level.start := rfl
  rw [startFirst, start, state?_mapInner, startFirst]
  cases level.state? level.start with
  | none => rfl
  | some state =>
    simp only [Option.map_some, mapInner, List.filter_map]
    rfl

variable [DecidableEq I]

theorem Level.fault?_mapInner (f : L → M) (level : Level S I L) :
    (level.mapInner f).fault? = level.fault? := by
  simp only [fault?, symbols_mapInner]
  simp only [mapInner, List.findSome?_map]
  rfl

end Mapping

namespace Chart

variable {S I : Type} {copy chart : Chart S I} {origin : Fin copy.size → Fin chart.size}

def Covers (copy chart : Chart S I) (origin : Fin copy.size → Fin chart.size) : Prop :=
  ∀ number, (copy.level number).mapInner origin = chart.level (origin number)

theorem nests_of_covers (covers : copy.Covers chart origin) {outer inner : Fin copy.size}
    (nests : copy.Nests outer inner) : chart.Nests (origin outer) (origin inner) := by
  unfold Nests at nests ⊢
  rw [← covers outer, Level.inners_mapInner]
  exact List.mem_map_of_mem nests

theorem reaches_of_covers (covers : copy.Covers chart origin) {outer inner : Fin copy.size}
    (reaches : copy.Reaches outer inner) : chart.Reaches (origin outer) (origin inner) :=
  reaches.lift origin fun _ _ => nests_of_covers covers

theorem acyclic_of_covers (covers : copy.Covers chart origin) {number : Fin copy.size}
    (acyclic : chart.Acyclic (origin number)) : copy.Acyclic number := by
  intro inside reaches loop
  exact acyclic (origin inside) (reaches_of_covers covers reaches)
    (loop.lift origin fun _ _ => nests_of_covers covers)

theorem covers_induction (covers : copy.Covers chart origin) {motive : Fin copy.size → Prop}
    (step : ∀ number, chart.Acyclic (origin number) →
      (∀ inner, copy.Nests number inner → motive inner) → motive number)
    {number : Fin copy.size} (acyclic : chart.Acyclic (origin number)) : motive number := by
  have copied := acyclic_of_covers covers acyclic
  induction copied using nesting_induction with
  | step number copied ih =>
    exact step number acyclic fun inner nests =>
      ih inner nests (acyclic_of_nests acyclic (nests_of_covers covers nests))

variable [DecidableEq S]

theorem walkFault_covered [DecidableEq I] (covers : copy.Covers chart origin)
    {number : Fin copy.size} (acyclic : chart.Acyclic (origin number)) :
    ∀ {above around}, copy.Clear above number → chart.Clear around (origin number) →
      copy.walkFault? above number = chart.walkFault? around (origin number) := by
  refine covers_induction covers (motive := fun number => ∀ {above around},
    copy.Clear above number → chart.Clear around (origin number) →
      copy.walkFault? above number = chart.walkFault? around (origin number)) ?_ acyclic
  intro number acyclic ih above around clear clearOrigin
  rw [walkFault?, dif_neg (not_mem_of_clear clear), walkFault?,
    dif_neg (not_mem_of_clear clearOrigin), ← covers number, Level.fault?_mapInner,
    Level.inners_mapInner, List.findSome?_map]
  cases (copy.level number).fault? with
  | some fault => rfl
  | none =>
    apply findSome?_of_each
    intro inner nests
    have nestsOrigin := nests_of_covers covers nests
    exact ih inner nests (clear_cons (acyclic_of_covers covers acyclic) clear nests)
      (clear_cons acyclic clearOrigin nestsOrigin)

theorem check_covered [DecidableEq I] (covers : copy.Covers chart origin) {number : Fin copy.size}
    (acyclic : chart.Acyclic (origin number)) :
    copy.check number = chart.check (origin number) := by
  rw [check_eq_walk, check_eq_walk,
    walkFault_covered covers acyclic (clear_nil number) (clear_nil (origin number))]

/-- Distinct levels, of which none is inside the given one: the levels that a descent comes
through before it. -/
structure Surrounds (chart : Chart S I) (above : List (Fin chart.size)) (number : Fin chart.size) :
    Prop where
  distinct : above.Nodup
  clear : chart.Clear above number

omit [DecidableEq S] in
theorem surrounds_cons {above : List (Fin chart.size)} {outer inner : Fin chart.size}
    (acyclic : chart.Acyclic outer) (surrounds : chart.Surrounds above outer)
    (nests : chart.Nests outer inner) : chart.Surrounds (outer :: above) inner :=
  ⟨List.nodup_cons.mpr ⟨not_mem_of_clear surrounds.clear, surrounds.distinct⟩,
    clear_cons acyclic surrounds.clear nests⟩

omit [DecidableEq S] in
theorem length_lt_of_surrounds {above : List (Fin chart.size)} {number : Fin chart.size}
    (surrounds : chart.Surrounds above number) : above.length < chart.size :=
  length_le_size (List.nodup_cons.mpr ⟨not_mem_of_clear surrounds.clear, surrounds.distinct⟩)

/-- Copy and chart may have different numbers of levels, and so allow for descents of different
depths; both are enough. -/
theorem descent_covered (covers : copy.Covers chart origin) {number : Fin copy.size}
    (acyclic : chart.Acyclic (origin number)) : ∀ {above around depth room},
      copy.Surrounds above number → chart.Surrounds around (origin number) →
      copy.size ≤ above.length + depth → chart.size ≤ around.length + room →
      ∀ state ∈ (copy.level number).states,
        copy.descent depth state = chart.descent room (state.mapInner origin) := by
  refine covers_induction covers (motive := fun number => ∀ {above around depth room},
    copy.Surrounds above number → chart.Surrounds around (origin number) →
      copy.size ≤ above.length + depth → chart.size ≤ around.length + room →
      ∀ state ∈ (copy.level number).states,
        copy.descent depth state = chart.descent room (state.mapInner origin)) ?_ acyclic
  intro number acyclic ih above around depth room surrounds surroundsOrigin deep deepOrigin state
    member
  cases nested : state.inner with
  | none => simp [descent, State.mapInner, nested]
  | some inner =>
    have nests := nests_of_state member nested
    have further := surrounds_cons (acyclic_of_covers covers acyclic) surrounds nests
    have furtherOrigin := surrounds_cons acyclic surroundsOrigin (nests_of_covers covers nests)
    have bound := length_lt_of_surrounds further
    have boundOrigin := length_lt_of_surrounds furtherOrigin
    rw [List.length_cons] at bound boundOrigin
    obtain ⟨depth, rfl⟩ : ∃ d, depth = d + 1 := ⟨depth - 1, by omega⟩
    obtain ⟨room, rfl⟩ : ∃ r, room = r + 1 := ⟨room - 1, by omega⟩
    have inside : ∀ first ∈ (copy.level inner).states,
        copy.descent depth first = chart.descent room (first.mapInner origin) :=
      ih inner nests further furtherOrigin (by rw [List.length_cons]; omega)
        (by rw [List.length_cons]; omega)
    have mapped : (state.mapInner origin).inner = some (origin inner) := by
      simp [State.mapInner, nested]
    rw [descent, descent, nested, mapped]
    simp only [← covers inner, Level.state?_mapInner]
    have start : ((copy.level inner).mapInner origin).start = (copy.level inner).start := rfl
    rw [start]
    cases found : (copy.level inner).state? (copy.level inner).start with
    | none => rfl
    | some first =>
      simp only [Option.map_some, inside first (Level.mem_of_state? found).1]
      rfl

theorem landing_covered (covers : copy.Covers chart origin) {number : Fin copy.size}
    (acyclic : chart.Acyclic (origin number)) (target : S) :
    copy.landing number target = chart.landing (origin number) target := by
  have outside : copy.Surrounds [] number := ⟨List.nodup_nil, clear_nil number⟩
  have outsideOrigin : chart.Surrounds [] (origin number) := ⟨List.nodup_nil, clear_nil _⟩
  rw [landing, landing, ← covers number, Level.state?_mapInner]
  cases found : (copy.level number).state? target with
  | none => rfl
  | some state =>
    exact descent_covered covers acyclic outside outsideOrigin (Nat.le_add_left _ _)
      (Nat.le_add_left _ _) state (Level.mem_of_state? found).1

theorem initial_covered (covers : copy.Covers chart origin) {number : Fin copy.size}
    (acyclic : chart.Acyclic (origin number)) :
    copy.initial number = chart.initial (origin number) := by
  rw [initial, initial, landing_covered covers acyclic, ← covers number]
  rfl

theorem visit_covered (covers : copy.Covers chart origin) {number : Fin copy.size}
    (acyclic : chart.Acyclic (origin number)) (around : Leaf S I)
    (state : State S I (Fin copy.size)) :
    chart.visit (origin number) around (state.mapInner origin)
      = Visit.mapInner origin <$> copy.visit number around state := by
  have candidates : chart.candidate (origin number) around.path
      = copy.candidate number around.path := by
    funext t
    rw [candidate, candidate, landing_covered covers acyclic]
  have transitions : (state.mapInner origin).transitions = state.transitions := rfl
  rw [visit, visit, candidates, transitions]
  cases state.transitions.mapM (copy.candidate number around.path) <;> rfl

theorem visits_covered (covers : copy.Covers chart origin) {number : Fin copy.size}
    (acyclic : chart.Acyclic (origin number)) (around : Leaf S I) :
    chart.visits (origin number) around
      = List.map (Visit.mapInner origin) <$> copy.visits number around := by
  rw [visits, visits, ← covers number, Level.startFirst_mapInner]
  cases (copy.level number).startFirst with
  | error => rfl
  | ok states => exact mapFromLast_mapped fun state _ => visit_covered covers acyclic around state

theorem unrolled_covered (covers : copy.Covers chart origin) {number : Fin copy.size}
    (acyclic : chart.Acyclic (origin number)) : ∀ {above outer around},
      copy.Clear above number → chart.Clear outer (origin number) →
      copy.unrolled above number around = chart.unrolled outer (origin number) around := by
  refine covers_induction covers (motive := fun number => ∀ {above outer around},
    copy.Clear above number → chart.Clear outer (origin number) →
      copy.unrolled above number around = chart.unrolled outer (origin number) around) ?_ acyclic
  intro number acyclic ih above outer around clear clearOrigin
  rw [unrolled_eq (not_mem_of_clear clear), unrolled_eq (not_mem_of_clear clearOrigin),
    visits_covered covers acyclic]
  cases prepared : copy.visits number around with
  | error => rfl
  | ok below =>
    have each : ∀ v ∈ below, chart.unrolledVisit (origin number :: outer) (v.mapInner origin)
        = id <$> copy.unrolledVisit (number :: above) v := by
      intro v member
      rw [id_map]
      cases nested : v.inner with
      | none => simp [unrolledVisit, Visit.mapInner, nested]
      | some inner =>
        have nests := nests_of_visits prepared member nested
        simp only [unrolledVisit, Visit.mapInner, nested, Option.map_some]
        exact (ih inner nests (clear_cons (acyclic_of_covers covers acyclic) clear nests)
          (clear_cons acyclic clearOrigin (nests_of_covers covers nests))).symm
    have together := mapM_mapped each
    rw [List.map_id_fun, id_map] at together
    simp only [bind, Except.bind, Functor.map, Except.map, together]

theorem leaves_covered (covers : copy.Covers chart origin) {number : Fin copy.size}
    (acyclic : chart.Acyclic (origin number)) :
    copy.leaves number = chart.leaves (origin number) := by
  rw [leaves_eq_unrolled (acyclic_of_covers covers acyclic), leaves_eq_unrolled acyclic]
  exact unrolled_covered covers acyclic (clear_nil number) (clear_nil (origin number))

variable [Hashable S] [DecidableEq I] [Hashable I] [Named S] [Named I]

theorem moves_covered (covers : copy.Covers chart origin) {number : Fin copy.size}
    (acyclic : chart.Acyclic (origin number)) (options : Options) :
    copy.moves number options = chart.moves (origin number) options := by
  rw [moves, moves, check_covered covers acyclic, leaves_covered covers acyclic]

theorem table_covered (covers : copy.Covers chart origin) {number : Fin copy.size}
    (acyclic : chart.Acyclic (origin number)) (options : Options) :
    copy.table number options = chart.table (origin number) options := by
  rw [table, table, check_covered covers acyclic, leaves_covered covers acyclic]

end Chart
end Statechart
