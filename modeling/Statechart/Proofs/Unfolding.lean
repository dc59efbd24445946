import Mathlib
import Statechart.Proofs.Copies
import Statechart.Proofs.Isomorphism
import Statechart.Proofs.Reaction

/-!
Sharing goes unnoticed. Whatever unfolds a chart compiles as the chart does: to the same fault, the
same moves and the same table, and to nested machines that are in their turn the unfolding of the
chart's. Main result: `sharing_goes_unnoticed`.
-/
namespace Statechart

section Machines

variable {S I : Type}

def MachineState.mapInner (f : Nat → Nat) (state : MachineState S I) : MachineState S I :=
  { state with inner := state.inner.map f }

variable [DecidableEq S] [Hashable S]

def Machine.mapInner (f : Nat → Nat) (machine : Machine S I) : Machine S I :=
  { machine with states := machine.states.map (MachineState.mapInner f) }

theorem Machine.mapInner_ofStates (f : Nat → Nat) (start : S) (states : List (MachineState S I)) :
    (Machine.ofStates start states).mapInner f
      = Machine.ofStates start (states.map (MachineState.mapInner f)) := by
  simp only [Machine.ofStates, Machine.mapInner, List.zipIdx_map, List.foldl_map]
  rfl

def Nested.Holds (nested : Nested S I) (outer place inner : Nat) : Prop :=
  ∃ machine state, nested.machines[outer]? = some machine ∧ machine.states[place]? = some state ∧
    state.inner = some inner

/-- The machines that can be reached in the copy are those of the original, with a machine of its
own for each state that has one nested in it. -/
structure Nested.Unfolds (copy nested : Nested S I) (origin : Nat → Nat) : Prop where
  root : origin copy.root = nested.root
  machine : ∀ k, copy.Reaches copy.root k → ∃ machine, copy.machines[k]? = some machine ∧
    nested.machines[origin k]? = some (machine.mapInner origin)
  unshared : ∀ {outer other place spot inner}, copy.Reaches copy.root outer →
    copy.Reaches copy.root other → copy.Holds outer place inner → copy.Holds other spot inner →
    outer = other ∧ place = spot
  outermost : ∀ outer place, copy.Reaches copy.root outer → ¬ copy.Holds outer place copy.root

end Machines

section Determined

variable {S I L M : Type}

theorem Hook.yields_fixed {hook : Hook} (fixed : hook.Fixed) {action other : Action}
    (yields : hook.Yields action) (yieldsOther : hook.Yields other) : action = other := by
  obtain ⟨text, rfl⟩ := fixed
  cases yields with
  | write writes =>
    cases yieldsOther with
    | write writesOther =>
      cases writes
      cases writesOther
      rfl

theorem Hook.option_fixed {hook : Option Hook} (fixed : ∀ h ∈ hook.toList, h.Fixed)
    {action other : Option Action} (yields : Option.Rel Yields hook action)
    (yieldsOther : Option.Rel Yields hook other) : action = other := by
  cases yields with
  | none =>
    cases yieldsOther
    rfl
  | @some hook _ here =>
    cases yieldsOther with
    | some there => rw [yields_fixed (fixed hook (by simp)) here there]

variable [Named S] [Named I] {options : Options}

theorem arc_of_mirrors {source : S} {t : Transition S I} {arc other : MachineArc S I}
    (fixed : ∀ hook ∈ t.effect.toList, hook.Fixed) (mirrors : arc.Mirrors options source t)
    (mirrorsOther : other.Mirrors options source t) : arc = other := by
  have input := mirrors.input.trans mirrorsOther.input.symm
  have target := mirrors.target.trans mirrorsOther.target.symm
  have effect := Hook.option_fixed fixed mirrors.effect mirrorsOther.effect
  have label := mirrors.label.trans mirrorsOther.label.symm
  cases arc
  cases other
  rw [MachineArc.mk.injEq]
  exact ⟨input, target, effect, label⟩

variable {Places : L → Nat → Prop} {Others : M → Nat → Prop} {origin : L → M} {f : Nat → Nat}

omit [Named S] [Named I] in
theorem rel_mapped {inner : Option L} {number other : Option Nat}
    (placed : ∀ l, inner = some l → ∀ k j, Places l k → Others (origin l) j → j = f k)
    (here : Option.Rel Places inner number) (there : Option.Rel Others (inner.map origin) other) :
    other = number.map f := by
  cases here with
  | none =>
    cases there
    rfl
  | @some l k first =>
    cases there with
    | some second => exact congrArg some (placed l rfl k _ first second)

theorem machineState_of_mirrors {state : State S I L} {bound other : MachineState S I}
    (fixed : ∀ hook ∈ state.hooks, hook.Fixed)
    (placed : ∀ l, state.inner = some l → ∀ k j, Places l k → Others (origin l) j → j = f k)
    (mirrors : bound.Mirrors options Places state)
    (mirrorsOther : other.Mirrors options Others (state.mapInner origin)) :
    other = bound.mapInner f := by
  have own : (∀ hook ∈ state.entry.toList, hook.Fixed) ∧ (∀ hook ∈ state.exit.toList, hook.Fixed) ∧
      ∀ t ∈ state.transitions, ∀ hook ∈ t.effect.toList, hook.Fixed := by
    refine ⟨fun hook member => fixed hook ?_, fun hook member => fixed hook ?_,
      fun t declared hook member => fixed hook ?_⟩
    · simp [State.hooks, Option.mem_toList.mp member]
    · simp [State.hooks, Option.mem_toList.mp member]
    · exact List.mem_append_right _
        (List.mem_filterMap.mpr ⟨t, declared, Option.mem_toList.mp member⟩)
  have symbol := mirrorsOther.symbol.trans mirrors.symbol.symm
  have entry := Hook.option_fixed own.1 mirrorsOther.entry mirrors.entry
  have exit := Hook.option_fixed own.2.1 mirrorsOther.exit mirrors.exit
  have label := mirrorsOther.label.trans mirrors.label.symm
  have inner := rel_mapped placed mirrors.inner mirrorsOther.inner
  have arcs : other.arcs = bound.arcs.map id :=
    eq_map_of_forall₂ mirrors.arcs mirrorsOther.arcs fun t declared _ _ first second =>
      arc_of_mirrors (own.2.2 t declared) second first
  rw [List.map_id] at arcs
  cases bound
  cases other
  rw [MachineState.mapInner, MachineState.mk.injEq]
  exact ⟨symbol, entry, exit, arcs, inner, label⟩

theorem machine_of_mirrors [DecidableEq S] [Hashable S] {level : Level S I L}
    {machine other : Machine S I} (fixed : ∀ state ∈ level.states, ∀ hook ∈ state.hooks, hook.Fixed)
    (placed : ∀ l ∈ level.inners, ∀ k j, Places l k → Others (origin l) j → j = f k)
    (mirrors : machine.Mirrors options Places level)
    (mirrorsOther : other.Mirrors options Others (level.mapInner origin)) :
    other = machine.mapInner f := by
  have along := mirrorsOther.states
  rw [Level.mapInner, List.forall₂_map_left_iff] at along
  have states : other.states = machine.states.map (MachineState.mapInner f) := by
    refine eq_map_of_forall₂ mirrors.states along fun state member _ _ => ?_
    refine machineState_of_mirrors (fixed state member) fun l nested => placed l ?_
    exact List.mem_filterMap.mpr ⟨state, member, nested⟩
  rw [mirrorsOther.indexed, mirrors.indexed, Machine.mapInner_ofStates, states]
  rfl

end Determined

namespace Chart

variable {S I : Type} {copy chart : Chart S I} {top : Fin copy.size} {root : Fin chart.size}
  {origin : Fin copy.size → Fin chart.size}

theorem fixed_of_covers (covers : copy.Covers chart origin) {number : Fin copy.size}
    (fixed : chart.Fixed (origin number)) : copy.Fixed number := by
  intro inside reaches state member
  have mapped : state.mapInner origin ∈ (chart.level (origin inside)).states := by
    rw [← covers inside]
    exact List.mem_map_of_mem member
  exact fixed (origin inside) (reaches_of_covers covers reaches) _ mapped

variable [DecidableEq S] [Hashable S] [Named S] [Named I] {options : Options}
  {workshop : Workshop S I (Fin chart.size)} {nested : Nested S I}
  {copyWorkshop : Workshop S I (Fin copy.size)} {nestedCopy : Nested S I}

def originNumber (origin : Fin copy.size → Fin chart.size)
    (copyWorkshop : Workshop S I (Fin copy.size)) (workshop : Workshop S I (Fin chart.size))
    (k : Nat) : Nat :=
  (copyWorkshop[k]?.bind fun entry => workshop.number? (origin entry.1)).getD 0

omit [Named S] [Named I] in
theorem originNumber_eq {level : Fin copy.size} {k j : Nat}
    (found : copyWorkshop.number? level = some k)
    (foundOrigin : workshop.number? (origin level) = some j) :
    originNumber origin copyWorkshop workshop k = j := by
  obtain ⟨machine, here⟩ := Workshop.number?_some found
  simp [originNumber, here, foundOrigin]

theorem holds_of_nested (built : chart.NestedFrom root options workshop nested)
    {outer place inner : Nat} (reaches : nested.Reaches nested.root outer)
    (holds : nested.Holds outer place inner) :
    ∃ level below, workshop.number? level = some outer ∧ workshop.number? below = some inner ∧
      chart.Holds level place below := by
  obtain ⟨level, _, found⟩ := level_of_reaches built reaches
  obtain ⟨machine, here, mirrors⟩ := machine_of_level built found
  obtain ⟨_, bound, there, listed, asked⟩ := holds
  cases Option.some.inj (here.symm.trans there)
  obtain ⟨state, declared, mirror⟩ := forall₂_getElem? mirrors.states listed
  have rel := mirror.inner
  rw [asked] at rel
  generalize source : state.inner = own at rel
  cases rel with
  | @some below _ placed => exact ⟨level, below, found, placed, state, declared, source⟩

theorem machine_of_copy (covers : copy.Covers chart origin) {level : Fin copy.size}
    (fixed : ∀ state ∈ (copy.level level).states, ∀ hook ∈ state.hooks, hook.Fixed)
    (built : chart.NestedFrom root options workshop nested)
    (builtCopy : copy.NestedFrom top options copyWorkshop nestedCopy) {k j : Nat}
    (found : copyWorkshop.number? level = some k)
    (foundOrigin : workshop.number? (origin level) = some j) :
    ∃ machine, nestedCopy.machines[k]? = some machine ∧
      nested.machines[j]?
        = some (machine.mapInner (originNumber origin copyWorkshop workshop)) := by
  obtain ⟨machine, here, mirrors⟩ := machine_of_level builtCopy found
  obtain ⟨other, there, mirrorsOther⟩ := machine_of_level built foundOrigin
  rw [← covers level] at mirrorsOther
  have placed : ∀ l ∈ (copy.level level).inners, ∀ k j, copyWorkshop.number? l = some k →
      workshop.number? (origin l) = some j → j = originNumber origin copyWorkshop workshop k :=
    fun _ _ _ _ first second => (originNumber_eq first second).symm
  have same := machine_of_mirrors fixed placed mirrors mirrorsOther
  exact ⟨machine, here, same ▸ there⟩

theorem nested_unfolds (unfolds : copy.Unfolds top chart root origin)
    (wellformed : chart.Wellformed root) (fixed : chart.Fixed root)
    (built : chart.NestedFrom root options workshop nested)
    (builtCopy : copy.NestedFrom top options copyWorkshop nestedCopy) :
    nestedCopy.Unfolds nested (originNumber origin copyWorkshop workshop) := by
  have fixedCopy : copy.Fixed top := fixed_of_covers unfolds.covers (unfolds.root ▸ fixed)
  constructor
  · exact originNumber_eq builtCopy.root (unfolds.root ▸ built.root)
  · intro k reaches
    obtain ⟨level, way, found⟩ := level_of_reaches builtCopy reaches
    have further := reaches_of_covers unfolds.covers way
    rw [unfolds.root] at further
    obtain ⟨j, foundOrigin, _⟩ := number_of_reaches built wellformed further
    rw [originNumber_eq found foundOrigin]
    exact machine_of_copy unfolds.covers (fixedCopy level way) built builtCopy found foundOrigin
  · intro outer other place spot inner reaches reachesOther holds holdsOther
    obtain ⟨level, below, found, foundBelow, here⟩ := holds_of_nested builtCopy reaches holds
    obtain ⟨twin, belowTwin, foundTwin, foundBelowTwin, there⟩ :=
      holds_of_nested builtCopy reachesOther holdsOther
    cases number?_injective foundBelow foundBelowTwin
    obtain ⟨rfl, rfl⟩ := unfolds.unshared here there
    exact ⟨Option.some.inj (found.symm.trans foundTwin), rfl⟩
  · intro outer place reaches holds
    obtain ⟨level, below, _, foundBelow, here⟩ := holds_of_nested builtCopy reaches holds
    cases number?_injective foundBelow builtCopy.root
    exact unfolds.outermost level place here

variable [DecidableEq I] [Hashable I]

/-- The nested machines of a chart and of its unfolding end in the same fault, or are machines and
their unfolding. -/
def UnfoldsNested (copy : Chart S I) (top : Fin copy.size) (chart : Chart S I)
    (root : Fin chart.size) (options : Options) (journal : Journal) : Prop :=
  (∃ fault, (chart.nested root options).run journal = (.error fault, journal) ∧
    (copy.nested top options).run journal = (.error fault, journal)) ∨
  ∃ nested nestedCopy after afterCopy origin,
    (chart.nested root options).run journal = (.ok nested, after) ∧
    (copy.nested top options).run journal = (.ok nestedCopy, afterCopy) ∧
    nestedCopy.Unfolds nested origin

omit [Hashable I] in
theorem nested_of_unfolds (unfolds : copy.Unfolds top chart root origin)
    (acyclic : chart.Acyclic root) (fixed : chart.Fixed root) (options : Options)
    (journal : Journal) : copy.UnfoldsNested top chart root options journal := by
  have same : copy.check top = chart.check root := by
    rw [check_covered unfolds.covers (unfolds.root ▸ acyclic), unfolds.root]
  cases checked : chart.check root with
  | error fault =>
    refine Or.inl ⟨fault, ?_, ?_⟩
    · exact Compilation.run_of_error checked _ journal
    · exact Compilation.run_of_error (same.trans checked) _ journal
  | ok =>
    have accepted : copy.check top = .ok () := same.trans checked
    obtain ⟨nested, after, run, workshop, built⟩ := nested_makes checked options journal
    obtain ⟨nestedCopy, afterCopy, runCopy, copyWorkshop, builtCopy⟩ :=
      nested_makes accepted options journal
    exact Or.inr ⟨nested, nestedCopy, after, afterCopy, _, run, runCopy,
      nested_unfolds unfolds (check_ok_iff.mp checked) fixed built builtCopy⟩

/-- Every chart without cycles has an unfolding, and none can be told from the chart by what it
compiles to. Only the nested machines need that no hook is lazy: a shared level is bound once. -/
theorem sharing_goes_unnoticed (chart : Chart S I) (root : Fin chart.size)
    (acyclic : chart.Acyclic root) (fixed : chart.Fixed root) :
    (∃ copy top origin, Unfolds copy top chart root origin) ∧
    ∀ copy top origin, Unfolds copy top chart root origin →
      copy.check top = chart.check root ∧ copy.initial top = chart.initial root ∧
      ∀ options, copy.moves top options = chart.moves root options ∧
        copy.table top options = chart.table root options ∧
        ∀ journal, copy.UnfoldsNested top chart root options journal := by
  obtain ⟨top, unfolded⟩ := unfolded_unfolds acyclic
  refine ⟨⟨_, top, _, unfolded⟩, fun copy top origin unfolds => ?_⟩
  obtain rfl := unfolds.root
  have covers := unfolds.covers
  exact ⟨check_covered covers acyclic, initial_covered covers acyclic, fun options =>
    ⟨moves_covered covers acyclic options, table_covered covers acyclic options,
      nested_of_unfolds unfolds acyclic fixed options⟩⟩

def terrace : Chart String String where
  size := 2
  level number :=
    if number.val = 0 then {
      start := "left"
      states := [
        { symbol := "left", entry := some (.fixed "knock"), inner := some ⟨1, Nat.one_lt_two⟩,
          transitions := [⟨"cross", "right", none⟩] },
        { symbol := "right", inner := some ⟨1, Nat.one_lt_two⟩,
          transitions := [⟨"cross", "left", some (.fixed "step")⟩] }] }
    else {
      start := "dark"
      states := [
        { symbol := "dark", transitions := [⟨"switch", "light", none⟩] },
        { symbol := "light", exit := some (.fixed "click") }] }

def terraceRoot : Fin terrace.size := ⟨0, by decide⟩

theorem terrace_sharing_goes_unnoticed : terrace.Acyclic terraceRoot ∧ terrace.Fixed terraceRoot ∧
    terrace.size = 2 ∧ (terrace.unfolded terraceRoot).size = 3 ∧
    ∃ top, (terrace.unfolded terraceRoot).check top = .ok () ∧
      (terrace.unfolded terraceRoot).initial top = .ok ["left", "dark"] ∧
      (terrace.unfolded terraceRoot).moves top {} = terrace.moves terraceRoot {} ∧
      (terrace.unfolded terraceRoot).table top {} = terrace.table terraceRoot {} ∧
      UnfoldsNested (terrace.unfolded terraceRoot) top terrace terraceRoot {} {} := by
  have accepted : terrace.check terraceRoot = .ok () := by cbv
  have initial : terrace.initial terraceRoot = .ok ["left", "dark"] := by cbv
  have acyclic := (check_ok_iff.mp accepted).acyclic
  have all : ∀ number, ∀ state ∈ (terrace.level number).states, ∀ hook ∈ state.hooks,
      hook.Fixed := by decide
  have fixed : terrace.Fixed terraceRoot := fun number _ => all number
  obtain ⟨top, unfolds⟩ := unfolded_unfolds acyclic
  obtain ⟨checked, landed, compiled⟩ :=
    (sharing_goes_unnoticed terrace terraceRoot acyclic fixed).2 _ top _ unfolds
  obtain ⟨moves, table, nested⟩ := compiled {}
  exact ⟨acyclic, fixed, rfl, by cbv, top, checked.trans accepted, landed.trans initial, moves,
    table, nested {}⟩

end Chart
end Statechart
