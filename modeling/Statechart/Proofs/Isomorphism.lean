import Mathlib.Logic.Equiv.Defs
import Statechart.Proofs.Building

/-!
Levels and machines form the same graph. The machines that can be reached from the root's machine
stand for the levels that can be reached from the root, one for each however many states share it,
and lead to each other as the levels do.
-/
namespace Statechart

section Graphs

variable {S I : Type} [DecidableEq S] [Hashable S]

namespace Nested

/-- Asked for what is nested in one of its states, the outer machine names the inner one. -/
def Nests (nested : Nested S I) (outer inner : Nat) : Prop :=
  ∃ machine symbol, nested.machines[outer]? = some machine ∧ machine.inner? symbol = some inner

abbrev Reaches (nested : Nested S I) : Nat → Nat → Prop := Relation.ReflTransGen nested.Nests

end Nested

/-- The machine knows every state it speaks of, and it steps along its transitions and along nothing
else, each time into the machine nested in the target. -/
structure Machine.Closed [DecidableEq I] (machine : Machine S I) : Prop where
  start : ∃ state, machine.state? machine.start = some state
  known : ∀ state ∈ machine.states, machine.state? state.symbol = some state
  targets : ∀ state ∈ machine.states, ∀ arc ∈ state.arcs,
    ∃ target, machine.state? arc.target = some target
  answers : ∀ state ∈ machine.states, ∀ arc ∈ state.arcs,
    ∃ step, machine.step? state.symbol arc.input = some step ∧ step.target = arc.target ∧
      step.action = arc.effect.getD .idle ∧ step.inner = machine.inner? arc.target
  steps : ∀ symbol input step, machine.step? symbol input = some step →
    (∃ state ∈ machine.states, state.symbol = symbol ∧
      ∃ arc ∈ state.arcs, arc.input = input ∧ arc.target = step.target) ∧
    step.inner = machine.inner? step.target

variable [Named S] [Named I]

/-- The numbering of the levels turns the chart into the nested machines: each machine mirrors its
level, and where machines are nested in states they are those of the nested levels. -/
structure Nested.Portrays (nested : Nested S I) (chart : Chart S I) (root : Fin chart.size)
    (options : Options)
    (numberOf : {level // chart.Reaches root level} ≃ {k // nested.Reaches nested.root k}) :
    Prop where
  root : numberOf ⟨root, .refl⟩ = ⟨nested.root, .refl⟩
  machine : ∀ level, ∃ machine, nested.machines[(numberOf level).val]? = some machine ∧
    machine.start = (chart.level level.val).start ∧
    machine.Mirrors options (fun inner k => ∃ reached, (numberOf ⟨inner, reached⟩).val = k)
      (chart.level level.val)
  inner : ∀ level machine, nested.machines[(numberOf level).val]? = some machine →
    ∀ state ∈ (chart.level level.val).states,
      Option.Rel (fun inner k => ∃ reached, (numberOf ⟨inner, reached⟩).val = k) state.inner
        (machine.inner? state.symbol)
  shared : ∀ first second machine other,
    nested.machines[(numberOf first).val]? = some machine →
    nested.machines[(numberOf second).val]? = some other →
    ∀ state ∈ (chart.level first.val).states, ∀ twin ∈ (chart.level second.val).states,
      (machine.inner? state.symbol = other.inner? twin.symbol ↔ state.inner = twin.inner)

end Graphs

section Machines

variable {S I L : Type} [DecidableEq S] [Hashable S] [Named S] [Named I] {options : Options}
  {Places : L → Nat → Prop} {level : Level S I L} {machine : Machine S I}

theorem nests_of_inner? (mirrors : machine.Mirrors options Places level) {symbol : S} {k : Nat}
    (found : machine.inner? symbol = some k) : ∃ inner ∈ level.inners, Places inner k := by
  obtain ⟨bound, memberBound, nested⟩ := state_of_inner? found
  obtain ⟨state, member, mirror⟩ := forall₂_mem_right mirrors.states memberBound
  have inner := mirror.inner
  rw [nested] at inner
  generalize source : state.inner = declared at inner
  cases inner with
  | @some inner _ placed => exact ⟨inner, List.mem_filterMap.mpr ⟨state, member, source⟩, placed⟩

theorem state?_of_symbol_mem (mirrors : machine.Mirrors options Places level)
    (distinct : level.symbols.Nodup) {symbol : S} (known : symbol ∈ level.symbols) :
    ∃ bound, machine.state? symbol = some bound := by
  obtain ⟨state, member, rfl⟩ := List.mem_map.mp known
  obtain ⟨bound, found, _⟩ := state?_of_mirrors mirrors distinct member
  exact ⟨bound, found⟩

theorem closed_of_mirrors [DecidableEq I] (mirrors : machine.Mirrors options Places level)
    (sound : level.Sound) : machine.Closed := by
  have known : ∀ state ∈ machine.states, machine.state? state.symbol = some state :=
    fun _ member => (state?_iff mirrors sound.distinct).mpr ⟨member, rfl⟩
  constructor
  · have start : machine.start = level.start := congrArg Machine.start mirrors.indexed
    exact state?_of_symbol_mem mirrors sound.distinct (start ▸ sound.start)
  · exact known
  · intro bound member arc among
    obtain ⟨state, declared, mirror⟩ := forall₂_mem_right mirrors.states member
    obtain ⟨t, memberT, related⟩ := forall₂_mem_right mirror.arcs among
    have target := (sound.states state declared).targets t memberT
    rw [related.target]
    exact state?_of_symbol_mem mirrors sound.distinct target
  · intro bound member arc among
    obtain ⟨state, declared, mirror⟩ := forall₂_mem_right mirrors.states member
    have inputs := (sound.states state declared).inputs
    rw [← inputs_of_mirrors mirror.arcs] at inputs
    exact ⟨_, step?_of_arc (known bound member) inputs among, rfl, rfl, rfl⟩
  · intro symbol input step taken
    obtain ⟨bound, found, arc, among, same, rfl⟩ := step?_some taken
    obtain ⟨member, own⟩ := (state?_iff mirrors sound.distinct).mp found
    exact ⟨⟨bound, member, own, arc, among, same, rfl⟩, rfl⟩

end Machines

namespace Chart

variable {S I : Type} [DecidableEq S] [Hashable S] [Named S] [Named I] {chart : Chart S I}
  {root : Fin chart.size} {options : Options} {workshop : Workshop S I (Fin chart.size)}
  {nested : Nested S I}

omit [Named S] [Named I] in
theorem number?_injective {first second : Fin chart.size} {k : Nat}
    (here : workshop.number? first = some k) (there : workshop.number? second = some k) :
    first = second := by
  obtain ⟨_, entry⟩ := Workshop.number?_some here
  obtain ⟨_, same⟩ := Workshop.number?_some there
  rw [entry, Option.some.injEq, Prod.mk.injEq] at same
  exact same.1

theorem number_of_reaches (built : chart.NestedFrom root options workshop nested)
    (wellformed : chart.Wellformed root) {level : Fin chart.size}
    (reaches : chart.Reaches root level) :
    ∃ k, workshop.number? level = some k ∧ nested.Reaches nested.root k := by
  induction reaches with
  | refl => exact ⟨nested.root, built.root, .refl⟩
  | @tail outer inner further nests ih =>
    obtain ⟨k, found, way⟩ := ih
    obtain ⟨machine, here, mirrors⟩ := machine_of_level built found
    obtain ⟨state, member, nested⟩ := nests_iff.mp nests
    have rel := inner?_of_mirrors mirrors (wellformed.sound outer further).distinct member
    rw [nested] at rel
    generalize asked : machine.inner? state.symbol = answer at rel
    cases rel with
    | @some _ j foundInner => exact ⟨j, foundInner, way.tail ⟨machine, state.symbol, here, asked⟩⟩

theorem level_of_reaches (built : chart.NestedFrom root options workshop nested) {k : Nat}
    (reaches : nested.Reaches nested.root k) :
    ∃ level, chart.Reaches root level ∧ workshop.number? level = some k := by
  induction reaches with
  | refl => exact ⟨root, .refl, built.root⟩
  | @tail outer inner _ names ih =>
    obtain ⟨level, way, found⟩ := ih
    obtain ⟨machine, here, mirrors⟩ := machine_of_level built found
    obtain ⟨other, symbol, there, asked⟩ := names
    rw [here, Option.some.injEq] at there
    subst there
    obtain ⟨inside, nests, placed⟩ := nests_of_inner? mirrors asked
    exact ⟨inside, way.tail nests, placed⟩

def numbering (built : chart.NestedFrom root options workshop nested)
    (wellformed : chart.Wellformed root) (level : {level // chart.Reaches root level}) :
    {k // nested.Reaches nested.root k} :=
  have known : (workshop.number? level.val).isSome := by
    obtain ⟨k, found, _⟩ := number_of_reaches built wellformed level.property
    simp [found]
  ⟨(workshop.number? level.val).get known, by
    obtain ⟨k, found, way⟩ := number_of_reaches built wellformed level.property
    simpa [found] using way⟩

theorem number?_numbering (built : chart.NestedFrom root options workshop nested)
    (wellformed : chart.Wellformed root) (level : {level // chart.Reaches root level}) :
    workshop.number? level.val = some (numbering built wellformed level).val :=
  (Option.some_get _).symm

theorem numbering_bijective (built : chart.NestedFrom root options workshop nested)
    (wellformed : chart.Wellformed root) :
    Function.Bijective (numbering built wellformed) := by
  constructor
  · intro first second same
    have here := number?_numbering built wellformed first
    have there := number?_numbering built wellformed second
    rw [← same] at there
    exact Subtype.ext (number?_injective here there)
  · intro ⟨k, way⟩
    obtain ⟨level, reaches, found⟩ := level_of_reaches built way
    refine ⟨⟨level, reaches⟩, Subtype.ext ?_⟩
    have here := number?_numbering built wellformed ⟨level, reaches⟩
    exact Option.some.inj (here.symm.trans found)

omit [Named S] [Named I] in
theorem same_number_iff {declared other : Option (Fin chart.size)} {number twin : Option Nat}
    (here : Option.Rel (fun level k => workshop.number? level = some k) declared number)
    (there : Option.Rel (fun level k => workshop.number? level = some k) other twin) :
    number = twin ↔ declared = other := by
  cases here with
  | none => cases there <;> simp
  | some found =>
    cases there with
    | none => simp
    | some foundOther =>
      simp only [Option.some.injEq]
      constructor
      · rintro rfl
        exact number?_injective found foundOther
      · rintro rfl
        exact Option.some.inj (found.symm.trans foundOther)

theorem portrays_of_built (built : chart.NestedFrom root options workshop nested)
    (wellformed : chart.Wellformed root) :
    nested.Portrays chart root options
      (Equiv.ofBijective _ (numbering_bijective built wellformed)) := by
  have numbered := number?_numbering built wellformed
  have placed : ∀ outer, chart.Reaches root outer → ∀ inner ∈ (chart.level outer).inners, ∀ k,
      workshop.number? inner = some k →
      ∃ reached, (numbering built wellformed ⟨inner, reached⟩).val = k := by
    intro outer reaches inner nests k found
    have reached : chart.Reaches root inner := reaches.tail nests
    exact ⟨reached, Option.some.inj ((numbered ⟨inner, reached⟩).symm.trans found)⟩
  have asked : ∀ (level : {level // chart.Reaches root level}) machine,
      nested.machines[(numbering built wellformed level).val]? = some machine →
      ∀ state ∈ (chart.level level.val).states,
        Option.Rel (fun inner k => workshop.number? inner = some k) state.inner
          (machine.inner? state.symbol) := by
    intro level machine here state member
    obtain ⟨_, hereToo, mirrors⟩ := machine_of_level built (numbered level)
    cases Option.some.inj (here.symm.trans hereToo)
    exact inner?_of_mirrors mirrors (wellformed.sound level level.property).distinct member
  constructor
  · exact Subtype.ext (Option.some.inj ((numbered ⟨root, .refl⟩).symm.trans built.root))
  · intro level
    obtain ⟨machine, here, mirrors⟩ := machine_of_level built (numbered level)
    exact ⟨machine, here, congrArg Machine.start mirrors.indexed,
      mirrors_imp (placed level level.property) mirrors⟩
  · intro level machine here state member
    refine rel_imp (fun inner nests => ?_) (asked level machine here state member)
    exact placed level level.property inner (List.mem_filterMap.mpr ⟨state, member, nests⟩)
  · intro first second machine other here there state member twin memberTwin
    exact same_number_iff (asked first machine here state member)
      (asked second other there twin memberTwin)

variable [DecidableEq I]

/-- The nested machines of a checked chart are its levels over again: the levels and the machines
that can be reached correspond one to one, the root to the root, each machine mirrors its level and
shares nested machines as its level shares levels. No machine speaks of a state that it does not
have. Each answers every transition of its states with the target and the machine nested there, and
answers nothing else. -/
theorem machines_portray_levels (chart : Chart S I) (root : Fin chart.size)
    (accepted : chart.check root = .ok ()) (options : Options) (journal : Journal) :
    ∃ nested after, (chart.nested root options).run journal = (.ok nested, after) ∧
      (∃ numberOf, nested.Portrays chart root options numberOf) ∧
      ∀ k, nested.Reaches nested.root k →
        ∃ machine, nested.machines[k]? = some machine ∧ machine.Closed := by
  have wellformed := check_ok_iff.mp accepted
  obtain ⟨nested, after, run, workshop, built⟩ := nested_makes accepted options journal
  refine ⟨nested, after, run, ⟨_, portrays_of_built built wellformed⟩, ?_⟩
  intro k way
  obtain ⟨level, reaches, found⟩ := level_of_reaches built way
  obtain ⟨machine, here, mirrors⟩ := machine_of_level built found
  exact ⟨machine, here, closed_of_mirrors mirrors (wellformed.sound level reaches)⟩

def tower : Chart String String where
  size := 3
  level number :=
    if number.val = 0 then {
      start := "stairs"
      states := [
        { symbol := "stairs", inner := some ⟨1, by decide⟩,
          transitions := [⟨"climb", "roof", some (.lazy 0 "pant")⟩] },
        { symbol := "roof", entry := some (.fixed "look"), inner := some ⟨2, by decide⟩ }] }
    else if number.val = 1 then {
      start := "landing"
      states := [{ symbol := "landing", inner := some ⟨2, by decide⟩ }] }
    else {
      start := "dark"
      states := [
        { symbol := "dark", transitions := [⟨"switch", "light", none⟩] },
        { symbol := "light", exit := some (.lazy 1 "click") }] }

def towerRoot : Fin tower.size := ⟨0, by decide⟩

theorem tower_machines_portray_levels : tower.check towerRoot = .ok () ∧
    ∃ nested after, (tower.nested towerRoot {}).run {} = (.ok nested, after) ∧
      ∃ (k j : Nat) (outer deeper : Machine String String), nested.machines[k]? = some outer ∧
        nested.machines[j]? = some deeper ∧ outer.inner? "roof" = deeper.inner? "landing" ∧
        ∃ step, outer.step? "stairs" "climb" = some step ∧ step.target = "roof" ∧
          step.inner = deeper.inner? "landing" := by
  have accepted : tower.check towerRoot = .ok () := by cbv
  obtain ⟨nested, after, run, ⟨numberOf, portrays⟩, closed⟩ :=
    machines_portray_levels tower towerRoot accepted {} {}
  have nests : tower.Nests towerRoot ⟨1, by decide⟩ := List.mem_cons_self
  obtain ⟨outer, here, _, mirrors⟩ := portrays.machine ⟨towerRoot, .refl⟩
  obtain ⟨deeper, there, _⟩ := portrays.machine ⟨_, .single nests⟩
  have shared : outer.inner? "roof" = deeper.inner? "landing" :=
    (portrays.shared _ _ outer deeper here there _ (List.mem_cons_of_mem _ List.mem_cons_self)
      _ List.mem_cons_self).mpr rfl
  obtain ⟨machine, hereToo, whole⟩ := closed _ (numberOf ⟨towerRoot, .refl⟩).property
  obtain rfl := Option.some.inj (here.symm.trans hereToo)
  obtain ⟨stairs, member, mirror⟩ := forall₂_mem_left mirrors.states List.mem_cons_self
  obtain ⟨climb, among, related⟩ := forall₂_mem_left mirror.arcs List.mem_cons_self
  obtain ⟨step, taken, target, _, inner⟩ := whole.answers stairs member climb among
  rw [mirror.symbol, related.input] at taken
  rw [related.target] at target inner
  exact ⟨accepted, nested, after, run, _, _, outer, deeper, here, there, shared, step, taken,
    target, inner.trans shared⟩

end Chart
end Statechart
