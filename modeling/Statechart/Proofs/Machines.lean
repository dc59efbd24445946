import Statechart.Nested
import Statechart.Proofs.Attachment
import Statechart.Proofs.LevelFault
import Statechart.Proofs.Indexing

/-!
Machines mirror levels: the same start, the same states and transitions in the same order, an action
where the level has a hook, and for a nested level the number that was found for it.
-/
namespace Statechart

variable {S I L : Type}

section Mirrors

variable [Named S] [Named I]

structure MachineArc.Mirrors (options : Options) (source : S) (t : Transition S I)
    (arc : MachineArc S I) : Prop where
  input : arc.input = t.input
  target : arc.target = t.target
  effect : Option.Rel Hook.Yields t.effect arc.effect
  label : arc.label = options.label
    (arrowLabel (Named.name source) (Named.name t.input) (Named.name t.target))

/-- The state of the machine is the one of the level, bound; `Places` says which number stands
for a level. -/
structure MachineState.Mirrors (options : Options) (Places : L → Nat → Prop) (state : State S I L)
    (bound : MachineState S I) : Prop where
  symbol : bound.symbol = state.symbol
  entry : Option.Rel Hook.Yields state.entry bound.entry
  exit : Option.Rel Hook.Yields state.exit bound.exit
  arcs : List.Forall₂ (MachineArc.Mirrors options state.symbol) state.transitions bound.arcs
  inner : Option.Rel Places state.inner bound.inner
  label : bound.label = options.label (Named.name state.symbol)

structure Machine.Mirrors [DecidableEq S] [Hashable S] (options : Options)
    (Places : L → Nat → Prop) (level : Level S I L) (machine : Machine S I) : Prop where
  states : List.Forall₂ (MachineState.Mirrors options Places) level.states machine.states
  indexed : machine = .ofStates level.start machine.states

variable {options : Options} {Places Others : L → Nat → Prop}

omit [Named S] [Named I] in
theorem rel_imp {inner : Option L} {number : Option Nat}
    (weaker : ∀ l, inner = some l → ∀ k, Places l k → Others l k)
    (rel : Option.Rel Places inner number) : Option.Rel Others inner number := by
  cases rel with
  | none => exact .none
  | some here => exact .some (weaker _ rfl _ here)

theorem machineState_mirrors_imp {state : State S I L} {bound : MachineState S I}
    (weaker : ∀ l, state.inner = some l → ∀ k, Places l k → Others l k)
    (mirrors : bound.Mirrors options Places state) : bound.Mirrors options Others state :=
  ⟨mirrors.symbol, mirrors.entry, mirrors.exit, mirrors.arcs, rel_imp weaker mirrors.inner,
    mirrors.label⟩

theorem mirrors_imp [DecidableEq S] [Hashable S] {level : Level S I L} {machine : Machine S I}
    (weaker : ∀ l ∈ level.inners, ∀ k, Places l k → Others l k)
    (mirrors : machine.Mirrors options Places level) : machine.Mirrors options Others level := by
  have nested : ∀ state ∈ level.states, ∀ l, state.inner = some l → l ∈ level.inners :=
    fun state member l here => List.mem_filterMap.mpr ⟨state, member, here⟩
  have each := (List.forall₂_and_left _ _).mpr ⟨nested, mirrors.states⟩
  refine ⟨each.imp ?_, mirrors.indexed⟩
  intro state bound ⟨within, mirror⟩
  exact machineState_mirrors_imp (fun l here => weaker l (within l here)) mirror

end Mirrors

/-- The hooks of a state in the order of binding: those of its transitions, its entry, its exit. -/
def State.slots (state : State S I L) : List Hook :=
  state.transitions.filterMap Transition.effect ++ state.entry.toList ++ state.exit.toList

def Level.slots (level : Level S I L) : List Hook := level.states.flatMap State.slots

def MachineState.actions (state : MachineState S I) : List Action :=
  state.arcs.filterMap MachineArc.effect ++ state.entry.toList ++ state.exit.toList

def Machine.actions [DecidableEq S] [Hashable S] (machine : Machine S I) : List Action :=
  machine.states.flatMap MachineState.actions

structure Machine.Fits [DecidableEq S] [Hashable S] (level : Level S I L)
    (attachments : List Attachment) (machine : Machine S I) : Prop where
  hooks : attachments.map Attachment.hook = level.slots
  actions : attachments.map Attachment.action = machine.actions

section Binding

variable [Named S] [Named I] {options : Options}

open Compilation

theorem transition_bind_mirrors (source : S) (t : Transition S I) (journal : Journal) :
    MachineArc.Mirrors options source t (t.bind options source journal).1 :=
  ⟨rfl, rfl, Hook.bindOption_yields t.effect journal, rfl⟩

theorem transitions_bind (source : S) (transitions : List (Transition S I)) :
    Binds (liftM (transitions.mapM (Transition.bind options source) : StateM Journal _) :
      Compilation S I (List (MachineArc S I))) fun arcs attachments =>
        List.Forall₂ (MachineArc.Mirrors options source) transitions arcs ∧
          attachments.map Attachment.hook = transitions.filterMap Transition.effect ∧
          attachments.map Attachment.action = arcs.filterMap MachineArc.effect := by
  refine binds_of_state fun journal => ?_
  induction transitions generalizing journal with
  | nil => exact ⟨[], attaches_nil journal, .nil, rfl, rfl⟩
  | cons t transitions ih =>
    obtain ⟨own, attaches, hooks, actions, _⟩ := attaches_bindOption t.effect journal
    obtain ⟨more, attachesMore, mirrorsMore, hooksMore, actionsMore⟩ :=
      ih (Hook.bindOption t.effect journal).2
    rw [List.mapM_cons]
    refine ⟨own ++ more, attaches_append attaches attachesMore,
      .cons (transition_bind_mirrors source t journal) mirrorsMore, ?_, ?_⟩
    · rw [List.map_append, hooks, hooksMore]
      cases present : t.effect <;> simp [present]
    · rw [List.map_append, actions, actionsMore]
      change _ = List.filterMap MachineArc.effect ((t.bind options source journal).1 :: _)
      have effect : (t.bind options source journal).1.effect
          = (Hook.bindOption t.effect journal).1 := rfl
      rw [List.filterMap_cons, effect]
      cases (Hook.bindOption t.effect journal).1 <;> rfl

omit [Named S] [Named I] in
theorem inner_found {machineOf : L → Except (Fault S I) Nat} {state : State S I L}
    (known : ∀ inner, state.inner = some inner → ∃ k, machineOf inner = .ok k) :
    ∃ inner, state.inner.mapM machineOf = .ok inner ∧
      Option.Rel (fun l k => machineOf l = .ok k) state.inner inner := by
  cases nested : state.inner with
  | none => exact ⟨none, rfl, .none⟩
  | some inner =>
    obtain ⟨k, here⟩ := known inner nested
    refine ⟨some k, ?_, .some here⟩
    change some <$> machineOf inner = .ok (some k)
    rw [here]
    rfl

theorem state_binds {machineOf : L → Except (Fault S I) Nat} {state : State S I L}
    (known : ∀ inner, state.inner = some inner → ∃ k, machineOf inner = .ok k) :
    (state.bind options machineOf).Binds fun bound attachments =>
      bound.Mirrors options (fun l k => machineOf l = .ok k) state ∧
        attachments.map Attachment.hook = state.slots ∧
        attachments.map Attachment.action = bound.actions := by
  obtain ⟨inner, found, places⟩ := inner_found known
  unfold State.bind
  refine binds_bind (binds_of_ok found) ?_
  rintro _ _ ⟨rfl, rfl⟩
  refine binds_bind (transitions_bind state.symbol state.transitions) ?_
  rintro arcs ofArcs ⟨mirrors, effects, ofEffects⟩
  refine binds_bind (binds_bindOption state.entry) ?_
  rintro entry ofEntry ⟨entries, ofEntries, first⟩
  refine binds_bind (binds_bindOption state.exit) ?_
  rintro exit ofExit ⟨exits, ofExits, last⟩
  refine binds_pure ⟨⟨rfl, first, last, mirrors, places, rfl⟩, ?_, ?_⟩
  · simp [State.slots, effects, entries, exits]
  · simp [MachineState.actions, ofEffects, ofEntries, ofExits]

theorem level_binds [DecidableEq S] [Hashable S] {machineOf : L → Except (Fault S I) Nat}
    {level : Level S I L} (known : ∀ inner ∈ level.inners, ∃ k, machineOf inner = .ok k) :
    (level.bind options machineOf).Binds fun machine attachments =>
      machine.Mirrors options (fun l k => machineOf l = .ok k) level ∧
        machine.Fits level attachments := by
  unfold Level.bind
  have each : ∀ state ∈ level.states, (state.bind options machineOf).Binds _ :=
    fun state member => state_binds fun inner nested =>
      known inner (List.mem_filterMap.mpr ⟨state, member, nested⟩)
  refine binds_bind (binds_mapM each) ?_
  rintro _ _ ⟨parts, rfl, rfl, fits⟩
  have hooks : level.states.map State.slots
      = parts.map fun part => part.2.map Attachment.hook :=
    map_eq_of_forall₂ (fits.imp fun _ _ here => here.2.1.symm)
  have actions : ∀ part ∈ parts, part.2.map Attachment.action = part.1.actions := by
    intro part member
    obtain ⟨_, _, _, _, here⟩ := forall₂_mem_right fits member
    exact here
  refine binds_pure ⟨⟨?_, rfl⟩, ?_, ?_⟩
  · exact List.forall₂_map_right_iff.mpr (fits.imp fun _ _ here => here.1)
  · rw [List.append_nil, List.map_flatMap, Level.slots, List.flatMap_def, List.flatMap_def, hooks]
  · rw [List.append_nil, List.map_flatMap, List.flatMap_congr actions, Machine.actions,
      Machine.ofStates, List.flatMap_map]

end Binding

section Answers

variable [DecidableEq S] [Hashable S] {machine : Machine S I}

theorem state?_ofStates (start symbol : S) (states : List (MachineState S I)) :
    (Machine.ofStates start states).state? symbol
      = states.reverse.find? fun state => state.symbol == symbol := by
  have whole : states.reverse = states.zipIdx.reverse.map Prod.fst := by
    rw [List.map_reverse, List.zipIdx_map_fst]
  have numbered : states.reverse.find? (fun state => state.symbol == symbol)
      = (states.zipIdx.reverse.find? fun e => e.1.symbol == symbol).map Prod.fst := by
    rw [whole, List.find?_map]
    rfl
  have index := getElem?_foldl_insert (fun e : MachineState S I × Nat => e.1.symbol) Prod.snd
    states.zipIdx {} symbol
  rw [Std.HashMap.getElem?_empty, Option.or_none] at index
  simp only [Machine.state?, Machine.ofStates, index, numbered]
  cases last : states.zipIdx.reverse.find? fun e => e.1.symbol == symbol with
  | none => rfl
  | some e =>
    have among := List.mem_reverse.mp (List.mem_of_find?_eq_some last)
    exact List.mk_mem_zipIdx_iff_getElem?.mp among

theorem inner?_of_state? {symbol : S} {bound : MachineState S I}
    (found : machine.state? symbol = some bound) : machine.inner? symbol = bound.inner := by
  simp only [Machine.inner?, found, Option.bind_eq_bind, Option.bind_some]

theorem state_of_inner? {symbol : S} {k : Nat} (found : machine.inner? symbol = some k) :
    ∃ bound ∈ machine.states, bound.inner = some k := by
  simp only [Machine.inner?, Machine.state?, Option.bind_eq_bind, Option.bind_eq_some_iff] at found
  obtain ⟨bound, ⟨_, _, here⟩, nested⟩ := found
  exact ⟨bound, List.mem_of_getElem? here, nested⟩

variable [DecidableEq I]

theorem step?_of_arc {bound : MachineState S I} {symbol : S}
    (found : machine.state? symbol = some bound) (inputs : (bound.arcs.map MachineArc.input).Nodup)
    {arc : MachineArc S I} (among : arc ∈ bound.arcs) :
    machine.step? symbol arc.input
      = some ⟨arc.target, arc.effect.getD .idle, machine.inner? arc.target⟩ := by
  have first : bound.arcs.find? (fun other => other.input = arc.input) = some arc :=
    find?_of_distinct MachineArc.input inputs among
  simp only [Machine.step?, found, Option.bind_eq_bind, Option.bind_some, first]
  rfl

theorem step?_some {symbol : S} {input : I} {step : MachineStep S}
    (taken : machine.step? symbol input = some step) :
    ∃ bound, machine.state? symbol = some bound ∧ ∃ arc ∈ bound.arcs, arc.input = input ∧
      step = ⟨arc.target, arc.effect.getD .idle, machine.inner? arc.target⟩ := by
  simp only [Machine.step?, Option.bind_eq_bind, Option.bind_eq_some_iff] at taken
  obtain ⟨bound, found, arc, first, same⟩ := taken
  have input := List.find?_some first
  exact ⟨bound, found, arc, List.mem_of_find?_eq_some first, of_decide_eq_true input,
    (Option.some.inj same).symm⟩

end Answers

section Asking

variable [DecidableEq S] [Hashable S] [Named S] [Named I] {options : Options}
  {Places : L → Nat → Prop} {level : Level S I L} {machine : Machine S I}

omit [DecidableEq S] [Hashable S] in
theorem symbols_of_mirrors {states : List (State S I L)} {bound : List (MachineState S I)}
    (mirrors : List.Forall₂ (MachineState.Mirrors options Places) states bound) :
    bound.map MachineState.symbol = states.map State.symbol := by
  induction mirrors with
  | nil => rfl
  | cons here _ ih => rw [List.map_cons, List.map_cons, ih, here.symbol]

omit [DecidableEq S] [Hashable S] in
theorem inputs_of_mirrors {source : S} {transitions : List (Transition S I)}
    {arcs : List (MachineArc S I)}
    (mirrors : List.Forall₂ (MachineArc.Mirrors options source) transitions arcs) :
    arcs.map MachineArc.input = transitions.map Transition.input := by
  induction mirrors with
  | nil => rfl
  | cons here _ ih => rw [List.map_cons, List.map_cons, ih, here.input]

theorem state?_iff (mirrors : machine.Mirrors options Places level)
    (distinct : level.symbols.Nodup) {symbol : S} {bound : MachineState S I} :
    machine.state? symbol = some bound ↔ bound ∈ machine.states ∧ bound.symbol = symbol := by
  have index : machine.state? symbol
      = machine.states.reverse.find? fun state => state.symbol == symbol := by
    conv_lhs => rw [mirrors.indexed]
    exact state?_ofStates level.start symbol machine.states
  rw [index]
  constructor
  · intro found
    have same := List.find?_some found
    exact ⟨List.mem_reverse.mp (List.mem_of_find?_eq_some found), beq_iff_eq.mp same⟩
  · rintro ⟨member, rfl⟩
    have reversed : (machine.states.reverse.map MachineState.symbol).Nodup := by
      rw [List.map_reverse, List.nodup_reverse, symbols_of_mirrors mirrors.states]
      exact distinct
    exact find?_of_distinct MachineState.symbol reversed (List.mem_reverse.mpr member)

theorem state?_of_mirrors (mirrors : machine.Mirrors options Places level)
    (distinct : level.symbols.Nodup) {state : State S I L} (member : state ∈ level.states) :
    ∃ bound, machine.state? state.symbol = some bound ∧ bound.Mirrors options Places state := by
  obtain ⟨bound, memberBound, mirror⟩ := forall₂_mem_left mirrors.states member
  exact ⟨bound, (state?_iff mirrors distinct).mpr ⟨memberBound, mirror.symbol⟩, mirror⟩

theorem inner?_of_mirrors (mirrors : machine.Mirrors options Places level)
    (distinct : level.symbols.Nodup) {state : State S I L} (member : state ∈ level.states) :
    Option.Rel Places state.inner (machine.inner? state.symbol) := by
  obtain ⟨bound, found, mirror⟩ := state?_of_mirrors mirrors distinct member
  rw [inner?_of_state? found]
  exact mirror.inner

theorem enter_performs (mirrors : machine.Mirrors options Places level)
    (distinct : level.symbols.Nodup) {state : State S I L} (member : state ∈ level.states) :
    Performs (fun journal => (machine.enter state.symbol journal).2) state.entry.toList := by
  obtain ⟨bound, found, mirror⟩ := state?_of_mirrors mirrors distinct member
  simp only [Machine.enter, found]
  exact Hook.performs_option mirror.entry

theorem leave_performs (mirrors : machine.Mirrors options Places level)
    (distinct : level.symbols.Nodup) {state : State S I L} (member : state ∈ level.states) :
    Performs (fun journal => (machine.leave state.symbol journal).2) state.exit.toList := by
  obtain ⟨bound, found, mirror⟩ := state?_of_mirrors mirrors distinct member
  simp only [Machine.leave, found]
  exact Hook.performs_option mirror.exit

variable [DecidableEq I]

theorem step?_of_silent (mirrors : machine.Mirrors options Places level)
    (distinct : level.symbols.Nodup) {state : State S I L} (member : state ∈ level.states)
    {input : I} (silent : ∀ t ∈ state.transitions, t.input ≠ input) :
    machine.step? state.symbol input = none := by
  obtain ⟨bound, found, mirror⟩ := state?_of_mirrors mirrors distinct member
  rw [Option.eq_none_iff_forall_ne_some]
  intro step taken
  obtain ⟨other, foundOther, arc, among, same, _⟩ := step?_some taken
  cases Option.some.inj (found.symm.trans foundOther)
  obtain ⟨t, declared, related⟩ := forall₂_mem_right mirror.arcs among
  exact silent t declared (related.input.symm.trans same)

theorem step?_of_declared (mirrors : machine.Mirrors options Places level)
    (distinct : level.symbols.Nodup) {state : State S I L} (member : state ∈ level.states)
    (inputs : (state.transitions.map Transition.input).Nodup) {t : Transition S I}
    (declared : t ∈ state.transitions) : ∃ action, Performs action.run t.effect.toList ∧
      machine.step? state.symbol t.input = some ⟨t.target, action, machine.inner? t.target⟩ := by
  obtain ⟨bound, found, mirror⟩ := state?_of_mirrors mirrors distinct member
  obtain ⟨arc, among, related⟩ := forall₂_mem_left mirror.arcs declared
  rw [← inputs_of_mirrors mirror.arcs] at inputs
  have step := step?_of_arc found inputs among
  rw [related.input, related.target] at step
  exact ⟨arc.effect.getD .idle, Hook.performs_option related.effect, step⟩

end Asking

end Statechart
