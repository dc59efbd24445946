import Statechart.Proofs.RenamedMoves

/-!
Symbols are opaque. What a renamed chart compiles to is what the chart compiles to, renamed: in
every order and number, in what is bound on the way, and in the fault where there is one. Labels are
left aside, since they show names. Main result: `renaming_commutes`.
-/
namespace Statechart

section Renaming

variable {S I S' I' : Type} (f : S → S') (g : I → I')

def MachineArc.rename (arc : MachineArc S I) : MachineArc S' I' :=
  { input := g arc.input, target := f arc.target, effect := arc.effect, label := arc.label }

def MachineState.rename (state : MachineState S I) : MachineState S' I' :=
  { symbol := f state.symbol
    entry := state.entry
    exit := state.exit
    arcs := state.arcs.map (MachineArc.rename f g)
    inner := state.inner
    label := state.label }

variable [DecidableEq S] [Hashable S] [DecidableEq S'] [Hashable S']

def Machine.rename (machine : Machine S I) : Machine S' I' :=
  .ofStates (f machine.start) (machine.states.map (MachineState.rename f g))

def Nested.rename (nested : Nested S I) : Nested S' I' :=
  { machines := nested.machines.map (Machine.rename f g), root := nested.root }

end Renaming

variable {S I S' I' : Type} {f : S → S'} {g : I → I'}

section Machines

variable {L : Type} [Named S] [Named I] [Named S'] [Named I']

theorem transition_bind_renamed (source : S) (t : Transition S I) :
    (t.rename f g).bind {} (f source) = MachineArc.rename f g <$> t.bind {} source := rfl

theorem state_bind_renamed (machineOf : L → Except (Fault S I) Nat) (state : State S I L) :
    (state.rename f g).bind {} (fun inner => Fault.renameIn f g (machineOf inner))
      = MachineState.rename f g <$> (state.bind {} machineOf).rename f g := by
  have inner : (state.rename f g).inner.mapM (fun inner => Fault.renameIn f g (machineOf inner))
      = Fault.renameIn f g (state.inner.mapM machineOf) := by
    change state.inner.mapM (fun inner => Fault.renameIn f g (machineOf inner)) = _
    cases state.inner with
    | none => rfl
    | some level => exact (mapError_map _ some (machineOf level)).symm
  have arcs : (state.rename f g).transitions.mapM (Transition.bind {} (state.rename f g).symbol)
      = List.map (MachineArc.rename f g) <$>
        state.transitions.mapM (Transition.bind {} state.symbol) :=
    mapM_mapped fun t _ => transition_bind_renamed state.symbol t
  have entry : (state.rename f g).entry = state.entry := rfl
  have exit : (state.rename f g).exit = state.exit := rfl
  simp only [State.bind, inner, arcs, entry, exit, liftM_map_state, bind_map_left,
    Compilation.adapt_bind, Compilation.adapt_of_except, Compilation.adapt_of_state,
    Compilation.adapt_pure, map_bind, map_pure]
  rfl

variable [DecidableEq S] [Hashable S] [DecidableEq S'] [Hashable S']

theorem level_bind_renamed (machineOf : L → Except (Fault S I) Nat) (level : Level S I L) :
    (level.rename f g).bind {} (fun inner => Fault.renameIn f g (machineOf inner))
      = Machine.rename f g <$> (level.bind {} machineOf).rename f g := by
  have states : (level.rename f g).states.mapM
        (State.bind {} fun inner => Fault.renameIn f g (machineOf inner))
      = List.map (MachineState.rename f g) <$>
        (level.states.mapM (State.bind {} machineOf)).rename f g :=
    Compilation.mapM_adapt fun state _ => state_bind_renamed machineOf state
  simp only [Level.bind, states, bind_map_left, Compilation.adapt_bind, Compilation.adapt_pure,
    map_bind, map_pure]
  rfl

theorem exchanged_renamed (chart : Chart S I) : chart.Exchanged {}
    (fun number => (chart.level number).rename f g) (Fault.rename f g) (Machine.rename f g) where
  inners number := (chart.level number).inners_rename
  cyclic _ := rfl
  bind machineOf number := level_bind_renamed machineOf (chart.level number)

theorem nested_renamed [DecidableEq I] [DecidableEq I'] (injective : Function.Injective f)
    (injectiveInputs : Function.Injective g) (chart : Chart S I) (root : Fin chart.size) :
    (chart.rename f g).nested root {}
      = Nested.rename f g <$> (chart.nested root {}).rename f g :=
  Chart.nested_carried (exchanged_renamed chart)
    (Chart.check_renamed injective injectiveInputs root)

end Machines

structure Mute where
  symbol : String
  deriving DecidableEq, Hashable

instance : Named Mute := ⟨fun _ => ""⟩

namespace Chart

open Compilation

section Apart

variable [DecidableEq S] [Hashable S] [DecidableEq S'] [Hashable S']

theorem machine_renamed_unlabelled (machine : Machine S I) :
    machine.unlabelled.rename f g = (machine.rename f g).unlabelled := by
  rw [Machine.rename, Machine.rename, Machine.unlabelled_ofStates]
  simp only [Machine.unlabelled, List.map_map]
  congr 2
  funext state
  simp [MachineState.rename, MachineState.unlabelled, MachineArc.rename, MachineArc.unlabelled]

theorem nested_renamed_unlabelled (nested : Nested S I) :
    nested.unlabelled.rename f g = (nested.rename f g).unlabelled := by
  simp only [Nested.rename, Nested.unlabelled, Array.map_map]
  congr 2
  funext machine
  exact machine_renamed_unlabelled machine

variable [DecidableEq I] [Hashable I] [DecidableEq I'] [Hashable I']

theorem table_renamed_unlabelled (table : Table S I) :
    table.unlabelled.rename f g = (table.rename f g).unlabelled := by
  have row : ∀ row : Row S I, row.unlabelled.rename f g = (row.rename f g).unlabelled := by
    intro row
    simp [Row.rename, Row.unlabelled, Row.inputs, Cell.rename, Cell.unlabelled, Function.comp_def]
  have paths : table.unlabelled.paths = table.paths := by
    simp [Table.unlabelled, Table.paths, Row.unlabelled]
  rw [Table.rename, paths, Table.rename]
  simp only [Table.unlabelled, Array.map_map, Function.comp_def, row]

end Apart

variable [DecidableEq S] [Hashable S] [DecidableEq S'] [Hashable S'] [DecidableEq I] [Hashable I]
  [DecidableEq I'] [Hashable I'] [Named S] [Named I] [Named S'] [Named I']

/-- Renaming states and inputs, distinct ones to distinct ones, commutes with everything that is
done with a chart. No matter which texts the symbols show: those are to be seen in labels alone. -/
theorem renaming_commutes (injective : Function.Injective f)
    (injectiveInputs : Function.Injective g) (chart : Chart S I) (root : Fin chart.size)
    (options : Options) :
    (chart.rename f g).check root = Fault.renameIn f g (chart.check root) ∧
    (chart.rename f g).initial root = List.map f <$> Fault.renameIn f g (chart.initial root) ∧
    List.map Move.unlabelled <$> (chart.rename f g).moves root options
      = List.map (fun m => (m.rename f g).unlabelled) <$>
        (chart.moves root options).rename f g ∧
    Table.unlabelled <$> (chart.rename f g).table root options
      = (fun table => (table.rename f g).unlabelled) <$> (chart.table root options).rename f g ∧
    Nested.unlabelled <$> (chart.rename f g).nested root options
      = (fun nested => (nested.rename f g).unlabelled) <$>
        (chart.nested root options).rename f g := by
  refine ⟨check_renamed injective injectiveInputs root, initial_renamed injective root, ?_, ?_, ?_⟩
  · have plain := moves_renamed injective injectiveInputs chart root
    rw [moves_unlabelled (chart.rename f g) root options, moves_unlabelled chart root options,
      Compilation.rename, adapt_map] at plain
    rw [plain, Functor.map_map]
    congr 1
    funext moves
    exact List.map_map
  · have plain := table_renamed injective injectiveInputs chart root
    rw [table_unlabelled (chart.rename f g) root options, table_unlabelled chart root options,
      Compilation.rename, adapt_map] at plain
    rw [plain, Functor.map_map]
    simp only [table_renamed_unlabelled]
  · have plain := nested_renamed injective injectiveInputs chart root
    rw [nested_unlabelled (chart.rename f g) root options, nested_unlabelled chart root options,
      Compilation.rename, adapt_map] at plain
    rw [plain, Functor.map_map]
    simp only [nested_renamed_unlabelled]

theorem lamp_renaming_commutes : Function.Injective Mute.mk ∧
    (lamp.rename Mute.mk Mute.mk).check lampRoot = .ok () ∧
    (lamp.rename Mute.mk Mute.mk).initial lampRoot = .ok [⟨"off"⟩] ∧
    List.map Move.unlabelled <$> (lamp.rename Mute.mk Mute.mk).moves lampRoot {}
      = List.map (fun m => (m.rename Mute.mk Mute.mk).unlabelled) <$>
        (lamp.moves lampRoot {}).rename Mute.mk Mute.mk ∧
    Table.unlabelled <$> (lamp.rename Mute.mk Mute.mk).table lampRoot {}
      = (fun table => (table.rename Mute.mk Mute.mk).unlabelled) <$>
        (lamp.table lampRoot {}).rename Mute.mk Mute.mk ∧
    Nested.unlabelled <$> (lamp.rename Mute.mk Mute.mk).nested lampRoot {}
      = (fun nested => (nested.rename Mute.mk Mute.mk).unlabelled) <$>
        (lamp.nested lampRoot {}).rename Mute.mk Mute.mk := by
  have injective : Function.Injective Mute.mk := fun _ _ same => congrArg Mute.symbol same
  have initial : lamp.initial lampRoot = .ok ["off"] := by cbv
  obtain ⟨checked, landed, compiled⟩ := renaming_commutes injective injective lamp lampRoot {}
  rw [lamp_accepted] at checked
  rw [initial] at landed
  exact ⟨injective, checked, landed, compiled⟩

end Chart
end Statechart
