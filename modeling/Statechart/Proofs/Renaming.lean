import Mathlib.Data.List.Basic
import Statechart.Proofs.Carrying
import Statechart.Proofs.Unrolling

/-!
Charts with other symbols. Renaming a chart exchanges its states and inputs for values of other
types, distinct ones for distinct ones. The levels stay where they are. What the check, the landing
and the leaves of the renamed chart are is what they are for the chart, renamed; faults included.
-/
namespace Statechart

section Renaming

variable {S I L S' I' : Type} (f : S → S') (g : I → I')

def Transition.rename (t : Transition S I) : Transition S' I' :=
  { input := g t.input, target := f t.target, effect := t.effect }

def State.rename (state : State S I L) : State S' I' L :=
  { symbol := f state.symbol
    entry := state.entry
    exit := state.exit
    transitions := state.transitions.map (Transition.rename f g)
    inner := state.inner }

def Level.rename (level : Level S I L) : Level S' I' L :=
  { start := f level.start, states := level.states.map (State.rename f g) }

abbrev Chart.rename (chart : Chart S I) : Chart S' I' :=
  { size := chart.size, level := fun number => (chart.level number).rename f g }

def Fault.rename : Fault S I → Fault S' I'
  | unknownStart start => unknownStart (f start)
  | unknownState state => unknownState (f state)
  | unknownTarget state target => unknownTarget (f state) (f target)
  | duplicateState state => duplicateState (f state)
  | duplicateTransition state input => duplicateTransition (state.map f) (g input)
  | unresolvedTarget path => unresolvedTarget (path.map f)
  | ambiguous leaf input rank => ambiguous (leaf.map f) (g input) rank
  | cyclic start => cyclic (f start)

def Candidate.rename (c : Candidate S I) : Candidate S' I' :=
  { input := g c.input, target := c.target.map f, effect := c.effect, rank := c.rank }

def Leaf.rename (leaf : Leaf S I) : Leaf S' I' :=
  { path := leaf.path.map f
    entries := leaf.entries
    exits := leaf.exits
    candidates := leaf.candidates.map (Candidate.rename f g) }

def Visit.rename (v : Visit S I L) : Visit S' I' L :=
  { record := v.record.rename f g, inner := v.inner }

abbrev Fault.renameIn {α : Type} (x : Except (Fault S I) α) : Except (Fault S' I') α :=
  x.mapError (Fault.rename f g)

end Renaming

variable {S I L S' I' : Type} {f : S → S'} {g : I → I'}

theorem Level.symbols_rename (level : Level S I L) :
    (level.rename f g).symbols = level.symbols.map f := by
  simp only [symbols, rename, List.map_map]
  rfl

theorem Level.inners_rename (level : Level S I L) : (level.rename f g).inners = level.inners := by
  simp only [inners, rename, List.filterMap_map]
  rfl

variable [DecidableEq S] [DecidableEq S']

theorem firstRepeated_renamed {α β : Type} [DecidableEq α] [DecidableEq β] {f : α → β}
    (injective : Function.Injective f) (seen rest : List α) :
    firstRepeated? (seen.map f) (rest.map f) = (firstRepeated? seen rest).map f := by
  induction rest generalizing seen with
  | nil => rfl
  | cons a rest ih =>
    rw [List.map_cons, firstRepeated?, firstRepeated?, ← List.map_cons, ih]
    simp only [List.mem_map_of_injective injective]
    split <;> rfl

theorem Level.state?_rename (injective : Function.Injective f) (level : Level S I L) (symbol : S) :
    (level.rename f g).state? (f symbol) = (level.state? symbol).map (State.rename f g) := by
  simp only [state?, rename, List.find?_map]
  congr 2
  funext state
  simp [State.rename, injective.eq_iff]

theorem Level.startFirst_rename (injective : Function.Injective f) (level : Level S I L) :
    (level.rename f g).startFirst
      = List.map (State.rename f g) <$> Fault.renameIn f g level.startFirst := by
  have start : (level.rename f g).start = f level.start := rfl
  rw [startFirst, start, state?_rename injective, startFirst]
  cases level.state? level.start with
  | none => rfl
  | some state =>
    have others : (level.rename f g).states.filter (fun state => state.symbol ≠ f level.start)
        = (level.states.filter fun state => state.symbol ≠ level.start).map (State.rename f g) := by
      simp only [rename, List.filter_map]
      congr 2
      funext state
      simp [State.rename, injective.eq_iff]
    simp only [Option.map_some, others]
    rfl

variable [DecidableEq I] [DecidableEq I']

theorem transitions_fault_renamed (injective : Function.Injective f)
    (injectiveInputs : Function.Injective g) (symbols : List S) (state : S) (seen : List I)
    (transitions : List (Transition S I)) :
    Transition.firstFault? (symbols.map f) (f state) (seen.map g)
        (transitions.map (Transition.rename f g))
      = (Transition.firstFault? symbols state seen transitions).map (Fault.rename f g) := by
  induction transitions generalizing seen with
  | nil => rfl
  | cons t transitions ih =>
    have target : (t.rename f g).target = f t.target := rfl
    have input : (t.rename f g).input = g t.input := rfl
    rw [List.map_cons, Transition.firstFault?, Transition.firstFault?, target, input,
      ← List.map_cons, ih]
    simp only [List.mem_map_of_injective injective, List.mem_map_of_injective injectiveInputs]
    split
    · rfl
    · split <;> rfl

theorem Level.fault?_rename (injective : Function.Injective f)
    (injectiveInputs : Function.Injective g) (level : Level S I L) :
    (level.rename f g).fault? = level.fault?.map (Fault.rename f g) := by
  have start : (level.rename f g).start = f level.start := rfl
  have repeated := firstRepeated_renamed injective [] level.symbols
  rw [fault?, fault?, symbols_rename, start]
  rw [List.map_nil] at repeated
  rw [repeated]
  cases firstRepeated? [] level.symbols with
  | some symbol => rfl
  | none =>
    simp only [Option.map_none, List.mem_map_of_injective injective]
    split
    · rw [rename, List.findSome?_map, List.map_findSome?]
      congr 1
      funext state
      exact transitions_fault_renamed injective injectiveInputs level.symbols state.symbol []
        state.transitions
    · rfl

namespace Chart

variable {chart : Chart S I}

theorem walkFault_renamed (injective : Function.Injective f)
    (injectiveInputs : Function.Injective g) (above : List (Fin chart.size))
    (number : Fin chart.size) : (chart.rename f g).walkFault? above number
      = (chart.walkFault? above number).map (Fault.rename f g) := by
  induction above, number using walkFault?.induct chart with
  | case1 above number known =>
    rw [walkFault?, dif_pos known, walkFault?, dif_pos known]
    rfl
  | case2 above number fresh fault found =>
    rw [walkFault?, dif_neg fresh, walkFault?, dif_neg fresh,
      Level.fault?_rename injective injectiveInputs, found]
    rfl
  | case3 above number fresh single ih =>
    rw [walkFault?, dif_neg fresh, walkFault?, dif_neg fresh,
      Level.fault?_rename injective injectiveInputs, single, Level.inners_rename,
      List.map_findSome?]
    simp only [Option.map_none]
    congr 1
    funext inner
    exact ih inner

theorem check_renamed (injective : Function.Injective f) (injectiveInputs : Function.Injective g)
    (root : Fin chart.size) :
    (chart.rename f g).check root = Fault.renameIn f g (chart.check root) := by
  rw [check_eq_walk, check_eq_walk, walkFault_renamed injective injectiveInputs]
  cases chart.walkFault? [] root <;> rfl

omit [DecidableEq I] [DecidableEq I']

theorem descent_renamed (injective : Function.Injective f) (depth : Nat)
    (state : State S I (Fin chart.size)) :
    (chart.rename f g).descent depth (state.rename f g)
      = List.map f <$> Fault.renameIn f g (chart.descent depth state) := by
  induction depth generalizing state with
  | zero =>
    have inner : (state.rename f g).inner = state.inner := rfl
    rw [descent, descent, inner]
    cases state.inner <;> rfl
  | succ depth ih =>
    have inner : (state.rename f g).inner = state.inner := rfl
    rw [descent, descent, inner]
    cases state.inner with
    | none => rfl
    | some number =>
      have start : ((chart.level number).rename f g).start = f (chart.level number).start := rfl
      simp only [start, Level.state?_rename injective]
      cases (chart.level number).state? (chart.level number).start with
      | none => rfl
      | some first =>
        simp only [Option.map_some, ih]
        cases chart.descent depth first <;> rfl

theorem landing_renamed (injective : Function.Injective f) (number : Fin chart.size) (target : S) :
    (chart.rename f g).landing number (f target)
      = List.map f <$> Fault.renameIn f g (chart.landing number target) := by
  rw [landing, landing, Level.state?_rename injective]
  cases (chart.level number).state? target with
  | none => rfl
  | some state => exact descent_renamed injective chart.size state

theorem initial_renamed (injective : Function.Injective f) (number : Fin chart.size) :
    (chart.rename f g).initial number
      = List.map f <$> Fault.renameIn f g (chart.initial number) :=
  landing_renamed injective number (chart.level number).start

theorem candidate_renamed (injective : Function.Injective f) (number : Fin chart.size)
    (around : Path S) (t : Transition S I) :
    (chart.rename f g).candidate number (around.map f) (t.rename f g)
      = Candidate.rename f g <$> Fault.renameIn f g (chart.candidate number around t) := by
  have target : (t.rename f g).target = f t.target := rfl
  rw [candidate, candidate, target, landing_renamed injective]
  cases chart.landing number t.target with
  | error => rfl
  | ok below =>
    simp only [Except.mapError, Functor.map, Except.map, bind, Except.bind, pure, Except.pure,
      Candidate.rename, List.map_append, List.length_map]
    rfl

theorem visit_renamed (injective : Function.Injective f) (number : Fin chart.size)
    (around : Leaf S I) (state : State S I (Fin chart.size)) :
    (chart.rename f g).visit number (around.rename f g) (state.rename f g)
      = Visit.rename f g <$> Fault.renameIn f g (chart.visit number around state) := by
  have own : (state.rename f g).transitions.mapM
      ((chart.rename f g).candidate number (around.rename f g).path)
        = List.map (Candidate.rename f g) <$> Fault.renameIn f g
          (state.transitions.mapM (chart.candidate number around.path)) :=
    mapM_mapError fun t _ => candidate_renamed injective number around.path t
  rw [visit, visit, own]
  cases state.transitions.mapM (chart.candidate number around.path) with
  | error => rfl
  | ok candidates =>
    simp only [Except.mapError, Functor.map, Except.map, bind, Except.bind, pure, Except.pure,
      Visit.rename, Leaf.rename, State.rename, List.map_append, List.map_cons, List.map_nil]

theorem visits_renamed (injective : Function.Injective f) (number : Fin chart.size)
    (around : Leaf S I) : (chart.rename f g).visits number (around.rename f g)
      = List.map (Visit.rename f g) <$> Fault.renameIn f g (chart.visits number around) := by
  rw [visits, visits, Level.startFirst_rename injective]
  cases (chart.level number).startFirst with
  | error => rfl
  | ok states =>
    exact mapFromLast_mapError fun state _ => visit_renamed injective number around state

omit [DecidableEq S'] in
theorem expand_full {v : Visit S I (Fin chart.size)} {number : Fin chart.size}
    (nested : v.inner = some number) (full : ¬ v.record.path.length < chart.size)
    (rest : List (Visit S I (Fin chart.size))) :
    chart.expand (v :: rest) = .error (.cyclic (chart.level number).start) := by
  rw [expand]
  split
  · simp_all
  · rename_i other found
    rw [nested] at found
    cases found
    rw [dif_neg full]

theorem expand_renamed (injective : Function.Injective f)
    (pending : List (Visit S I (Fin chart.size))) :
    (chart.rename f g).expand (pending.map (Visit.rename f g))
      = List.map (Leaf.rename f g) <$> Fault.renameIn f g (chart.expand pending) := by
  have visited : ∀ number (v : Visit S I (Fin chart.size)),
      (chart.rename f g).visits number (v.rename f g).record
        = List.map (Visit.rename f g) <$> Fault.renameIn f g (chart.visits number v.record) :=
    fun number v => visits_renamed injective number v.record
  induction pending using expand.induct chart with
  | case1 =>
    rw [List.map_nil, expand, expand]
    rfl
  | case2 v rest plain ih =>
    have plainToo : Visit.inner (L := Fin (chart.rename f g).size) (v.rename f g) = none := plain
    rw [List.map_cons, expand_leaf plainToo, expand_leaf plain, ih]
    cases chart.expand rest <;> rfl
  | case3 v rest number nested room fault prepared =>
    have nestedToo : Visit.inner (L := Fin (chart.rename f g).size) (v.rename f g) = some number :=
      nested
    have roomToo : (v.rename f g).record.path.length < (chart.rename f g).size := by
      simpa [Visit.rename, Leaf.rename] using room
    rw [List.map_cons, expand_inner nestedToo roomToo, expand_inner nested room,
      visited, prepared]
    rfl
  | case4 v rest number nested room below prepared ih =>
    have nestedToo : Visit.inner (L := Fin (chart.rename f g).size) (v.rename f g) = some number :=
      nested
    have roomToo : (v.rename f g).record.path.length < (chart.rename f g).size := by
      simpa [Visit.rename, Leaf.rename] using room
    rw [List.map_cons, expand_inner nestedToo roomToo, expand_inner nested room,
      visited, prepared]
    rw [List.map_append] at ih
    exact ih
  | case5 v rest number nested full =>
    have nestedToo : Visit.inner (L := Fin (chart.rename f g).size) (v.rename f g) = some number :=
      nested
    have fullToo : ¬ (v.rename f g).record.path.length < (chart.rename f g).size := by
      simpa [Visit.rename, Leaf.rename] using full
    rw [List.map_cons, expand_full nestedToo fullToo, expand_full nested full]
    rfl

theorem leaves_renamed (injective : Function.Injective f) (root : Fin chart.size) :
    (chart.rename f g).leaves root
      = List.map (Leaf.rename f g) <$> Fault.renameIn f g (chart.leaves root) := by
  have prepared := visits_renamed (g := g) injective root (.outside : Leaf S I)
  have outside : (Leaf.outside : Leaf S I).rename f g = .outside := rfl
  rw [outside] at prepared
  rw [leaves, leaves, prepared]
  cases chart.visits root .outside with
  | error => rfl
  | ok pending => exact expand_renamed injective pending

end Chart
end Statechart
