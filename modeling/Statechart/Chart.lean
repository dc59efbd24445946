import Statechart.Action
import Statechart.Fault

/-!
Charts. A chart is a finite graph of levels: each level declares states, and a state may have a
level nested in it. States that name the same level share it. Nothing else is demanded of a chart
here; `Chart.check` (in `Statechart.Chart.Check`) tells which charts make sense.
-/
namespace Statechart

structure Transition (S I : Type) where
  input : I
  target : S
  effect : Option Hook := none

structure State (S I L : Type) where
  symbol : S
  entry : Option Hook := none
  exit : Option Hook := none
  transitions : List (Transition S I) := []
  inner : Option L := none

/-- States in the order of declaration, and the symbol of the one to enter by default. -/
structure Level (S I L : Type) where
  start : S
  states : List (State S I L)

/-- Levels that refer to each other by number. -/
structure Chart (S I : Type) where
  size : Nat
  level : Fin size → Level S I (Fin size)

variable {S I L M : Type}

def State.mapInner? (f : L → Option M) (state : State S I L) : Option (State S I M) := do
  let inner ← match state.inner with
    | none => some none
    | some level => (f level).map some
  return { state with inner }

namespace Level

def mapInner? (f : L → Option M) (level : Level S I L) : Option (Level S I M) := do
  let states ← level.states.mapM (State.mapInner? f)
  return { level with states }

def symbols (level : Level S I L) : List S := level.states.map State.symbol

def inners (level : Level S I L) : List L := level.states.filterMap State.inner

variable [DecidableEq S]

def state? (level : Level S I L) (symbol : S) : Option (State S I L) :=
  level.states.find? fun state => state.symbol = symbol

def startFirst (level : Level S I L) : Except (Fault S I) (List (State S I L)) :=
  match level.state? level.start with
  | none => .error (.unknownStart level.start)
  | some start => .ok (start :: level.states.filter fun state => state.symbol ≠ level.start)

end Level

def Chart.unknown (chart : Chart S I) (known : List (Fin chart.size)) : Nat :=
  ((List.finRange chart.size).filter fun number => number ∉ known).length

theorem filter_of_stronger {α : Type} {p q : α → Bool} (elements : List α)
    (stronger : ∀ a, p a = true → q a = true) :
    (elements.filter q).filter p = elements.filter p := by
  rw [List.filter_filter]
  apply List.filter_congr
  intro a _
  cases holds : p a with
  | false => rfl
  | true => simp [stronger a holds]

theorem Chart.unknown_le (chart : Chart S I) {known more : List (Fin chart.size)}
    (kept : ∀ number ∈ known, number ∈ more) : chart.unknown more ≤ chart.unknown known := by
  unfold unknown
  rw [← filter_of_stronger]
  · exact List.length_filter_le _ _
  · intro number new
    simp only [decide_eq_true_eq] at new ⊢
    exact fun old => new (kept number old)

theorem Chart.unknown_lt (chart : Chart S I) {known more : List (Fin chart.size)}
    (number : Fin chart.size) (kept : ∀ number ∈ known, number ∈ more) (fresh : number ∉ known)
    (added : number ∈ more) : chart.unknown more < chart.unknown known := by
  unfold unknown
  rw [← filter_of_stronger]
  · apply List.length_filter_lt_length_iff_exists.mpr
    exact ⟨number, by simpa using fresh, by simpa using added⟩
  · intro number new
    simp only [decide_eq_true_eq] at new ⊢
    exact fun old => new (kept number old)

/-- The chart of levels that refer to each other by position; fails on a position out of range. -/
def Chart.ofLevels? (levels : Array (Level S I Nat)) : Option (Chart S I) := do
  let linked ← levels.toVector.mapM <| Level.mapInner? fun position =>
    if h : position < levels.size then some (⟨position, h⟩ : Fin levels.size) else none
  return { size := levels.size, level := fun number => linked[number] }

end Statechart
