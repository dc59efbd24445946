import Statechart.Flat.Table
import Statechart.Nested

/-!
Driving machines. A driver takes a machine through inputs, one after the other; what is seen of it
is where it stands after each input and what it wrote. A table is driven from row to row. Nested
machines are driven by posts, one for each machine that is entered, and an input that the innermost
machine does not react to is handed up to the one around it.
-/
namespace Statechart

inductive Reaction (C : Type) where
  | ignores
  | moves (next : C) (step : Journal → Journal)

/-- Configurations show a path. A driver fails only where a row or a machine is missing. -/
structure Driver (S I C : Type) where
  start : Option C
  path : C → Option (Path S)
  react : C → I → Option (Reaction C)

/-- The path after an input, and what was written meanwhile; nothing was, not even an empty list,
where the input was ignored. -/
structure Sighting (S : Type) where
  path : Path S
  written : Option (List Entry)
  deriving DecidableEq, Repr

namespace Driver

variable {S I C D : Type}

def watch (driver : Driver S I C) (current : C) : List I → Option (List (Sighting S))
  | [] => some []
  | input :: inputs => do
    match ← driver.react current input with
    | .ignores =>
      let path ← driver.path current
      let later ← driver.watch current inputs
      return ⟨path, none⟩ :: later
    | .moves next step =>
      let path ← driver.path next
      let later ← driver.watch next inputs
      return ⟨path, some (step {}).entries.toList⟩ :: later

def view (driver : Driver S I C) (inputs : List I) : Option (Path S × List (Sighting S)) := do
  let current ← driver.start
  let path ← driver.path current
  let seen ← driver.watch current inputs
  return (path, seen)

/-- Related configurations show one path, and on each input either both ignore it or both move on,
with the same writing, to related ones. All paths shown meet the condition. -/
structure Matches (driver : Driver S I C) (other : Driver S I D) (Related : C → D → Prop)
    (Shown : Path S → Prop) : Prop where
  start : ∃ c d, driver.start = some c ∧ other.start = some d ∧ Related c d
  path : ∀ c d, Related c d →
    ∃ path, Shown path ∧ driver.path c = some path ∧ other.path d = some path
  react : ∀ c d, Related c d → ∀ input,
    (driver.react c input = some .ignores ∧ other.react d input = some .ignores) ∨
    ∃ next otherNext step otherStep, driver.react c input = some (.moves next step) ∧
      other.react d input = some (.moves otherNext otherStep) ∧ Related next otherNext ∧
      step {} = otherStep {}

variable {driver : Driver S I C} {other : Driver S I D} {Related : C → D → Prop}
  {Shown : Path S → Prop}

theorem watch_of_matches (same : driver.Matches other Related Shown) (inputs : List I) :
    ∀ c d, Related c d → ∃ seen, driver.watch c inputs = some seen ∧
      other.watch d inputs = some seen ∧ ∀ sighting ∈ seen, Shown sighting.path := by
  induction inputs with
  | nil => exact fun _ _ _ => ⟨[], rfl, rfl, nofun⟩
  | cons input inputs ih =>
    intro c d related
    rcases same.react c d related input with ⟨first, second⟩ |
      ⟨next, otherNext, step, otherStep, first, second, relatedNext, writing⟩
    · obtain ⟨path, shown, here, there⟩ := same.path c d related
      obtain ⟨later, run, otherRun, shownLater⟩ := ih c d related
      refine ⟨⟨path, none⟩ :: later, ?_, ?_, List.forall_mem_cons.mpr ⟨shown, shownLater⟩⟩
      · simp [watch, first, here, run]
      · simp [watch, second, there, otherRun]
    · obtain ⟨path, shown, here, there⟩ := same.path next otherNext relatedNext
      obtain ⟨later, run, otherRun, shownLater⟩ := ih next otherNext relatedNext
      refine ⟨⟨path, some (step {}).entries.toList⟩ :: later, ?_, ?_,
        List.forall_mem_cons.mpr ⟨shown, shownLater⟩⟩
      · simp [watch, first, here, run]
      · simp [watch, second, there, otherRun, writing]

theorem view_of_matches (same : driver.Matches other Related Shown) (inputs : List I) :
    ∃ path seen, driver.view inputs = some (path, seen) ∧ other.view inputs = some (path, seen) ∧
      Shown path ∧ ∀ sighting ∈ seen, Shown sighting.path := by
  obtain ⟨c, d, start, otherStart, related⟩ := same.start
  obtain ⟨path, shown, here, there⟩ := same.path c d related
  obtain ⟨seen, run, otherRun, shownLater⟩ := watch_of_matches same inputs c d related
  refine ⟨path, seen, ?_, ?_, shown, shownLater⟩
  · simp [view, start, here, run]
  · simp [view, otherStart, there, otherRun]

end Driver

variable {S I : Type} [DecidableEq S] [Hashable S] [DecidableEq I]

def Table.driver [Hashable I] (table : Table S I) : Driver S I Nat where
  start := some table.start
  path number := (table.row? number).map Row.path
  react number input :=
    match table.cell? number input with
    | none => some .ignores
    | some cell => some (.moves cell.next cell.action.run)

abbrev Post (S : Type) := Nat × S

namespace Nested

variable (nested : Nested S I)

def descend : (depth : Nat) → Option Nat → Option (List (Post S))
  | _, none => some []
  | 0, some _ => none
  | depth + 1, some number => do
    let machine ← nested.machines[number]?
    let below ← descend depth (machine.inner? machine.start)
    return (number, machine.start) :: below

/-- The innermost machine that reacts to the input, its step, and the posts around it. -/
def answer (input : I) : List (Post S) → Option (List (Post S) × Nat × MachineStep S)
  | [] => none
  | post :: below =>
    match answer input below with
    | some (above, found) => some (post :: above, found)
    | none => do
      let machine ← nested.machines[post.1]?
      let step ← machine.step? post.2 input
      return ([], post.1, step)

def leave (post : Post S) (journal : Journal) : Journal :=
  match nested.machines[post.1]? with
  | none => journal
  | some machine => (machine.leave post.2 journal).2

def enter (journal : Journal) (post : Post S) : Journal :=
  match nested.machines[post.1]? with
  | none => journal
  | some machine => (machine.enter post.2 journal).2

/-- Leaves the old posts from the innermost outwards, acts, and enters the new ones inwards. -/
def pass (old : List (Post S)) (action : Action) (new : List (Post S)) (journal : Journal) :
    Journal :=
  new.foldl nested.enter (action.run (old.foldr nested.leave journal))

def driver : Driver S I (List (Post S)) where
  start := nested.descend nested.machines.size (some nested.root)
  path posts := some (posts.map Prod.snd)
  react posts input :=
    match nested.answer input posts with
    | none => some .ignores
    | some (above, number, step) => do
      let below ← nested.descend nested.machines.size step.inner
      let next := above ++ (number, step.target) :: below
      return .moves next (nested.pass posts step.action next)

end Nested
end Statechart
