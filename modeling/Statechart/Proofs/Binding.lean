import Mathlib.Data.List.Forall2
import Mathlib.Data.Option.Basic
import Statechart.Action

/-!
What bound hooks do. Running an action adds its entries to the journal and does nothing else; a hook
is bound to an action that writes its text, once.
-/
namespace Statechart

/-- The entries that the actions of a hook write; a lazy one shows how often it was bound. -/
inductive Hook.Writes : Hook → Entry → Prop where
  | fixed (text : String) : Writes (.fixed text) (.said text)
  | lazy (counter : Nat) (text : String) (count : Nat) :
      Writes (.lazy counter text) (.ran text count)

inductive Hook.Yields (hook : Hook) : Action → Prop where
  | write {entry : Entry} (writes : hook.Writes entry) : Yields hook (.write entry)

/-- The step writes one entry for each of the hooks, in order, and does nothing else. -/
def Performs (step : Journal → Journal) (hooks : List Hook) : Prop :=
  ∃ written, List.Forall₂ Hook.Writes hooks written ∧
    ∀ journal, step journal = { journal with entries := journal.entries ++ written.toArray }

theorem performs_nil : Performs id [] :=
  ⟨[], .nil, fun journal => by simp⟩

theorem performs_append {first second : Journal → Journal} {hooks later : List Hook}
    (performs : Performs first hooks) (performsLater : Performs second later) :
    Performs (fun journal => second (first journal)) (hooks ++ later) := by
  obtain ⟨written, writes, run⟩ := performs
  obtain ⟨more, writesMore, runMore⟩ := performsLater
  refine ⟨written ++ more, List.rel_append writes writesMore, fun journal => ?_⟩
  simp [run, runMore]

def Hook.Fixed (hook : Hook) : Prop := ∃ text, hook = .fixed text

instance (hook : Hook) : Decidable hook.Fixed :=
  match hook with
  | .fixed text => isTrue ⟨text, rfl⟩
  | .lazy .. => isFalse nofun

theorem writes_fixed {hooks : List Hook} (fixed : ∀ hook ∈ hooks, hook.Fixed)
    {written other : List Entry} (writes : List.Forall₂ Hook.Writes hooks written)
    (writesOther : List.Forall₂ Hook.Writes hooks other) : written = other := by
  induction writes generalizing other with
  | nil =>
    cases writesOther
    rfl
  | @cons hook entry hooks written here _ ih =>
    cases writesOther with
    | @cons _ otherEntry _ _ hereOther rest =>
      have same : entry = otherEntry := by
        obtain ⟨text, rfl⟩ := fixed hook List.mem_cons_self
        cases here
        cases hereOther
        rfl
      rw [same, ih (fun other member => fixed other (List.mem_cons_of_mem hook member)) rest]

theorem performs_fixed {hooks : List Hook} (fixed : ∀ hook ∈ hooks, hook.Fixed)
    {first second : Journal → Journal} (performs : Performs first hooks)
    (performsOther : Performs second hooks) (journal : Journal) :
    first journal = second journal := by
  obtain ⟨written, writes, run⟩ := performs
  obtain ⟨other, writesOther, runOther⟩ := performsOther
  rw [run, runOther, writes_fixed fixed writes writesOther]

namespace Action

theorem run_eq (action : Action) (journal : Journal) :
    action.run journal = { journal with entries := journal.entries ++ action.entries.toArray } := by
  induction action generalizing journal with
  | idle => simp [run, entries]
  | write entry => simp [run, entries, Journal.write]
  | both first second ihFirst ihSecond =>
    rw [run, ihFirst, ihSecond]
    simp [entries]

theorem entries_sequence (actions : List Action) :
    (sequence actions).entries = actions.flatMap entries := by
  induction actions with
  | nil => rfl
  | cons action rest ih =>
    cases rest with
    | nil => simp [sequence]
    | cons next rest =>
      rw [sequence, entries, ih]
      · rfl
      · exact List.cons_ne_nil next rest

theorem performs_of_entries {action : Action} {hooks : List Hook}
    (writes : List.Forall₂ Hook.Writes hooks action.entries) : Performs action.run hooks :=
  ⟨action.entries, writes, action.run_eq⟩

end Action

namespace Hook

theorem yields_entries {hook : Hook} {action : Action} (yields : hook.Yields action) :
    List.Forall₂ Writes [hook] action.entries := by
  cases yields with
  | write writes => exact .cons writes .nil

theorem all_entries {hooks : List Hook} {actions : List Action}
    (yields : List.Forall₂ Yields hooks actions) :
    List.Forall₂ Writes hooks (actions.flatMap Action.entries) := by
  induction yields with
  | nil => exact .nil
  | cons here _ ih =>
    rw [List.flatMap_cons]
    exact List.rel_append (yields_entries here) ih

theorem option_entries {hook : Option Hook} {action : Option Action}
    (yields : Option.Rel Yields hook action) :
    List.Forall₂ Writes hook.toList (action.getD .idle).entries := by
  cases yields with
  | none => exact .nil
  | some here => exact yields_entries here

theorem performs_option {hook : Option Hook} {action : Option Action}
    (yields : Option.Rel Yields hook action) : Performs (action.getD .idle).run hook.toList :=
  Action.performs_of_entries (option_entries yields)

theorem bind_yields (hook : Hook) (journal : Journal) : hook.Yields (hook.bind journal).1 := by
  cases hook with
  | fixed text => exact .write (.fixed text)
  | lazy counter text => exact .write (.lazy counter text _)

theorem bindAll_yields (hooks : List Hook) (journal : Journal) :
    List.Forall₂ Yields hooks (bindAll hooks journal).1 := by
  unfold bindAll
  induction hooks generalizing journal with
  | nil => exact .nil
  | cons hook hooks ih =>
    rw [List.mapM_cons]
    exact .cons (bind_yields hook journal) (ih (hook.bind journal).2)

theorem bindOption_yields (hook : Option Hook) (journal : Journal) :
    Option.Rel Yields hook (bindOption hook journal).1 := by
  cases hook with
  | none => exact .none
  | some hook => exact .some (bind_yields hook journal)

end Hook
end Statechart
