import Mathlib
import Statechart.Proofs.Building

/-!
When the hooks of nested machines are bound. However many states share a level, its hooks are bound
once, after those of the levels nested in it. Main result: `levels_bound_in_postorder`.
-/
namespace Statechart.Chart

variable {S I : Type} [DecidableEq S] [Hashable S] [DecidableEq I] [Named S] [Named I]

/-- Compiling the machines of a checked chart runs no action. It makes one machine for each level
from the root inwards, in the order of leaving, and binds what a level has attached, once, while it
makes the machine of that level: state by state the transitions, the entry and the exit. -/
theorem levels_bound_in_postorder (chart : Chart S I) (root : Fin chart.size)
    (accepted : chart.check root = .ok ()) (options : Options) (journal : Journal) :
    ∃ nested workshop attachments notes after,
      (chart.nested root options).run journal = (.ok nested, after) ∧
      chart.NestedFrom root options workshop nested ∧
      workshop.levels = chart.postorder root ∧
      (chart.postorder root).Nodup ∧
      (∀ number, number ∈ chart.postorder root ↔ chart.Reaches root number) ∧
      chart.Fitted workshop attachments ∧
      Attaches journal attachments after ∧
      List.Forall₂ Attachment.Notes attachments notes ∧
      after.entries = journal.entries ++ notes.flatten.toArray := by
  obtain ⟨nested, attachments, after, run, attaches, workshop, built, levels, fitted⟩ :=
    nested_binds accepted options journal
  obtain ⟨notes, noted, written⟩ := notes_of_attaches attaches
  exact ⟨nested, workshop, attachments, notes, after, run, built, levels,
    nodup_eraseDups _, fun _ => mem_postorder (check_ok_iff.mp accepted).acyclic, fitted, attaches,
    noted, written⟩

def estate : Chart String String where
  size := 4
  level number :=
    match number.val with
    | 0 => {
      start := "lobby"
      states := [
        { symbol := "garden", exit := some (.lazy 0 "gate"), inner := some ⟨2, by decide⟩,
          transitions := [⟨"go", "lobby", some (.lazy 0 "step")⟩] },
        { symbol := "lobby", entry := some (.lazy 0 "bow"), inner := some ⟨1, by decide⟩ }] }
    | 1 => {
      start := "desk"
      states := [
        { symbol := "desk", entry := some (.lazy 0 "ring"), inner := some ⟨3, by decide⟩ }] }
    | 2 => {
      start := "bench"
      states := [
        { symbol := "bench", entry := some (.lazy 0 "sit"), exit := some (.lazy 0 "rise"),
          transitions := [⟨"move", "bench", some (.lazy 0 "move")⟩],
          inner := some ⟨1, by decide⟩ }] }
    | _ => {
      start := "lamp"
      states := [{ symbol := "lamp", entry := some (.lazy 0 "light") }] }

def estateRoot : Fin estate.size := ⟨0, by decide⟩

theorem estate_bound_in_postorder : estate.check estateRoot = .ok () ∧
    ∃ nested workshop after, (estate.nested estateRoot {}).run {} = (.ok nested, after) ∧
      estate.NestedFrom estateRoot {} workshop nested ∧
      workshop.levels.map Fin.val = [3, 1, 2, 0] ∧
      after.entries = #[.bound "light" 1, .bound "ring" 2, .bound "move" 3, .bound "sit" 4,
        .bound "rise" 5, .bound "step" 6, .bound "gate" 7, .bound "bow" 8] := by
  have accepted : estate.check estateRoot = .ok () := by cbv
  have order : (estate.postorder estateRoot).map Fin.val = [3, 1, 2, 0] := by cbv
  have written : ((estate.nested estateRoot {}).run {}).2.entries
      = #[.bound "light" 1, .bound "ring" 2, .bound "move" 3, .bound "sit" 4,
        .bound "rise" 5, .bound "step" 6, .bound "gate" 7, .bound "bow" 8] := by cbv
  obtain ⟨nested, workshop, _, _, after, run, built, levels, _⟩ :=
    levels_bound_in_postorder estate estateRoot accepted {} {}
  rw [run] at written
  rw [← levels] at order
  exact ⟨accepted, nested, workshop, after, run, built, order, written⟩

end Statechart.Chart
