import Mathlib
import Statechart.Proofs.Listing

/-!
When the hooks of a flat compilation are bound. The leaves come in the order of unrolling. A leaf
has its exits bound first, once for all of its moves and even if it has none; then each of its
moves, in the order in which their inputs first appear on the trail, has the hook of its transition
bound and the entries of its target. An action writes what these very bindings gave it, whenever it
runs and as often as it does. Main result: `hooks_bound_trail_by_trail`.
-/
namespace Statechart

theorem Move.runs_eq {S I : Type} (calls : List (Move S I)) (journal : Journal) :
    calls.foldl (fun journal m => m.action.run journal) journal
      = { journal with
          entries := journal.entries ++ (calls.flatMap fun m => m.action.entries).toArray } := by
  induction calls generalizing journal with
  | nil => simp
  | cons m calls ih =>
    rw [List.foldl_cons, ih, Action.run_eq, List.flatMap_cons]
    simp

variable {S I : Type} [DecidableEq S] [Hashable S] [DecidableEq I] [Hashable I] [Named S] [Named I]

namespace Chart

variable {chart : Chart S I} {root : Fin chart.size} {options : Options}

omit [Hashable S] [Hashable I] in
theorem entries_of_attached {moves : List (Move S I)} {attachments : List Attachment}
    (attached : chart.AttachedFrom root options moves attachments) {m : Move S I}
    (member : m ∈ moves) : ∃ used, (∀ attachment ∈ used, attachment ∈ attachments) ∧
      m.action.entries = Attachment.entries used := by
  obtain ⟨parts, rfl, rfl, along⟩ := attached
  obtain ⟨part, memberPart, member⟩ := List.mem_flatMap.mp member
  obtain ⟨_, _, here⟩ := forall₂_mem_right along memberPart
  obtain ⟨shared, uses, all, _, _, each⟩ := here
  obtain ⟨used, memberUses, uses⟩ := forall₂_mem_left each member
  refine ⟨shared ++ used, fun attachment among => ?_, uses.written⟩
  refine List.mem_flatMap.mpr ⟨part, memberPart, ?_⟩
  rw [all, List.mem_append]
  rcases List.mem_append.mp among with early | late
  · exact Or.inl early
  · exact Or.inr (List.mem_flatten.mpr ⟨used, memberUses, late⟩)

/-- Compiling the moves or the table of a checked chart runs no action. It binds the exits of each
leaf in the order of unrolling, and then for each of its moves the effect and the entries, in the
order of the inputs. Whoever makes moves later, as many as he likes, writes what these bindings gave
and binds nothing. -/
theorem hooks_bound_trail_by_trail (chart : Chart S I) (root : Fin chart.size)
    (accepted : chart.check root = .ok ()) (options : Options) (journal : Journal) :
    ∃ leaves moves table attachments notes after, chart.leaves root = .ok leaves ∧
      List.Forall₂ (chart.Records .outside) (chart.trails [] root) leaves ∧
      (chart.moves root options).run journal = (.ok moves, after) ∧
      (chart.table root options).run journal = (.ok table, after) ∧
      table.lines = moves.map Move.line ∧
      chart.AttachedFrom root options moves attachments ∧
      Attaches journal attachments after ∧
      List.Forall₂ Attachment.Notes attachments notes ∧
      after.entries = journal.entries ++ notes.flatten.toArray ∧
      ∀ calls : List (Move S I), (∀ m ∈ calls, m ∈ moves) →
        (∀ text count, .bound text count ∉ calls.flatMap fun m => m.action.entries) ∧
        ∀ later : Journal, calls.foldl (fun journal m => m.action.run journal) later
          = { later with
              entries := later.entries ++ (calls.flatMap fun m => m.action.entries).toArray } := by
  have wellformed := check_ok_iff.mp accepted
  obtain ⟨leaves, unrolled, records⟩ := leaves_records wellformed
  obtain ⟨moves, table, after, run, runTable, tabled⟩ := table_run accepted options journal
  obtain ⟨_, attachments, _, runAgain, attaches, attached⟩ := moves_bind accepted options journal
  rw [run, Prod.mk.injEq, Except.ok.injEq] at runAgain
  obtain ⟨rfl, rfl⟩ := runAgain
  obtain ⟨notes, noted, written⟩ := notes_of_attaches attaches
  have lines : table.lines = moves.map Move.line := by
    rw [Table.lines_of_tells tabled.tells (labels_of_moves wellformed tabled.made), tabled.paths,
      moves_in_order wellformed tabled.made]
  refine ⟨leaves, moves, table, attachments, notes, after, unrolled, records, run, runTable, lines,
    attached, attaches, noted, written, fun calls known => ⟨?_, Move.runs_eq calls⟩⟩
  intro text count member
  obtain ⟨m, called, member⟩ := List.mem_flatMap.mp member
  obtain ⟨used, among, entries⟩ := entries_of_attached attached (known m called)
  rw [entries] at member
  obtain ⟨attachment, memberUsed, member⟩ := List.mem_flatMap.mp member
  obtain ⟨note, _, here⟩ := forall₂_mem_left noted (among attachment memberUsed)
  exact Attachment.entries_of_notes here text count member

def turnstile : Chart String String where
  size := 1
  level _ := {
    start := "shut"
    states := [
      { symbol := "open", entry := some (.lazy 0 "arrive"), exit := some (.lazy 0 "leave"),
        transitions := [⟨"pass", "shut", none⟩] },
      { symbol := "shut", exit := some (.lazy 0 "leave"),
        transitions := [⟨"pay", "open", some (.lazy 0 "turn")⟩, ⟨"push", "shut", none⟩] }] }

def turnstileRoot : Fin turnstile.size := ⟨0, by decide⟩

theorem turnstile_numbers_its_bindings : turnstile.check turnstileRoot = .ok () ∧
    ∃ moves table after, (turnstile.moves turnstileRoot {}).run {} = (.ok moves, after) ∧
      (turnstile.table turnstileRoot {}).run {} = (.ok table, after) ∧
      after.entries = #[.bound "leave" 1, .bound "turn" 2, .bound "arrive" 3, .bound "leave" 4] ∧
      moves.map Move.input = ["pay", "push", "pass"] ∧
      (moves ++ moves).foldl (fun journal m => m.action.run journal) after = { after with
        entries := after.entries ++ #[
          .ran "leave" 1, .ran "turn" 2, .ran "arrive" 3, .ran "leave" 1, .ran "leave" 4,
          .ran "leave" 1, .ran "turn" 2, .ran "arrive" 3, .ran "leave" 1, .ran "leave" 4] } := by
  have accepted : turnstile.check turnstileRoot = .ok () := by cbv
  obtain ⟨_, moves, table, _, _, after, _, _, run, runTable, _, _, _, _, _, calls⟩ :=
    hooks_bound_trail_by_trail turnstile turnstileRoot accepted {} {}
  have written : ((turnstile.moves turnstileRoot {}).run {}).2.entries
      = #[.bound "leave" 1, .bound "turn" 2, .bound "arrive" 3, .bound "leave" 4] := by cbv
  have made : ((turnstile.moves turnstileRoot {}).run {}).1.map
      (List.map fun m => (m.input, m.action.entries))
        = .ok [("pay", [.ran "leave" 1, .ran "turn" 2, .ran "arrive" 3]),
          ("push", [.ran "leave" 1]), ("pass", [.ran "leave" 4])] := by cbv
  rw [run] at written made
  have each := Except.ok.inj made
  have inputs := congrArg (List.map Prod.fst) each
  have entries := congrArg (List.flatMap Prod.snd) each
  rw [List.map_map] at inputs
  rw [List.flatMap_map] at entries
  refine ⟨accepted, moves, table, after, run, runTable, written, inputs, ?_⟩
  rw [(calls (moves ++ moves) (by simp)).2, List.flatMap_append, entries]
  rfl

end Chart
end Statechart
