import Mathlib
import Statechart.Proofs.Schedule

/-!
How often a hook is bound. A flat compilation binds a hook where its action comes into a move, and
anew each time: an exit once for each leaf below its state, an effect once for each leaf that
follows the transition, an entry once for each move that leads below its state. Main result:
`hooks_bound_at_each_use`.
-/
namespace Statechart

namespace Hook

def asks (counter : Nat) : Hook → Bool
  | fixed _ => false
  | lazy own _ => own = counter

theorem count_bind (hook : Hook) (journal : Journal) (counter : Nat) :
    (hook.bind journal).2.count counter
      = journal.count counter + [hook].countP (asks counter) := by
  cases hook with
  | fixed text => rfl
  | lazy own text =>
    have grown : (bind (lazy own text) journal).2.count counter
        = (journal.counts.insert own (journal.count own + 1)).getD counter 0 := rfl
    rw [grown, Std.HashMap.getD_insert]
    by_cases same : own = counter
    · simp [same, asks]
    · simp [same, asks, Journal.count]

theorem count_bindAll (hooks : List Hook) (journal : Journal) (counter : Nat) :
    (bindAll hooks journal).2.count counter
      = journal.count counter + hooks.countP (asks counter) := by
  induction hooks generalizing journal with
  | nil => rfl
  | cons hook hooks ih =>
    rw [bindAll_cons, ih, count_bind, Nat.add_assoc, ← List.countP_append, List.singleton_append]

end Hook

variable {S I : Type} [DecidableEq S] [Hashable S] [DecidableEq I] [Hashable I] [Named S] [Named I]

namespace Chart

variable {chart : Chart S I} {root : Fin chart.size} {options : Options}

/-- The hooks that are bound for the moves of one trail: its exits, once for all of them, even where
there are none, and then, move by move, whatever the move runs besides. -/
def BoundAlong (chart : Chart S I) (options : Options) (trail : Trail S I (Fin chart.size))
    (moves : List (Move S I)) (hooks : List Hook) : Prop :=
  ∃ uses : List (List Hook), hooks = trail.exits ++ uses.flatten ∧
    List.Forall₂ (fun m used => ∃ next, chart.Carries options trail (trail.exits ++ used) next m)
      moves uses

def BoundFrom (chart : Chart S I) (root : Fin chart.size) (options : Options)
    (moves : List (Move S I)) (hooks : List Hook) : Prop :=
  ∃ parts : List (List (Move S I) × List Hook),
    moves = parts.flatMap Prod.fst ∧ hooks = parts.flatMap Prod.snd ∧
      List.Forall₂ (fun trail part => chart.BoundAlong options trail part.1 part.2)
        (chart.trails [] root) parts

omit [Hashable S] [Hashable I] in
theorem bound_of_attached {moves : List (Move S I)} {attachments : List Attachment}
    (attached : chart.AttachedFrom root options moves attachments) :
    chart.BoundFrom root options moves (attachments.map Attachment.hook) := by
  obtain ⟨parts, rfl, rfl, along⟩ := attached
  refine ⟨parts.map fun part => (part.1, part.2.map Attachment.hook), ?_, ?_, ?_⟩
  · rw [List.flatMap_map]
  · rw [List.flatMap_map, List.map_flatMap]
  · rw [List.forall₂_map_right_iff]
    refine along.imp ?_
    rintro trail part ⟨shared, uses, all, exits, _, each⟩
    refine ⟨uses.map (List.map Attachment.hook), ?_, ?_⟩
    · rw [all, List.map_append, exits, List.map_flatten]
    · rw [List.forall₂_map_right_iff]
      exact each.imp fun _ _ here => here.carries

theorem moves_bound (accepted : chart.check root = .ok ()) (options : Options) (journal : Journal) :
    ∃ moves hooks, (chart.moves root options).run journal
      = (.ok moves, (Hook.bindAll hooks journal).2) ∧ chart.BoundFrom root options moves hooks := by
  obtain ⟨moves, attachments, after, run, attaches, attached⟩ :=
    moves_bind accepted options journal
  refine ⟨moves, attachments.map Attachment.hook, ?_, bound_of_attached attached⟩
  rw [run, attaches]

/-- Compiling the moves or the table of a checked chart binds the hooks of every use, in the order
of the trails and their moves; so a counter goes up by the number of uses of its hooks. -/
theorem hooks_bound_at_each_use (chart : Chart S I) (root : Fin chart.size)
    (accepted : chart.check root = .ok ()) (options : Options) (journal : Journal) :
    ∃ moves table hooks after, (chart.moves root options).run journal = (.ok moves, after) ∧
      (chart.table root options).run journal = (.ok table, after) ∧
      chart.BoundFrom root options moves hooks ∧
      after = (Hook.bindAll hooks journal).2 ∧
      ∀ counter, after.count counter
        = journal.count counter + hooks.countP (Hook.asks counter) := by
  obtain ⟨moves, table, after, run, runTable, _⟩ := table_run accepted options journal
  obtain ⟨_, hooks, runAgain, bound⟩ := moves_bound accepted options journal
  rw [run, Prod.mk.injEq, Except.ok.injEq] at runAgain
  obtain ⟨rfl, rfl⟩ := runAgain
  exact ⟨moves, table, hooks, _, run, runTable, bound, rfl, Hook.count_bindAll hooks journal⟩

def hall : Chart String String where
  size := 1
  level _ := {
    start := "north"
    states := [
      { symbol := "north", transitions := [⟨"go", "hall", none⟩] },
      { symbol := "south", transitions := [⟨"go", "hall", none⟩] },
      { symbol := "hall", entry := some (.lazy 0 "greet") }] }

def hallRoot : Fin hall.size := ⟨0, by decide⟩

theorem hall_accepted : hall.check hallRoot = .ok () := by cbv

theorem hall_bound_at_each_use : hall.check hallRoot = .ok () ∧
    ∃ moves table hooks after, (hall.moves hallRoot {}).run {} = (.ok moves, after) ∧
      (hall.table hallRoot {}).run {} = (.ok table, after) ∧
      hall.BoundFrom hallRoot {} moves hooks ∧ after = (Hook.bindAll hooks {}).2 ∧
      ∀ counter, after.count counter
        = ({} : Journal).count counter + hooks.countP (Hook.asks counter) :=
  ⟨hall_accepted, hooks_bound_at_each_use hall hallRoot hall_accepted {} {}⟩

theorem hall_greets_twice : hall.check hallRoot = .ok () ∧
    ((hall.moves hallRoot {}).run {}).2.count 0 = 2 ∧
    ((hall.table hallRoot {}).run {}).2.count 0 = 2 := by
  refine ⟨hall_accepted, ?_, ?_⟩ <;> cbv

end Chart
end Statechart
