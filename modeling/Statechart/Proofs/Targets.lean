import Statechart.Proofs.Building
import Statechart.Proofs.Tabulation

/-!
The three targets of compilation end alike: in the check, with its fault and before anything is
bound, or with a result. None of the faults that a later pass could raise is ever raised.
-/
namespace Statechart

variable {S I : Type}

/-- The compilation ends as the check does, from every journal: it succeeds, or it stops with the
fault of the check and binds nothing. -/
def Compilation.EndsAs {α : Type} (compilation : Compilation S I α)
    (checked : Except (Fault S I) Unit) : Prop :=
  ∀ journal, match checked with
    | .ok () => ∃ result after, compilation.run journal = (.ok result, after)
    | .error fault => compilation.run journal = (.error fault, journal)

def Fault.Checked : Fault S I → Prop
  | unknownState _ | unresolvedTarget _ | ambiguous .. => False
  | unknownStart _ | unknownTarget .. | duplicateState _ | duplicateTransition .. | cyclic _ => True

namespace Chart

open Compilation

variable [DecidableEq S] [DecidableEq I] {chart : Chart S I}

omit [DecidableEq S] [DecidableEq I] in
theorem checked_of_firstFault {level : Level S I (Fin chart.size)} {fault : Fault S I}
    (first : level.FirstFault fault) : fault.Checked := by
  cases first with
  | repeated => trivial
  | start => trivial
  | transition _ _ _ _ first => cases first <;> trivial

theorem checked_of_walk {above : List (Fin chart.size)} {number : Fin chart.size}
    {fault : Fault S I} (met : chart.walkFault? above number = some fault) : fault.Checked := by
  induction above, number using walkFault?.induct chart generalizing fault with
  | case1 above number known =>
    rw [walkFault?, dif_pos known, Option.some.injEq] at met
    subst met
    trivial
  | case2 above number fresh own found =>
    rw [walkFault?, dif_neg fresh, found, Option.some.injEq] at met
    subst met
    exact checked_of_firstFault (level_firstFault_iff.mp found)
  | case3 above number fresh single ih =>
    rw [walkFault?, dif_neg fresh, single] at met
    obtain ⟨inner, _, inside⟩ := List.exists_of_findSome?_eq_some met
    exact ih inner inside

theorem endsAs_of_makes {α : Type} {root : Fin chart.size} {next : Unit → Compilation S I α}
    {post : α → Prop} (makes : chart.check root = .ok () →
      Makes ((liftM (chart.check root) : Compilation S I Unit) >>= next) post) :
    EndsAs ((liftM (chart.check root) : Compilation S I Unit) >>= next) (chart.check root) := by
  intro journal
  cases checked : chart.check root with
  | error fault => exact run_of_error rfl next journal
  | ok accepted =>
    obtain ⟨result, after, run, _⟩ := makes checked journal
    rw [checked] at run
    exact ⟨result, after, run⟩

variable [Hashable S] [Hashable I] [Named S] [Named I]

/-- Whatever is compiled, from whatever journal: where the check succeeds so do all targets, and
where it finds a fault they all stop with that fault and the journal as it was. -/
theorem targets_end_as_check (chart : Chart S I) (root : Fin chart.size) (options : Options) :
    (chart.moves root options).EndsAs (chart.check root) ∧
    (chart.table root options).EndsAs (chart.check root) ∧
    (chart.nested root options).EndsAs (chart.check root) ∧
    match chart.check root with
      | .ok () => True
      | .error fault => fault.Checked := by
  refine ⟨?_, ?_, ?_, ?_⟩
  · exact endsAs_of_makes fun accepted => moves_makes accepted options
  · exact endsAs_of_makes fun accepted => table_makes accepted options
  · exact endsAs_of_makes fun accepted => nested_makes accepted options
  · cases checked : chart.check root with
    | ok => trivial
    | error fault => exact checked_of_walk (check_error_iff.mp checked)

end Chart
end Statechart
