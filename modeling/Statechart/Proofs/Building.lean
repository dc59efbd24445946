import Statechart.Proofs.Machines
import Statechart.Proofs.Repetitions
import Statechart.Proofs.Survey

/-!
Building the machines of a chart. Where no level is inside itself the stack of tasks is worked off
without a fault: every level reached gets one machine, in the order of leaving, and what it has
attached is bound along with it.
-/
namespace Statechart

variable {S I L : Type} [DecidableEq S] [Hashable S]

namespace Workshop

variable [DecidableEq L] {workshop more : Workshop S I L} {level : L} {k : Nat}

theorem number?_some (found : workshop.number? level = some k) :
    ∃ machine, workshop[k]? = some (level, machine) := by
  obtain ⟨bound, same, _⟩ := List.findIdx?_eq_some_iff_getElem.mp found
  have named : workshop[k].1 = level := of_decide_eq_true same
  refine ⟨workshop[k].2, ?_⟩
  rw [List.getElem?_eq_getElem bound, ← named]

theorem number?_of_mem (member : level ∈ workshop.levels) :
    ∃ k, workshop.number? level = some k := by
  cases found : workshop.number? level with
  | some k => exact ⟨k, rfl⟩
  | none =>
    obtain ⟨entry, among, named⟩ := List.mem_map.mp member
    have := List.findIdx?_eq_none_iff.mp found entry among
    simp [named] at this

theorem mem_of_number? (found : workshop.number? level = some k) : level ∈ workshop.levels := by
  obtain ⟨machine, here⟩ := number?_some found
  exact List.mem_map_of_mem (f := Prod.fst) (List.mem_of_getElem? here)

theorem number?_append (found : workshop.number? level = some k) :
    Workshop.number? (workshop ++ more) level = some k := by
  unfold number? at found ⊢
  rw [List.findIdx?_append, found]
  rfl

theorem mem_unmet {outer : Level S I L} :
    level ∈ workshop.unmet outer ↔ level ∈ outer.inners ∧ level ∉ workshop.levels := by
  simp [unmet, List.mem_eraseDups]

/-- To skip the levels that have machines makes no difference where all that is inside them has
machines, too. -/
theorem eraseDups_unmet {outer : Level S I L} {f : L → List L}
    (known : ∀ inner ∈ outer.inners, inner ∈ workshop.levels → ∀ l ∈ f inner, l ∈ workshop.levels) :
    (workshop.levels ++ (workshop.unmet outer).flatMap f).eraseDups
      = (workshop.levels ++ outer.inners.flatMap f).eraseDups := by
  rw [unmet, eraseDups_flatMap_eraseDups, eraseDups_flatMap_filter]
  intro inner nests left
  exact known inner nests (by simpa using left)

theorem length_unmet_le (workshop : Workshop S I L) (outer : Level S I L) :
    (workshop.unmet outer).length ≤ outer.inners.length :=
  (length_eraseDups_le _).trans (List.length_filter_le _ _)

end Workshop

namespace Chart

open Compilation

theorem machineOf_ok_iff {chart : Chart S I} {workshop : Workshop S I (Fin chart.size)}
    {number : Fin chart.size} {k : Nat} :
    chart.machineOf workshop number = .ok k ↔ workshop.number? number = some k := by
  unfold machineOf
  cases workshop.number? number <;> simp

variable [Named S] [Named I]

/-- Between two tasks the workshop is closed under nesting, has one machine for each of its levels,
which mirrors it, and none for a deferred level. -/
structure Stocked (chart : Chart S I) (options : Options)
    (workshop : Workshop S I (Fin chart.size)) (deferred : List (Fin chart.size)) : Prop where
  distinct : workshop.levels.Nodup
  closed : ∀ number ∈ workshop.levels, ∀ inner, chart.Nests number inner → inner ∈ workshop.levels
  apart : ∀ number ∈ workshop.levels, number ∉ deferred
  mirrors : ∀ entry ∈ workshop, entry.2.Mirrors options
    (fun level k => workshop.number? level = some k) (chart.level entry.1)

def Fitted (chart : Chart S I) (workshop : Workshop S I (Fin chart.size))
    (attachments : List Attachment) : Prop :=
  ∃ parts : List (List Attachment), attachments = parts.flatten ∧
    List.Forall₂ (fun entry part => entry.2.Fits (chart.level entry.1) part) workshop parts

/-- Visiting the levels one after the other adds machines to those of the workshop: whatever the
plain walk leaves gets one, unless it has one. -/
def Builds (chart : Chart S I) (options : Options) (workshop : Workshop S I (Fin chart.size))
    (deferred numbers : List (Fin chart.size)) : Prop :=
  ∀ rest journal, ∃ more attachments after,
    (chart.build options workshop deferred (numbers.map .visit ++ rest)).run journal
      = (chart.build options (workshop ++ more) deferred rest).run after ∧
    chart.Stocked options (workshop ++ more) deferred ∧
    Workshop.levels (workshop ++ more)
      = (workshop.levels ++ numbers.flatMap (chart.leavings deferred)).eraseDups ∧
    Attaches journal attachments after ∧ chart.Fitted more attachments

variable {chart : Chart S I} {options : Options} {workshop more : Workshop S I (Fin chart.size)}
  {deferred : List (Fin chart.size)} {attachments others : List Attachment}

omit [Named S] [Named I] in
theorem fitted_append (fitted : chart.Fitted workshop attachments)
    (fittedMore : chart.Fitted more others) :
    chart.Fitted (workshop ++ more) (attachments ++ others) := by
  obtain ⟨parts, rfl, each⟩ := fitted
  obtain ⟨partsMore, rfl, eachMore⟩ := fittedMore
  exact ⟨parts ++ partsMore, List.flatten_append.symm, List.rel_append each eachMore⟩

theorem stocked_nil (deferred : List (Fin chart.size)) : chart.Stocked options [] deferred :=
  ⟨List.nodup_nil, nofun, nofun, nofun⟩

theorem stocked_reaches (stocked : chart.Stocked options workshop deferred)
    {number inside : Fin chart.size} (member : number ∈ workshop.levels)
    (reaches : chart.Reaches number inside) : inside ∈ workshop.levels := by
  induction reaches with
  | refl => exact member
  | tail _ nests ih => exact stocked.closed _ ih _ nests

theorem leavings_known (stocked : chart.Stocked options workshop deferred)
    {above : List (Fin chart.size)} {number : Fin chart.size} (acyclic : chart.Acyclic number)
    (clear : chart.Clear above number) (known : number ∈ workshop.levels) :
    ∀ inside ∈ chart.leavings above number, inside ∈ workshop.levels :=
  fun _ member => stocked_reaches stocked known ((mem_leavings acyclic clear).mp member)

theorem builds_nothing (stocked : chart.Stocked options workshop deferred)
    {numbers : List (Fin chart.size)}
    (known : ∀ number ∈ numbers.flatMap (chart.leavings deferred), number ∈ workshop.levels)
    (run : ∀ rest journal,
      (chart.build options workshop deferred (numbers.map .visit ++ rest)).run journal
        = (chart.build options workshop deferred rest).run journal) :
    chart.Builds options workshop deferred numbers := by
  intro rest journal
  have skipped := eraseDups_skip known []
  rw [List.append_nil, List.append_nil, eraseDups_of_nodup stocked.distinct] at skipped
  refine ⟨[], [], journal, ?_, ?_, ?_, attaches_nil journal, [], rfl, .nil⟩
  · rw [List.append_nil, run]
  · rwa [List.append_nil]
  · rw [List.append_nil, skipped]

theorem builds_all {numbers : List (Fin chart.size)} (each : ∀ number ∈ numbers, ∀ {workshop},
      chart.Stocked options workshop deferred → chart.Builds options workshop deferred [number])
    (stocked : chart.Stocked options workshop deferred) :
    chart.Builds options workshop deferred numbers := by
  induction numbers generalizing workshop with
  | nil => exact builds_nothing stocked nofun fun _ _ => rfl
  | cons number numbers ih =>
    intro rest journal
    obtain ⟨more, attachments, between, run, stocked, levels, attaches, fitted⟩ :=
      each number List.mem_cons_self stocked (numbers.map .visit ++ rest) journal
    obtain ⟨most, others, after, runRest, stocked, levelsRest, attachesRest, fittedRest⟩ :=
      ih (fun other member => each other (List.mem_cons_of_mem number member)) stocked rest between
    rw [List.append_assoc] at runRest stocked levelsRest
    refine ⟨more ++ most, attachments ++ others, after, run.trans runRest, stocked, ?_,
      attaches_append attaches attachesRest, fitted_append fitted fittedRest⟩
    rw [levelsRest, levels, eraseDups_eraseDups_append, List.flatMap_singleton, List.flatMap_cons,
      List.append_assoc]

theorem stocked_append (stocked : chart.Stocked options workshop deferred)
    {number : Fin chart.size} (fresh : number ∉ workshop.levels) (undeferred : number ∉ deferred)
    (met : ∀ inner, chart.Nests number inner → inner ∈ workshop.levels) {machine : Machine S I}
    (mirrors : machine.Mirrors options (fun level k => workshop.number? level = some k)
      (chart.level number)) :
    chart.Stocked options (workshop ++ [(number, machine)]) deferred := by
  have levels : Workshop.levels (workshop ++ [(number, machine)])
      = workshop.levels ++ [number] := by
    simp [Workshop.levels]
  constructor
  · rw [levels]
    refine List.nodup_append'.mpr ⟨stocked.distinct, List.nodup_singleton number, ?_⟩
    exact List.disjoint_singleton.mpr fresh
  · rw [levels]
    intro n member inner nests
    rcases List.mem_append.mp member with old | new
    · exact List.mem_append_left _ (stocked.closed n old inner nests)
    · rw [List.mem_singleton.mp new] at nests
      exact List.mem_append_left _ (met inner nests)
  · rw [levels]
    intro n member
    rcases List.mem_append.mp member with old | new
    · exact stocked.apart n old
    · rw [List.mem_singleton.mp new]
      exact undeferred
  · intro entry member
    have kept : ∀ level k, workshop.number? level = some k →
        Workshop.number? (workshop ++ [(number, machine)]) level = some k :=
      fun _ _ => Workshop.number?_append
    rcases List.mem_append.mp member with old | new
    · exact mirrors_imp (fun l _ => kept l) (stocked.mirrors entry old)
    · rw [List.mem_singleton.mp new]
      exact mirrors_imp (fun l _ => kept l) mirrors

theorem builds_fresh {number : Fin chart.size} (acyclic : chart.Acyclic number)
    (clear : chart.Clear deferred number) (stocked : chart.Stocked options workshop deferred)
    (new : number ∉ workshop.levels) (inside : chart.Builds options workshop (number :: deferred)
      (workshop.unmet (chart.level number))) :
    chart.Builds options workshop deferred [number] := by
  intro rest journal
  have undeferred := not_mem_of_clear clear
  have deeper : ∀ inner, chart.Nests number inner → chart.Clear (number :: deferred) inner :=
    fun inner nests => clear_cons acyclic clear nests
  obtain ⟨more, attachments, between, run, stockedMore, levels, attaches, fitted⟩ :=
    inside (.build number :: rest) journal
  rw [Workshop.eraseDups_unmet fun inner nests old =>
    leavings_known stocked (acyclic_of_nests acyclic nests) (deeper inner nests) old] at levels
  have met : ∀ inner, chart.Nests number inner → inner ∈ Workshop.levels (workshop ++ more) := by
    intro inner nests
    have own := (mem_leavings (acyclic_of_nests acyclic nests) (deeper inner nests)).mpr .refl
    rw [levels, List.mem_eraseDups]
    exact List.mem_append_right _ (List.mem_flatMap.mpr ⟨inner, nests, own⟩)
  have found : ∀ inner ∈ (chart.level number).inners,
      ∃ k, chart.machineOf (workshop ++ more) inner = .ok k := by
    intro inner nests
    obtain ⟨k, here⟩ := Workshop.number?_of_mem (met inner nests)
    exact ⟨k, machineOf_ok_iff.mpr here⟩
  have binding : ((chart.level number).bind options (chart.machineOf (workshop ++ more))).Binds _ :=
    level_binds found
  obtain ⟨machine, own, after, bound, attachesOwn, mirrors, fits⟩ := binding between
  have fresh : number ∉ Workshop.levels (workshop ++ more) := fun member =>
    stockedMore.apart number member List.mem_cons_self
  have closing : chart.Stocked options (workshop ++ more) deferred :=
    ⟨stockedMore.distinct, stockedMore.closed,
      fun n member => fun old => stockedMore.apart n member (List.mem_cons_of_mem number old),
      stockedMore.mirrors⟩
  have finished := stocked_append closing fresh undeferred met
    (mirrors_imp (fun _ _ _ => machineOf_ok_iff.mp) mirrors)
  rw [List.append_assoc] at finished
  refine ⟨more ++ [(number, machine)], attachments ++ own, after, ?_, finished, ?_,
    attaches_append attaches attachesOwn, fitted_append fitted ⟨[own], by simp, .cons fits .nil⟩⟩
  · rw [List.map_singleton, List.singleton_append, build, if_neg new, if_neg undeferred, run, build,
      run_bind, bound]
    simp only [List.erase_cons_head, List.append_assoc]
  · rw [List.flatMap_singleton, leavings_eq undeferred, ← List.append_assoc, ← List.append_assoc]
    rw [levels, List.mem_eraseDups] at fresh
    rw [eraseDups_concat fresh, ← levels]
    simp [Workshop.levels]

theorem builds_one {number : Fin chart.size} (acyclic : chart.Acyclic number) :
    ∀ {deferred workshop}, chart.Clear deferred number → chart.Stocked options workshop deferred →
      chart.Builds options workshop deferred [number] := by
  induction acyclic using nesting_induction with
  | step number acyclic ih =>
    intro deferred workshop clear stocked
    by_cases known : number ∈ workshop.levels
    · apply builds_nothing stocked
      · rw [List.flatMap_singleton]
        exact leavings_known stocked acyclic clear known
      · intro rest journal
        rw [List.map_singleton, List.singleton_append, build, if_pos known]
    · have opened : chart.Stocked options workshop (number :: deferred) := by
        refine ⟨stocked.distinct, stocked.closed, fun n member => ?_, stocked.mirrors⟩
        rw [List.mem_cons, not_or]
        exact ⟨fun same => known (same ▸ member), stocked.apart n member⟩
      apply builds_fresh acyclic clear stocked known
      refine builds_all (fun inner member workshop => ?_) opened
      have nests : chart.Nests number inner := (Workshop.mem_unmet.mp member).1
      exact ih inner nests (clear_cons acyclic clear nests)

/-- The machines come from a workshop that has all levels, and the root's number is that of the
root level. -/
structure NestedFrom (chart : Chart S I) (root : Fin chart.size) (options : Options)
    (workshop : Workshop S I (Fin chart.size)) (nested : Nested S I) : Prop where
  stocked : chart.Stocked options workshop []
  machines : nested.machines = (workshop.map Prod.snd).toArray
  root : workshop.number? root = some nested.root

variable {root : Fin chart.size} {nested : Nested S I}

theorem build_binds (acyclic : chart.Acyclic root) (options : Options) :
    (chart.build options [] [] [.visit root]).Binds fun workshop attachments =>
      chart.Stocked options workshop [] ∧ workshop.levels = chart.postorder root ∧
        chart.Fitted workshop attachments := by
  intro journal
  obtain ⟨workshop, attachments, after, run, stocked, levels, attaches, fitted⟩ :=
    builds_one acyclic (clear_nil root) (stocked_nil []) [] journal
  rw [List.nil_append] at run stocked levels
  refine ⟨workshop, attachments, after, ?_, attaches, stocked, ?_, fitted⟩
  · rw [List.map_singleton, List.append_nil] at run
    rw [run, build]
    rfl
  · rw [levels, postorder, List.flatMap_singleton]
    rfl

theorem build_makes (acyclic : chart.Acyclic root) (options : Options) :
    (chart.build options [] [] [.visit root]).Makes fun workshop =>
      chart.Stocked options workshop [] ∧ root ∈ workshop.levels := by
  refine makes_of_binds (build_binds acyclic options) ?_
  rintro workshop attachments ⟨stocked, levels, _⟩
  exact ⟨stocked, levels ▸ (mem_postorder acyclic).mpr .refl⟩

theorem machine_of_level (built : chart.NestedFrom root options workshop nested)
    {level : Fin chart.size} {k : Nat} (found : workshop.number? level = some k) :
    ∃ machine, nested.machines[k]? = some machine ∧ machine.Mirrors options
      (fun level k => workshop.number? level = some k) (chart.level level) := by
  obtain ⟨machine, here⟩ := Workshop.number?_some found
  refine ⟨machine, ?_, built.stocked.mirrors _ (List.mem_of_getElem? here)⟩
  rw [built.machines]
  simp [here]

variable [DecidableEq I]

theorem nested_binds (accepted : chart.check root = .ok ()) (options : Options) :
    (chart.nested root options).Binds fun nested attachments =>
      ∃ workshop, chart.NestedFrom root options workshop nested ∧
        workshop.levels = chart.postorder root ∧ chart.Fitted workshop attachments := by
  have acyclic := (check_ok_iff.mp accepted).acyclic
  unfold nested
  refine binds_bind (binds_of_ok accepted) ?_
  rintro _ _ ⟨-, rfl⟩
  refine binds_bind (build_binds acyclic options) ?_
  rintro workshop attachments ⟨stocked, levels, fitted⟩
  have member : root ∈ workshop.levels := levels ▸ (mem_postorder acyclic).mpr .refl
  obtain ⟨k, found⟩ := Workshop.number?_of_mem member
  refine binds_bind (binds_of_ok (machineOf_ok_iff.mpr found)) ?_
  rintro _ _ ⟨rfl, rfl⟩
  refine binds_pure ⟨workshop, ⟨stocked, rfl, found⟩, levels, ?_⟩
  simpa using fitted

theorem nested_makes (accepted : chart.check root = .ok ()) (options : Options) :
    (chart.nested root options).Makes fun nested =>
      ∃ workshop, chart.NestedFrom root options workshop nested :=
  makes_of_binds (nested_binds accepted options) fun _ _ ⟨workshop, built, _⟩ => ⟨workshop, built⟩

end Chart
end Statechart
