import Mathlib.Data.List.Nodup
import Mathlib.Data.List.Perm.Subperm
import Statechart.Proofs.Isomorphism

/-!
The walk through nested machines that puts them in order. A machine that was met before is passed
by, so the walk may stop after as many steps inwards as there are machines, and it still meets every
machine that can be reached.
-/
namespace Statechart

variable {S I : Type} [DecidableEq S] [Hashable S]

namespace Nested

variable {nested : Nested S I}

/-- From the machines in `starts` a walk that had met `seen` has gone on to `met`: it has met the
starts, and with every machine those nested in it. -/
structure Walks (nested : Nested S I) (starts seen met : List Nat) : Prop where
  kept : seen ⊆ met
  starts : starts ⊆ met
  distinct : met.Nodup
  reached : ∀ k ∈ met, nested.Reaches nested.root k
  closed : ∀ k ∈ met, k ∉ seen → ∀ inner, nested.Nests k inner → inner ∈ met

theorem walks_nothing {seen : List Nat} (distinct : seen.Nodup)
    (reached : ∀ k ∈ seen, nested.Reaches nested.root k) : nested.Walks [] seen seen :=
  ⟨List.Subset.refl seen, List.nil_subset seen, distinct, reached,
    fun _ member fresh => absurd member fresh⟩

theorem walks_again {seen : List Nat} {number : Nat} (distinct : seen.Nodup)
    (reached : ∀ k ∈ seen, nested.Reaches nested.root k) (known : number ∈ seen) :
    nested.Walks [number] seen seen :=
  { walks_nothing distinct reached with starts := by simpa using known }

theorem walks_cons {seen middle met starts : List Nat} {number : Nat}
    (first : nested.Walks [number] seen middle) (rest : nested.Walks starts middle met) :
    nested.Walks (number :: starts) seen met where
  kept := List.Subset.trans first.kept rest.kept
  starts := List.cons_subset.mpr ⟨rest.kept (first.starts List.mem_cons_self), rest.starts⟩
  distinct := rest.distinct
  reached := rest.reached
  closed k member fresh inner nests := by
    by_cases early : k ∈ middle
    · exact rest.kept (first.closed k early fresh inner nests)
    · exact rest.closed k member early inner nests

theorem walks_foldl {depth : Nat} (each : ∀ seen number, seen.Nodup →
      (∀ k ∈ number :: seen, nested.Reaches nested.root k) →
      nested.machines.size ≤ depth + seen.length →
      nested.Walks [number] seen (nested.meetFrom depth seen number))
    (starts : List Nat) {seen : List Nat} (distinct : seen.Nodup)
    (reached : ∀ k ∈ starts ++ seen, nested.Reaches nested.root k)
    (deep : nested.machines.size ≤ depth + seen.length) :
    nested.Walks starts seen (starts.foldl (nested.meetFrom depth) seen) := by
  induction starts generalizing seen with
  | nil => exact walks_nothing distinct reached
  | cons number starts ih =>
    rw [List.cons_append, List.forall_mem_cons, List.forall_mem_append] at reached
    obtain ⟨here, later, before⟩ := reached
    have first := each seen number distinct (List.forall_mem_cons.mpr ⟨here, before⟩) deep
    have longer := (List.subperm_of_subset distinct first.kept).length_le
    have further : ∀ k ∈ starts ++ nested.meetFrom depth seen number,
        nested.Reaches nested.root k := List.forall_mem_append.mpr ⟨later, first.reached⟩
    exact walks_cons first (ih first.distinct further (by omega))

/-- Every machine that can be reached is there and finds its states. -/
def Whole (nested : Nested S I) : Prop :=
  ∀ k, nested.Reaches nested.root k → ∃ machine, nested.machines[k]? = some machine ∧
    ∀ state ∈ machine.states, machine.state? state.symbol = some state

theorem nests_iff_of_known {k inner : Nat} {machine : Machine S I}
    (here : nested.machines[k]? = some machine)
    (known : ∀ state ∈ machine.states, machine.state? state.symbol = some state) :
    nested.Nests k inner ↔ inner ∈ machine.states.filterMap MachineState.inner := by
  rw [List.mem_filterMap]
  constructor
  · rintro ⟨other, symbol, there, asked⟩
    cases Option.some.inj (here.symm.trans there)
    exact state_of_inner? asked
  · rintro ⟨state, member, nests⟩
    exact ⟨machine, state.symbol, here, (inner?_of_state? (known state member)).trans nests⟩

theorem length_lt_of_fresh (whole : nested.Whole) {seen : List Nat} {number : Nat}
    (distinct : seen.Nodup) (reached : ∀ k ∈ number :: seen, nested.Reaches nested.root k)
    (fresh : number ∉ seen) : seen.length < nested.machines.size := by
  have known : number :: seen ⊆ List.range nested.machines.size := by
    intro k member
    obtain ⟨machine, here, _⟩ := whole k (reached k member)
    obtain ⟨bound, _⟩ := Array.getElem?_eq_some_iff.mp here
    exact List.mem_range.mpr bound
  have fits := (List.subperm_of_subset (List.nodup_cons.mpr ⟨fresh, distinct⟩) known).length_le
  rwa [List.length_range] at fits

theorem meetFrom_known {seen : List Nat} {number : Nat} (known : number ∈ seen) (depth : Nat) :
    nested.meetFrom depth seen number = seen := by
  unfold meetFrom
  exact if_pos known

theorem meetFrom_fresh {seen : List Nat} {number : Nat} (fresh : number ∉ seen)
    {machine : Machine S I} (here : nested.machines[number]? = some machine) (depth : Nat) :
    nested.meetFrom (depth + 1) seen number
      = (machine.states.filterMap MachineState.inner).foldl (nested.meetFrom depth)
          (seen ++ [number]) := by
  rw [meetFrom.eq_def, if_neg fresh, here]

theorem walks_meetFrom (whole : nested.Whole) (depth : Nat) {seen : List Nat} {number : Nat}
    (distinct : seen.Nodup) (reached : ∀ k ∈ number :: seen, nested.Reaches nested.root k)
    (deep : nested.machines.size ≤ depth + seen.length) :
    nested.Walks [number] seen (nested.meetFrom depth seen number) := by
  induction depth generalizing seen number with
  | zero =>
    have known : number ∈ seen := by
      by_contra fresh
      have := length_lt_of_fresh whole distinct reached fresh
      omega
    rw [meetFrom_known known]
    exact walks_again distinct (List.forall_mem_cons.mp reached).2 known
  | succ depth ih =>
    obtain ⟨way, before⟩ := List.forall_mem_cons.mp reached
    by_cases known : number ∈ seen
    · rw [meetFrom_known known]
      exact walks_again distinct before known
    obtain ⟨machine, here, found⟩ := whole number way
    have nests : ∀ {inner}, nested.Nests number inner
        ↔ inner ∈ machine.states.filterMap MachineState.inner := nests_iff_of_known here found
    have grown : (seen ++ [number]).Nodup :=
      List.nodup_append'.mpr ⟨distinct, List.nodup_singleton number, by simpa using known⟩
    have inside : ∀ k ∈ machine.states.filterMap MachineState.inner ++ (seen ++ [number]),
        nested.Reaches nested.root k := by
      simp only [List.forall_mem_append, List.forall_mem_singleton]
      exact ⟨fun inner member => way.tail (nests.mpr member), before, way⟩
    have long : nested.machines.size ≤ depth + (seen ++ [number]).length := by
      rw [List.length_append, List.length_singleton]
      omega
    have walked := walks_foldl (fun _ _ => ih) _ grown inside long
    rw [meetFrom_fresh known here]
    obtain ⟨kept, first⟩ := List.append_subset.mp walked.kept
    refine ⟨kept, first, walked.distinct, walked.reached, fun k member fresh inner leads => ?_⟩
    by_cases own : k = number
    · subst own
      exact walked.starts (nests.mp leads)
    · exact walked.closed k member (by simp [fresh, own]) inner leads

theorem outsideIn_exact (whole : nested.Whole) :
    nested.outsideIn.Nodup ∧ ∀ k, k ∈ nested.outsideIn ↔ nested.Reaches nested.root k := by
  have walked : nested.Walks [nested.root] [] nested.outsideIn :=
    walks_meetFrom whole _ List.nodup_nil (by simpa using .refl) (Nat.le_refl _)
  refine ⟨walked.distinct, fun k => ⟨walked.reached k, fun way => ?_⟩⟩
  induction way with
  | refl => exact walked.starts List.mem_cons_self
  | tail _ nests ih => exact walked.closed _ ih List.not_mem_nil _ nests

end Nested

namespace Chart

variable [DecidableEq I] [Named S] [Named I] {chart : Chart S I} {root : Fin chart.size}
  {options : Options} {nested : Nested S I} {journal after : Journal}

theorem whole_of_run (run : (chart.nested root options).run journal = (.ok nested, after)) :
    nested.Whole := by
  obtain ⟨_, accepted⟩ := Compilation.ok_of_run run
  obtain ⟨workshop, built⟩ := Compilation.holds_of_makes (nested_makes accepted options) run
  have wellformed := check_ok_iff.mp accepted
  intro k way
  obtain ⟨level, reaches, found⟩ := level_of_reaches built way
  obtain ⟨machine, here, mirrors⟩ := machine_of_level built found
  exact ⟨machine, here, (closed_of_mirrors mirrors (wellformed.sound level reaches)).known⟩

/-- The walk through the nested machines of a chart lists those that can be reached, each once. -/
theorem outsideIn_of_nested (run : (chart.nested root options).run journal = (.ok nested, after)) :
    nested.outsideIn.Nodup ∧ ∀ k, k ∈ nested.outsideIn ↔ nested.Reaches nested.root k :=
  Nested.outsideIn_exact (whole_of_run run)

end Chart
end Statechart
