import Statechart.Proofs.Moves

/-!
Compilations that bind nothing. Where no hook is lazy, what is compiled does not depend on what was
bound before, and leaves no trace: every time it is the same.
-/
namespace Statechart

def Settled {α : Type} (step : StateM Journal α) : Prop :=
  ∃ a, ∀ journal, step journal = (a, journal)

theorem settled_mapM {α β : Type} {f : α → StateM Journal β} {as : List α}
    (each : ∀ a ∈ as, Settled (f a)) : Settled (as.mapM f) := by
  induction as with
  | nil => exact ⟨[], fun _ => rfl⟩
  | cons a as ih =>
    obtain ⟨b, run⟩ := each a List.mem_cons_self
    obtain ⟨bs, runs⟩ := ih fun other member => each other (List.mem_cons_of_mem a member)
    refine ⟨b :: bs, fun journal => ?_⟩
    have step : ((a :: as).mapM f) journal = ((f a journal).1 :: (as.mapM f (f a journal).2).1,
        (as.mapM f (f a journal).2).2) := by
      rw [List.mapM_cons]
      rfl
    rw [step, run, runs]

namespace Compilation

variable {S I α β : Type}

/-- From every journal the compilation ends in the same way, in a result or in a fault, and leaves
the journal as it was. -/
def Steady (compilation : Compilation S I α) : Prop :=
  ∃ result, ∀ journal, compilation.run journal = (result, journal)

theorem steady_pure (a : α) : Steady (pure a : Compilation S I α) := ⟨.ok a, fun _ => rfl⟩

theorem steady_throw (fault : Fault S I) : Steady (throw fault : Compilation S I α) :=
  ⟨.error fault, fun _ => rfl⟩

theorem steady_of_state {step : StateM Journal α} (settled : Settled step) :
    Steady (liftM step : Compilation S I α) := by
  obtain ⟨a, run⟩ := settled
  exact ⟨.ok a, fun journal => by
    have lifted : (liftM step : Compilation S I α).run journal
        = (.ok (step journal).1, (step journal).2) := rfl
    rw [lifted, run]⟩

theorem steady_bind {compilation : Compilation S I α} {next : α → Compilation S I β}
    (first : compilation.Steady)
    (second : ∀ a, (∀ journal, compilation.run journal = (.ok a, journal)) → (next a).Steady) :
    (compilation >>= next).Steady := by
  obtain ⟨result, run⟩ := first
  cases result with
  | error fault => exact ⟨.error fault, fun journal => by rw [run_bind, run]⟩
  | ok a =>
    obtain ⟨later, runNext⟩ := second a run
    exact ⟨later, fun journal => by rw [run_bind, run, ← runNext]⟩

theorem steady_bind_except {x : Except (Fault S I) α} {next : α → Compilation S I β}
    (second : ∀ a, x = .ok a → (next a).Steady) :
    ((liftM x : Compilation S I α) >>= next).Steady := by
  refine steady_bind ⟨x, run_of_except x⟩ fun a run => second a ?_
  have here := run {}
  rw [run_of_except, Prod.mk.injEq] at here
  exact here.1

theorem steady_mapM {f : α → Compilation S I β} {as : List α} (each : ∀ a ∈ as, (f a).Steady) :
    (as.mapM f).Steady := by
  induction as with
  | nil => exact steady_pure []
  | cons a as ih =>
    rw [List.mapM_cons]
    apply steady_bind (each a List.mem_cons_self)
    intro b _
    apply steady_bind (ih fun other member => each other (List.mem_cons_of_mem a member))
    exact fun bs _ => steady_pure (b :: bs)

theorem result_of_steady {compilation : Compilation S I α} (steady : compilation.Steady)
    {a : α} {journal after : Journal} (run : compilation.run journal = (.ok a, after))
    (other : Journal) : compilation.run other = (.ok a, other) := by
  obtain ⟨result, runs⟩ := steady
  have same : result = .ok a := congrArg Prod.fst ((runs journal).symm.trans run)
  rw [runs other, same]

end Compilation

namespace Hook

theorem bind_settled {hook : Hook} (fixed : hook.Fixed) : Settled hook.bind := by
  obtain ⟨text, rfl⟩ := fixed
  exact ⟨.write (.said text), fun _ => rfl⟩

theorem bindAll_settled {hooks : List Hook} (fixed : ∀ hook ∈ hooks, hook.Fixed) :
    Settled (bindAll hooks) :=
  settled_mapM fun hook member => bind_settled (fixed hook member)

theorem bindOption_settled {hook : Option Hook} (fixed : ∀ h ∈ hook.toList, h.Fixed) :
    Settled (bindOption hook) := by
  cases hook with
  | none => exact ⟨none, fun _ => rfl⟩
  | some hook =>
    obtain ⟨action, run⟩ := bind_settled (fixed hook (by simp))
    refine ⟨some action, fun journal => ?_⟩
    have mapped : bindOption (some hook) journal
        = (some (hook.bind journal).1, (hook.bind journal).2) := rfl
    rw [mapped, run]

end Hook

structure Leaf.Fixed {S I : Type} (leaf : Leaf S I) : Prop where
  entries : ∀ hook ∈ leaf.entries, hook.Fixed
  exits : ∀ hook ∈ leaf.exits, hook.Fixed
  effects : ∀ c ∈ leaf.candidates, ∀ hook ∈ c.effect.toList, hook.Fixed

section Leaves

open Compilation

variable {S I : Type} [DecidableEq S] [Hashable S] {leaves : List (Leaf S I)}

theorem leaf_of_byPath {path : Path S} {leaf : Leaf S I}
    (found : (Leaf.byPath leaves)[path]? = some leaf) : leaf ∈ leaves := by
  rw [Leaf.byPath_eq_find] at found
  exact List.mem_reverse.mp (List.mem_of_find?_eq_some found)

variable [DecidableEq I] [Hashable I] [Named S] [Named I] {options : Options}

omit [DecidableEq I] [Hashable I] in
theorem move_steady {index : Std.HashMap (Path S) (Leaf S I)}
    (fixed : ∀ (path : Path S) (target : Leaf S I), index[path]? = some target → target.Fixed)
    {leaf : Leaf S I}
    (exits : List Action) {c : Candidate S I} (effect : ∀ hook ∈ c.effect.toList, hook.Fixed) :
    (leaf.move index options exits c).Steady := by
  unfold Leaf.move
  split
  · exact steady_throw _
  · rename_i target found
    apply steady_bind (steady_of_state (Hook.bindOption_settled effect))
    intro effect _
    apply steady_bind (steady_of_state (Hook.bindAll_settled (fixed _ target found).entries))
    exact fun entries _ => steady_pure _

theorem allMoves_steady (fixed : ∀ leaf ∈ leaves, leaf.Fixed) :
    (Leaf.allMoves leaves options).Steady := by
  unfold Leaf.allMoves
  refine steady_bind (steady_mapM fun leaf member => ?_) fun parts _ => steady_pure _
  have own := fixed leaf member
  unfold Leaf.moves
  apply steady_bind (steady_of_state (Hook.bindAll_settled own.exits))
  intro exits _
  apply steady_bind_except
  intro winners selected
  apply steady_mapM
  intro c chosen
  exact move_steady (fun _ target found => fixed target (leaf_of_byPath found)) exits
    (own.effects c (candidate_of_winners selected chosen))

end Leaves

namespace Chart

open Compilation

variable {S I : Type} [DecidableEq S] {chart : Chart S I} {root : Fin chart.size}

theorem leaf_fixed_of_records (wellformed : chart.Wellformed root) (fixed : chart.Fixed root)
    {trail : Trail S I (Fin chart.size)} (leads : chart.Leads root trail) {leaf : Leaf S I}
    (records : chart.Records .outside trail leaf) : leaf.Fixed := by
  constructor
  · intro hook member
    rw [entries_of_records records] at member
    exact fixed_of_carried fixed leads (carried_of_entries member)
  · intro hook member
    rw [exits_of_records records] at member
    exact fixed_of_carried fixed leads (carried_of_exits member)
  · intro c among hook present
    obtain ⟨above, stop, below, rfl, t, declared, landing, _, rfl⟩ :=
      (candidates_of_records wellformed leads records c).mp among
    exact fixed_of_carried fixed leads (carried_of_effect (by simp) declared present)

variable [Hashable S] [DecidableEq I] [Hashable I] [Named S] [Named I]

theorem moves_steady (accepted : chart.check root = .ok ()) (fixed : chart.Fixed root)
    (options : Options) : (chart.moves root options).Steady := by
  have wellformed := check_ok_iff.mp accepted
  obtain ⟨leaves, unrolled, records⟩ := leaves_records wellformed
  unfold moves
  apply steady_bind_except
  intro _ _
  apply steady_bind_except
  intro found same
  rw [unrolled, Except.ok.injEq] at same
  subst same
  apply allMoves_steady
  intro leaf member
  obtain ⟨trail, memberTrail, record⟩ := forall₂_mem_right records member
  have leads := (mem_trails wellformed (clear_nil root)).mp memberTrail
  exact leaf_fixed_of_records wellformed fixed leads record

end Chart
end Statechart
