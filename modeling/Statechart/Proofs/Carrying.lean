import Statechart.Nested
import Statechart.Proofs.Sequencing

/-!
Steps carried over. Where each step does what a step on other data does, but for another fault or
another result, so do all of them together: the steps along a list, from either end, and the tasks
by which nested machines are built.
-/
namespace Statechart

section Lists

variable {α β γ δ ε ε' : Type} {as : List α}

theorem findSome?_of_each {f g : α → Option β} (each : ∀ a ∈ as, f a = g a) :
    as.findSome? f = as.findSome? g := by
  induction as with
  | nil => rfl
  | cons a as ih =>
    rw [List.findSome?_cons, List.findSome?_cons, each a List.mem_cons_self,
      ih fun other member => each other (List.mem_cons_of_mem a member)]

theorem mapM_carried {m n : Type → Type} [Monad m] [LawfulMonad m] [Monad n] [LawfulMonad n]
    (carry : ∀ {τ : Type}, m τ → n τ) (carry_pure : ∀ {τ : Type} (a : τ), carry (pure a) = pure a)
    (carry_bind : ∀ {σ τ : Type} (x : m σ) (k : σ → m τ),
      carry (x >>= k) = carry x >>= fun a => carry (k a))
    {before : α → γ} {after : β → δ} {step : α → m β} {next : γ → n δ}
    (each : ∀ a ∈ as, next (before a) = after <$> carry (step a)) :
    (as.map before).mapM next = List.map after <$> carry (as.mapM step) := by
  induction as with
  | nil => simp [carry_pure]
  | cons a as ih =>
    have tail := ih fun other member => each other (List.mem_cons_of_mem a member)
    simp only [List.map_cons, List.mapM_cons, each a List.mem_cons_self, tail, carry_bind,
      carry_pure, bind_map_left, map_bind, map_pure]

section Lawful

variable {m : Type → Type} [Monad m] [LawfulMonad m]

theorem mapM_mapped {before : α → γ} {after : β → δ} {step : α → m β} {next : γ → m δ}
    (each : ∀ a ∈ as, next (before a) = after <$> step a) :
    (as.map before).mapM next = List.map after <$> as.mapM step :=
  mapM_carried (fun x => x) (fun _ => rfl) (fun _ _ => rfl) each

theorem mapM_erased {f : α → m β} {plain : α → m γ} {erase : β → γ}
    (each : ∀ a ∈ as, plain a = erase <$> f a) : as.mapM plain = List.map erase <$> as.mapM f := by
  have mapped : (as.map id).mapM plain = List.map erase <$> as.mapM f := mapM_mapped each
  rwa [List.map_id] at mapped

end Lawful

theorem mapError_id (x : Except ε α) : x.mapError id = x := by
  cases x <;> rfl

theorem mapError_pure (e : ε → ε') (a : α) :
    (pure a : Except ε α).mapError e = pure a := rfl

theorem mapError_bind (e : ε → ε') (x : Except ε α) (k : α → Except ε β) :
    (x >>= k).mapError e = x.mapError e >>= fun a => (k a).mapError e := by
  cases x <;> rfl

theorem mapError_map (e : ε → ε') (h : α → β) (x : Except ε α) :
    (h <$> x).mapError e = h <$> x.mapError e := by
  cases x <;> rfl

theorem mapM_mapError {e : ε → ε'} {before : α → γ} {after : β → δ} {step : α → Except ε β}
    {next : γ → Except ε' δ} (each : ∀ a ∈ as, next (before a) = after <$> (step a).mapError e) :
    (as.map before).mapM next = List.map after <$> (as.mapM step).mapError e :=
  mapM_carried (Except.mapError e) (mapError_pure e) (mapError_bind e) each

theorem mapFromLast_mapError {e : ε → ε'} {before : α → γ} {after : β → δ} {step : α → Except ε β}
    {next : γ → Except ε' δ} (each : ∀ a ∈ as, next (before a) = after <$> (step a).mapError e) :
    mapFromLast next (as.map before) = List.map after <$> (mapFromLast step as).mapError e := by
  induction as with
  | nil => rfl
  | cons a as ih =>
    have tail := ih fun other member => each other (List.mem_cons_of_mem a member)
    rw [List.map_cons, mapFromLast, mapFromLast, tail, each a List.mem_cons_self]
    cases mapFromLast step as with
    | error => rfl
    | ok bs => cases step a <;> rfl

theorem mapFromLast_mapped {before : α → γ} {after : β → δ} {step : α → Except ε β}
    {next : γ → Except ε δ} (each : ∀ a ∈ as, next (before a) = after <$> step a) :
    mapFromLast next (as.map before) = List.map after <$> mapFromLast step as := by
  have mapped := mapFromLast_mapError (e := id) (by simpa only [mapError_id] using each)
  rwa [mapError_id] at mapped

end Lists

namespace Compilation

variable {S I S' I' α β γ δ : Type} {fault : Fault S I → Fault S' I'}

theorem adapt_id (x : Compilation S I α) : (ExceptT.adapt id x : Compilation S I α) = x := by
  funext journal
  change ((x.run journal).1.mapError id, (x.run journal).2) = x.run journal
  rw [mapError_id]
  rfl

theorem adapt_pure (a : α) :
    ExceptT.adapt fault (pure a : Compilation S I α) = (pure a : Compilation S' I' α) := rfl

theorem adapt_bind (x : Compilation S I α) (k : α → Compilation S I β) :
    (ExceptT.adapt fault (x >>= k) : Compilation S' I' β)
      = ExceptT.adapt fault x >>= fun a => ExceptT.adapt fault (k a) := by
  funext journal
  have first : (ExceptT.adapt fault x : Compilation S' I' α).run journal
      = ((x.run journal).1.mapError fault, (x.run journal).2) := rfl
  have whole : (ExceptT.adapt fault (x >>= k) : Compilation S' I' β).run journal
      = (((x >>= k).run journal).1.mapError fault, ((x >>= k).run journal).2) := rfl
  change (ExceptT.adapt fault (x >>= k) : Compilation S' I' β).run journal
    = (ExceptT.adapt fault x >>= fun a => ExceptT.adapt fault (k a) :
      Compilation S' I' β).run journal
  rw [whole, run_bind, run_bind, first]
  cases x.run journal with
  | mk result between => cases result <;> rfl

theorem adapt_map (h : α → β) (x : Compilation S I α) :
    (ExceptT.adapt fault (h <$> x) : Compilation S' I' β) = h <$> ExceptT.adapt fault x := by
  rw [← bind_pure_comp, ← bind_pure_comp, adapt_bind]
  rfl

theorem adapt_of_except (x : Except (Fault S I) α) :
    ExceptT.adapt fault (liftM x : Compilation S I α)
      = (liftM (x.mapError fault) : Compilation S' I' α) := by
  cases x <;> rfl

theorem adapt_of_state (step : StateM Journal α) :
    ExceptT.adapt fault (liftM step : Compilation S I α) = (liftM step : Compilation S' I' α) := rfl

theorem mapM_adapt {before : α → γ} {after : β → δ} {step : α → Compilation S I β}
    {next : γ → Compilation S' I' δ} {as : List α}
    (each : ∀ a ∈ as, next (before a) = after <$> ExceptT.adapt fault (step a)) :
    (as.map before).mapM next
      = List.map after <$> (ExceptT.adapt fault (as.mapM step) : Compilation S' I' (List β)) :=
  mapM_carried (ExceptT.adapt fault) adapt_pure adapt_bind each

end Compilation

section Building

variable {S I S' I' : Type} [DecidableEq S] [Hashable S] [DecidableEq S'] [Hashable S'] [Named S]
  [Named I] [Named S'] [Named I']

def Workshop.carry {L : Type} (machine : Machine S I → Machine S' I') (workshop : Workshop S I L) :
    Workshop S' I' L :=
  workshop.map fun entry => (entry.1, machine entry.2)

namespace Chart

/-- In place of each level stands another one, with the same levels nested in it; the faults and the
machines of these are those of the chart, carried over. Their machines have no labels. -/
structure Exchanged (chart : Chart S I) (options : Options)
    (level : Fin chart.size → Level S' I' (Fin chart.size)) (fault : Fault S I → Fault S' I')
    (machine : Machine S I → Machine S' I') : Prop where
  inners : ∀ number, (level number).inners = (chart.level number).inners
  cyclic : ∀ number, fault (.cyclic (chart.level number).start) = .cyclic (level number).start
  bind : ∀ (machineOf : Fin chart.size → Except (Fault S I) Nat) number,
    (level number).bind {} (fun inner => (machineOf inner).mapError fault)
      = machine <$> ExceptT.adapt fault ((chart.level number).bind options machineOf)

variable {chart : Chart S I} {options : Options}
  {level : Fin chart.size → Level S' I' (Fin chart.size)} {fault : Fault S I → Fault S' I'}
  {machine : Machine S I → Machine S' I'}

theorem machineOf_carried (exchanged : chart.Exchanged options level fault machine)
    (workshop : Workshop S I (Fin chart.size)) (number : Fin chart.size) :
    ({ size := chart.size, level } : Chart S' I').machineOf (workshop.carry machine) number
      = (chart.machineOf workshop number).mapError fault := by
  have same : (workshop.carry machine).number? number = workshop.number? number := by
    simp [Workshop.number?, Workshop.carry, List.findIdx?_map, Function.comp_def]
  rw [machineOf, machineOf, same]
  cases workshop.number? number with
  | none => exact congrArg Except.error (exchanged.cyclic number).symm
  | some k => rfl

/-- Which task comes next never depends on the machines in the workshop, only on whose they are. -/
theorem build_carried (exchanged : chart.Exchanged options level fault machine)
    (workshop : Workshop S I (Fin chart.size)) (deferred : List (Fin chart.size))
    (tasks : List (Task (Fin chart.size))) :
    ({ size := chart.size, level } : Chart S' I').build {} (workshop.carry machine) deferred tasks
      = Workshop.carry machine <$>
        ExceptT.adapt fault (chart.build options workshop deferred tasks) := by
  have levels : ∀ workshop : Workshop S I (Fin chart.size),
      (workshop.carry machine).levels = workshop.levels := by
    intro workshop
    simp [Workshop.levels, Workshop.carry]
  induction workshop, deferred, tasks using build.induct chart with
  | case1 workshop deferred =>
    rw [build, build]
    rfl
  | case2 workshop deferred number rest known ih =>
    have knownToo : number ∈ (workshop.carry machine).levels := by rwa [levels]
    rw [build, if_pos knownToo, build, if_pos known, ih]
  | case3 workshop deferred number rest fresh again =>
    have freshToo : number ∉ (workshop.carry machine).levels := by rwa [levels]
    rw [build, if_neg freshToo, if_pos again, build, if_neg fresh, if_pos again, ← exchanged.cyclic]
    rfl
  | case4 workshop deferred number rest fresh first ih =>
    have freshToo : number ∉ (workshop.carry machine).levels := by rwa [levels]
    have unmet : (workshop.carry machine).unmet (level number)
        = workshop.unmet (chart.level number) := by
      simp only [Workshop.unmet, levels, exchanged.inners]
    rw [build, if_neg freshToo, if_neg first, build, if_neg fresh, if_neg first, unmet, ih]
  | case5 workshop deferred number rest ih =>
    have grown : ∀ built : Machine S I, workshop.carry machine ++ [(number, machine built)]
        = Workshop.carry machine (workshop ++ [(number, built)]) := by
      intro built
      simp [Workshop.carry]
    have numbered : ({ size := chart.size, level } : Chart S' I').machineOf (workshop.carry machine)
        = fun inner => (chart.machineOf workshop inner).mapError fault :=
      funext (machineOf_carried exchanged workshop)
    rw [build, build, numbered, exchanged.bind, bind_map_left, Compilation.adapt_bind, map_bind]
    apply bind_congr
    intro built
    rw [grown]
    exact ih built

theorem nested_carried [DecidableEq I] [DecidableEq I']
    (exchanged : chart.Exchanged options level fault machine) {root : Fin chart.size}
    (checked : ({ size := chart.size, level } : Chart S' I').check root
      = (chart.check root).mapError fault) :
    ({ size := chart.size, level } : Chart S' I').nested root {}
      = (fun nested => { machines := nested.machines.map machine, root := nested.root }) <$>
        ExceptT.adapt fault (chart.nested root options) := by
  have built : ({ size := chart.size, level } : Chart S' I').build {} [] [] [.visit root]
      = Workshop.carry machine <$> ExceptT.adapt fault (chart.build options [] [] [.visit root]) :=
    build_carried exchanged [] [] [.visit root]
  have machines : ∀ workshop : Workshop S I (Fin chart.size),
      ((workshop.carry machine).map Prod.snd).toArray
        = (workshop.map Prod.snd).toArray.map machine := by
    intro workshop
    simp [Workshop.carry]
  simp only [nested, checked, built, bind_map_left, machineOf_carried exchanged, machines,
    Compilation.adapt_bind, Compilation.adapt_of_except, Compilation.adapt_pure, map_bind, map_pure]

end Chart

end Building

end Statechart
