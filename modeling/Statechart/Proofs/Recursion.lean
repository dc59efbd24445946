import Statechart.Proofs.Inheritance

/-!
Unrolling as a recursion. `Chart.Unrolls` says in rules what the leaves under a level are, or which
fault takes their place. The rules keep no stack and no record of the levels around. Where no level
is inside itself the stack of visits ends as they say, however many levels are unsound.
-/
namespace Statechart

/-- What comes of applying a function to the last element first: the values for all elements, or the
failure that has none after it. -/
inductive FromLast {α β ε : Type} (f : α → Except ε β) : List α → Except ε (List β) → Prop where
  | all {as : List α} {bs : List β} (each : List.Forall₂ (fun a b => f a = .ok b) as bs) :
      FromLast f as (.ok bs)
  | failed {before after : List α} {a : α} {e : ε} (here : f a = .error e)
      (later : ∀ b ∈ after, ∃ c, f b = .ok c) : FromLast f (before ++ a :: after) (.error e)

inductive Fault.Missing {S I : Type} : Fault S I → Prop where
  | start (start : S) : Missing (.unknownStart start)
  | state (state : S) : Missing (.unknownState state)

/-- The states of a level, the first one named like the start moved to the front; others of that
name are left out. -/
inductive Level.Ordered {S I L : Type} [DecidableEq S] (level : Level S I L) :
    List (State S I L) → Prop where
  | split {before after : List (State S I L)} {start : State S I L}
      (split : level.states = before ++ start :: after) (named : start.symbol = level.start)
      (first : ∀ state ∈ before, state.symbol ≠ level.start) :
      Ordered level (start :: (before ++ after.filter fun state => state.symbol ≠ level.start))

namespace Chart

variable {S I : Type} [DecidableEq S]

mutual

/-- The leaves under a level that is entered under the state with record `around`, or the fault. -/
inductive Unrolls (chart : Chart S I) :
    Fin chart.size → Leaf S I → Except (Fault S I) (List (Leaf S I)) → Prop where
  | unstarted {number : Fin chart.size} {around : Leaf S I}
      (missing : (chart.level number).start ∉ (chart.level number).symbols) :
      Unrolls chart number around (.error (.unknownStart (chart.level number).start))
  | unprepared {number : Fin chart.size} {around : Leaf S I}
      {states : List (State S I (Fin chart.size))} {fault : Fault S I}
      (ordered : (chart.level number).Ordered states)
      (prepared : FromLast (chart.visit number around) states (.error fault)) :
      Unrolls chart number around (.error fault)
  | through {number : Fin chart.size} {around : Leaf S I}
      {states : List (State S I (Fin chart.size))} {below : List (Visit S I (Fin chart.size))}
      {result : Except (Fault S I) (List (Leaf S I))}
      (ordered : (chart.level number).Ordered states)
      (prepared : FromLast (chart.visit number around) states (.ok below))
      (turns : UnrollsAll chart below result) : Unrolls chart number around result

inductive UnrollsAll (chart : Chart S I) :
    List (Visit S I (Fin chart.size)) → Except (Fault S I) (List (Leaf S I)) → Prop where
  | nil : UnrollsAll chart [] (.ok [])
  | leaf {v : Visit S I (Fin chart.size)} {rest : List (Visit S I (Fin chart.size))}
      {result : Except (Fault S I) (List (Leaf S I))} (plain : v.inner = none)
      (others : UnrollsAll chart rest result) :
      UnrollsAll chart (v :: rest) ((v.record :: ·) <$> result)
  | inside {v : Visit S I (Fin chart.size)} {rest : List (Visit S I (Fin chart.size))}
      {number : Fin chart.size} {part : List (Leaf S I)}
      {result : Except (Fault S I) (List (Leaf S I))} (nested : v.inner = some number)
      (here : Unrolls chart number v.record (.ok part)) (others : UnrollsAll chart rest result) :
      UnrollsAll chart (v :: rest) ((part ++ ·) <$> result)
  | fails {v : Visit S I (Fin chart.size)} {rest : List (Visit S I (Fin chart.size))}
      {number : Fin chart.size} {fault : Fault S I} (nested : v.inner = some number)
      (here : Unrolls chart number v.record (.error fault)) :
      UnrollsAll chart (v :: rest) (.error fault)

end

end Chart

section Preparing

variable {α β ε : Type} {f : α → Except ε β}

theorem fromLast_mapFromLast (f : α → Except ε β) (as : List α) :
    FromLast f as (mapFromLast f as) := by
  induction as with
  | nil => exact .all .nil
  | cons a as ih =>
    rw [mapFromLast]
    cases others : mapFromLast f as with
    | error e =>
      rw [others] at ih
      cases ih with
      | @failed before after other _ here later =>
        rw [← List.cons_append]
        exact .failed here later
    | ok bs =>
      have each := mapFromLast_ok_iff.mp others
      cases here : f a with
      | error e =>
        rw [← List.nil_append (a :: as)]
        refine .failed here fun b member => ?_
        obtain ⟨c, _, image⟩ := forall₂_mem_left each member
        exact ⟨c, image⟩
      | ok b => exact .all (.cons here each)

theorem mapFromLast_failed {before after : List α} {a : α} {e : ε} (here : f a = .error e)
    (later : ∀ b ∈ after, ∃ c, f b = .ok c) :
    mapFromLast f (before ++ a :: after) = .error e := by
  induction before with
  | nil =>
    obtain ⟨cs, each⟩ := forall₂_exists later
    rw [List.nil_append, mapFromLast, mapFromLast_ok_iff.mpr each]
    simp [here, bind, Except.bind]
  | cons b before ih =>
    rw [List.cons_append, mapFromLast, ih]
    rfl

theorem fromLast_iff {as : List α} {result : Except ε (List β)} :
    FromLast f as result ↔ mapFromLast f as = result := by
  constructor
  · intro prepared
    cases prepared with
    | all each => exact mapFromLast_ok_iff.mpr each
    | failed here later => exact mapFromLast_failed here later
  · exact fun mapped => mapped ▸ fromLast_mapFromLast f as

theorem failure_of_mapFromLast {as : List α} {e : ε} (failed : mapFromLast f as = .error e) :
    ∃ a ∈ as, f a = .error e := by
  cases fromLast_iff.mpr failed with
  | failed here _ => exact ⟨_, by simp, here⟩

end Preparing

namespace Level

variable {S I L : Type} [DecidableEq S] {level : Level S I L}

theorem ordered_iff {states : List (State S I L)} :
    level.Ordered states ↔ level.startFirst = .ok states := by
  have filtered : ∀ {before : List (State S I L)}, (∀ state ∈ before, state.symbol ≠ level.start) →
      (before.filter fun state => state.symbol ≠ level.start) = before := fun first =>
    List.filter_eq_self.mpr fun state member => by simpa using first state member
  constructor
  · rintro ⟨split, named, first⟩
    have found : level.state? level.start = some _ := List.find?_eq_some_iff_append.mpr
      ⟨by simpa using named, _, _, split, fun state member => by simpa using first state member⟩
    rw [startFirst, found, split, List.filter_append, filtered first]
    simp [named]
  · intro found
    unfold startFirst at found
    split at found
    · cases found
    · rename_i start here
      cases found
      obtain ⟨named, before, after, split, first⟩ := List.find?_eq_some_iff_append.mp here
      have named : start.symbol = level.start := by simpa using named
      have first : ∀ state ∈ before, state.symbol ≠ level.start := fun state member => by
        simpa using first state member
      have others : (level.states.filter fun state => state.symbol ≠ level.start)
          = before ++ after.filter fun state => state.symbol ≠ level.start := by
        rw [split, List.filter_append, filtered first]
        simp [named]
      rw [others]
      exact .split split named first

theorem startFirst_error_iff {fault : Fault S I} :
    level.startFirst = .error fault ↔
      level.start ∉ level.symbols ∧ fault = .unknownStart level.start := by
  unfold startFirst
  cases found : level.state? level.start with
  | none =>
    have missing : level.start ∉ level.symbols := fun member => by
      obtain ⟨state, here⟩ := state?_of_symbol member
      rw [found] at here
      cases here
    simp [missing, eq_comm]
  | some start =>
    obtain ⟨member, named⟩ := mem_of_state? found
    have known : level.start ∈ level.symbols := named ▸ List.mem_map_of_mem member
    simp [known]

end Level

namespace Chart

variable {S I : Type} [DecidableEq S] {chart : Chart S I} {root : Fin chart.size}

theorem unrolls_iff {number : Fin chart.size} {around : Leaf S I}
    {result : Except (Fault S I) (List (Leaf S I))} :
    chart.Unrolls number around result ↔
      (∃ fault, chart.visits number around = .error fault ∧ result = .error fault) ∨
      ∃ below, chart.visits number around = .ok below ∧ chart.UnrollsAll below result := by
  constructor
  · intro unrolls
    cases unrolls with
    | unstarted missing =>
      refine Or.inl ⟨_, bind_error_iff.mpr (Or.inl ?_), rfl⟩
      exact Level.startFirst_error_iff.mpr ⟨missing, rfl⟩
    | unprepared ordered prepared =>
      refine Or.inl ⟨_, bind_error_iff.mpr (Or.inr ?_), rfl⟩
      exact ⟨_, Level.ordered_iff.mp ordered, fromLast_iff.mp prepared⟩
    | through ordered prepared turns =>
      refine Or.inr ⟨_, bind_ok_iff.mpr ?_, turns⟩
      exact ⟨_, Level.ordered_iff.mp ordered, fromLast_iff.mp prepared⟩
  · rintro (⟨fault, failed, rfl⟩ | ⟨below, prepared, turns⟩)
    · rcases bind_error_iff.mp failed with unstarted | ⟨states, ordered, unprepared⟩
      · obtain ⟨missing, rfl⟩ := Level.startFirst_error_iff.mp unstarted
        exact .unstarted missing
      · exact .unprepared (Level.ordered_iff.mpr ordered) (fromLast_iff.mpr unprepared)
    · obtain ⟨states, ordered, prepared⟩ := bind_ok_iff.mp prepared
      exact .through (Level.ordered_iff.mpr ordered) (fromLast_iff.mpr prepared) turns

theorem flatten_mapM_cons {α β ε : Type} {f : α → Except ε (List β)} (a : α) (as : List α) :
    List.flatten <$> (a :: as).mapM f = (do
      let part ← f a
      (part ++ ·) <$> List.flatten <$> as.mapM f) := by
  rw [List.mapM_cons]
  cases f a with
  | error => rfl
  | ok part => cases as.mapM f <;> rfl

theorem unrollsAll_iff {above : List (Fin chart.size)} {below : List (Visit S I (Fin chart.size))}
    (each : ∀ v ∈ below, ∀ inner, v.inner = some inner → ∀ result,
      chart.Unrolls inner v.record result ↔ chart.unrolled above inner v.record = result)
    {result : Except (Fault S I) (List (Leaf S I))} :
    chart.UnrollsAll below result ↔
      List.flatten <$> below.mapM (chart.unrolledVisit above) = result := by
  induction below generalizing result with
  | nil =>
    constructor
    · intro turns
      cases turns
      rfl
    · intro turns
      exact turns ▸ .nil
  | cons v rest ih =>
    have ih := @ih fun w member => each w (List.mem_cons_of_mem v member)
    have first := each v List.mem_cons_self
    rw [flatten_mapM_cons]
    constructor
    · intro turns
      cases turns with
      | leaf plain others =>
        rw [unrolledVisit, plain, ih.mp others]
        rfl
      | inside nested here others =>
        rw [unrolledVisit, nested]
        simp only [(first _ nested _).mp here, ih.mp others]
        rfl
      | fails nested here =>
        rw [unrolledVisit, nested]
        simp only [(first _ nested _).mp here]
        rfl
    · rintro rfl
      cases nested : v.inner with
      | none =>
        rw [unrolledVisit, nested]
        exact .leaf nested (ih.mpr rfl)
      | some inner =>
        rw [unrolledVisit, nested]
        have here := (first inner nested _).mpr rfl
        dsimp only
        cases unrolled : chart.unrolled above inner v.record with
        | error fault => exact .fails nested (unrolled ▸ here)
        | ok part => exact .inside nested (unrolled ▸ here) (ih.mpr rfl)

theorem unrolls_iff_unrolled {number : Fin chart.size} (acyclic : chart.Acyclic number)
    {above : List (Fin chart.size)} (clear : chart.Clear above number) (around : Leaf S I)
    (result : Except (Fault S I) (List (Leaf S I))) :
    chart.Unrolls number around result ↔ chart.unrolled above number around = result := by
  induction acyclic using nesting_induction generalizing above around result with
  | step number acyclic ih =>
    rw [unrolls_iff, unrolled_eq (not_mem_of_clear clear)]
    cases prepared : chart.visits number around with
    | error fault => simp [bind, Except.bind, eq_comm]
    | ok below =>
      have each : ∀ v ∈ below, ∀ inner, v.inner = some inner → ∀ result,
          chart.Unrolls inner v.record result ↔
            chart.unrolled (number :: above) inner v.record = result := by
        intro v member inner nested
        have nests := nests_of_visits prepared member nested
        exact ih inner nests (clear_cons acyclic clear nests) v.record
      simp only [reduceCtorEq, false_and, exists_false, false_or, Except.ok.injEq, exists_eq_left']
      exact unrollsAll_iff each

theorem missing_of_descent {number : Fin chart.size} (acyclic : chart.Acyclic number)
    {above : List (Fin chart.size)} {depth : Nat} {state : State S I (Fin chart.size)}
    {fault : Fault S I} (distinct : above.Nodup) (clear : chart.Clear above number)
    (room : chart.size ≤ depth + above.length) (nested : state.inner = some number)
    (failed : chart.descent depth state = .error fault) : fault.Missing := by
  induction acyclic using nesting_induction generalizing above depth state with
  | step number acyclic ih =>
    have distinctMore : (number :: above).Nodup :=
      List.nodup_cons.mpr ⟨not_mem_of_clear clear, distinct⟩
    have fits : above.length < chart.size := length_le_size distinctMore
    cases depth with
    | zero => omega
    | succ depth =>
      rw [descent, nested] at failed
      dsimp only at failed
      split at failed
      · cases failed
        exact .start _
      · rename_i start found
        rcases bind_error_iff.mp failed with below | ⟨_, _, failed⟩
        · cases deeper : start.inner with
          | none =>
            rw [descent, deeper] at below
            cases below
          | some inner =>
            have nests := nests_of_state (Level.mem_of_state? found).1 deeper
            refine ih inner nests distinctMore (clear_cons acyclic clear nests) ?_ deeper below
            rw [List.length_cons]
            omega
        · cases failed

theorem missing_of_landing {number : Fin chart.size} (acyclic : chart.Acyclic number) {target : S}
    {fault : Fault S I} (failed : chart.landing number target = .error fault) : fault.Missing := by
  unfold landing at failed
  split at failed
  · cases failed
    exact .state target
  · rename_i state found
    cases nested : state.inner with
    | none =>
      rw [descent, nested] at failed
      cases failed
    | some inner =>
      have nests := nests_of_state (Level.mem_of_state? found).1 nested
      exact missing_of_descent (acyclic_of_nests acyclic nests) List.nodup_nil (clear_nil inner)
        (Nat.le_add_right _ _) nested failed

theorem missing_of_visits {number : Fin chart.size} (acyclic : chart.Acyclic number)
    {around : Leaf S I} {fault : Fault S I} (failed : chart.visits number around = .error fault) :
    fault.Missing := by
  rcases bind_error_iff.mp failed with unstarted | ⟨states, _, unprepared⟩
  · obtain ⟨_, rfl⟩ := Level.startFirst_error_iff.mp unstarted
    exact .start _
  · obtain ⟨state, _, failed⟩ := failure_of_mapFromLast unprepared
    rcases bind_error_iff.mp failed with untaken | ⟨_, _, failed⟩
    · obtain ⟨t, _, failed⟩ := failure_of_mapM untaken
      rcases bind_error_iff.mp failed with unlanded | ⟨_, _, failed⟩
      · exact missing_of_landing acyclic unlanded
      · cases failed
    · cases failed

theorem missing_of_unrolled {number : Fin chart.size} (acyclic : chart.Acyclic number)
    {above : List (Fin chart.size)} (clear : chart.Clear above number) {around : Leaf S I}
    {fault : Fault S I} (failed : chart.unrolled above number around = .error fault) :
    fault.Missing := by
  induction acyclic using nesting_induction generalizing above around with
  | step number acyclic ih =>
    rw [unrolled_eq (not_mem_of_clear clear)] at failed
    rcases bind_error_iff.mp failed with unprepared | ⟨below, prepared, failed⟩
    · exact missing_of_visits acyclic unprepared
    · rcases bind_error_iff.mp failed with inside | ⟨_, _, failed⟩
      · obtain ⟨v, member, failed⟩ := failure_of_mapM inside
        unfold unrolledVisit at failed
        split at failed
        · cases failed
        · rename_i inner nested
          have nests := nests_of_visits prepared member nested
          exact ih inner nests (clear_cons acyclic clear nests) failed
      · cases failed

/-- Each way down from the root is taken once, the one along start states first. -/
structure EachWayOnce (chart : Chart S I) (root : Fin chart.size)
    (leaves : List (Leaf S I)) : Prop where
  distinct : (leaves.map Leaf.path).Nodup
  paths : ∀ path, path ∈ leaves.map Leaf.path ↔ ∃ trail, chart.Leads root trail ∧ trail.path = path
  first : ∃ start, chart.initial root = .ok start ∧ (leaves.map Leaf.path).head? = some start

theorem leaves_of_wellformed (wellformed : chart.Wellformed root) :
    ∃ leaves, chart.leaves root = .ok leaves ∧ chart.EachWayOnce root leaves := by
  obtain ⟨leaves, run, records⟩ := leaves_records wellformed
  refine ⟨leaves, run, ?_⟩
  have paths := paths_of_records records
  have clear : chart.Clear [] root := clear_nil root
  constructor
  · rw [paths]
    exact trails_paths_nodup wellformed clear
  · intro path
    rw [paths, List.mem_map]
    simp only [mem_trails wellformed clear]
  · obtain ⟨trail, others, head, lands⟩ := trails_head wellformed clear
    refine ⟨trail.path, landing_of_lands wellformed lands, ?_⟩
    rw [paths, head]
    rfl

variable [DecidableEq I]

/-- The stack of visits ends as the rules of the recursion say, whatever is wrong with the levels,
as long as none of them is inside itself. Its only faults are states that are missing. On a chart
that passes the check there is no fault, and each way down has its leaf. -/
theorem unrolling_is_recursive (chart : Chart S I) (root : Fin chart.size)
    (acyclic : chart.Acyclic root) :
    (∀ result, chart.leaves root = result ↔ chart.Unrolls root .outside result) ∧
    (∀ fault, chart.leaves root = .error fault → fault.Missing) ∧
    (chart.check root = .ok () →
      ∃ leaves, chart.leaves root = .ok leaves ∧ chart.EachWayOnce root leaves) := by
  have clear : chart.Clear [] root := clear_nil root
  rw [leaves_eq_unrolled acyclic]
  refine ⟨fun result => ?_, fun fault failed => ?_, fun accepted => ?_⟩
  · exact (unrolls_iff_unrolled acyclic clear .outside result).symm
  · exact missing_of_unrolled acyclic clear failed
  · rw [← leaves_eq_unrolled acyclic]
    exact leaves_of_wellformed (check_ok_iff.mp accepted)

/-- A hall declared twice, a room without the start that it names, and two ways that
lead nowhere. -/
def ruin : Chart String String where
  size := 2
  level number :=
    if number.val = 0 then {
      start := "hall"
      states := [
        { symbol := "stairs", transitions := [⟨"climb", "roof", none⟩] },
        { symbol := "hall", inner := some ⟨1, Nat.one_lt_two⟩ },
        { symbol := "yard", transitions := [⟨"climb", "hall", none⟩, ⟨"draw", "well", none⟩] },
        { symbol := "hall", transitions := [⟨"look", "mirror", none⟩] }] }
    else {
      start := "hearth"
      states := [{ symbol := "window" }] }

def ruinRoot : Fin ruin.size := ⟨0, by decide⟩

theorem ruin_unrolls_recursively : ruin.Acyclic ruinRoot ∧
    ruin.Unrolls ruinRoot .outside (.error (.unknownStart "hearth")) ∧
    lamp.Acyclic lampRoot ∧ lamp.check lampRoot = .ok () ∧ ∃ leaves,
      lamp.Unrolls lampRoot .outside (.ok leaves) ∧ lamp.EachWayOnce lampRoot leaves ∧
      leaves.map Leaf.path = [["off"], ["on", "bright"], ["on", "dark"]] := by
  have acyclic : ruin.Acyclic ruinRoot := acyclic_of_inwards (by decide) ruinRoot
  have failed : ruin.leaves ruinRoot = .error (.unknownStart "hearth") := by cbv
  have lampAcyclic := (check_ok_iff.mp lamp_accepted).acyclic
  obtain ⟨unrolls, _, covers⟩ := unrolling_is_recursive lamp lampRoot lampAcyclic
  obtain ⟨leaves, run, once⟩ := covers lamp_accepted
  have paths : (List.map Leaf.path) <$> lamp.leaves lampRoot
      = .ok [["off"], ["on", "bright"], ["on", "dark"]] := by cbv
  rw [run] at paths
  exact ⟨acyclic, ((unrolling_is_recursive ruin ruinRoot acyclic).1 _).mp failed, lampAcyclic,
    lamp_accepted, leaves, (unrolls _).mp run, once, Except.ok.inj paths⟩

end Chart
end Statechart
