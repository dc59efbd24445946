import Statechart.Chart.Landing
import Statechart.Proofs.Indexing
import Statechart.Proofs.Survey

/-!
Trails. A trail is a way down from a level to a state without nested level, with the level of every
state on it. A trail from the root is what a machine is in at a time; the trail along start states
is the one that a transition enters.
-/
namespace Statechart

def State.hooks {S I L : Type} (state : State S I L) : List Hook :=
  state.entry.toList ++ state.exit.toList ++ state.transitions.filterMap Transition.effect

structure Stop (S I L : Type) where
  level : L
  state : State S I L

/-- Outermost stop first. -/
abbrev Trail (S I L : Type) := List (Stop S I L)

namespace Trail

variable {S I L : Type}

def path (trail : Trail S I L) : Path S := trail.map fun stop => stop.state.symbol

def levels (trail : Trail S I L) : List L := trail.map Stop.level

def entries (trail : Trail S I L) : List Hook := trail.filterMap fun stop => stop.state.entry

def exits (trail : Trail S I L) : List Hook := trail.reverse.filterMap fun stop => stop.state.exit

@[simp] theorem path_nil : path ([] : Trail S I L) = [] := rfl

@[simp] theorem path_cons (stop : Stop S I L) (rest : Trail S I L) :
    path (stop :: rest) = stop.state.symbol :: rest.path := rfl

@[simp] theorem path_append (outer inner : Trail S I L) :
    path (outer ++ inner) = outer.path ++ inner.path := List.map_append

@[simp] theorem length_path (trail : Trail S I L) : trail.path.length = trail.length :=
  List.length_map _

@[simp] theorem levels_nil : levels ([] : Trail S I L) = [] := rfl

@[simp] theorem levels_cons (stop : Stop S I L) (rest : Trail S I L) :
    levels (stop :: rest) = stop.level :: rest.levels := rfl

@[simp] theorem entries_nil : entries ([] : Trail S I L) = [] := rfl

@[simp] theorem entries_cons (stop : Stop S I L) (rest : Trail S I L) :
    entries (stop :: rest) = stop.state.entry.toList ++ rest.entries := by
  cases present : stop.state.entry <;> simp [entries, present]

@[simp] theorem entries_append (outer inner : Trail S I L) :
    entries (outer ++ inner) = outer.entries ++ inner.entries := List.filterMap_append

@[simp] theorem exits_nil : exits ([] : Trail S I L) = [] := rfl

@[simp] theorem exits_cons (stop : Stop S I L) (rest : Trail S I L) :
    exits (stop :: rest) = rest.exits ++ stop.state.exit.toList := by
  cases present : stop.state.exit <;> simp [exits, present]

@[simp] theorem exits_append (outer inner : Trail S I L) :
    exits (outer ++ inner) = inner.exits ++ outer.exits := by
  simp [exits]

/-- The inputs declared along the trail, each with the depth of its state; `depth` is that of what
is around the trail. -/
def declared (depth : Nat) : Trail S I L → List (I × Nat)
  | [] => []
  | stop :: rest =>
    stop.state.transitions.map (fun t => (t.input, depth + 1)) ++ declared (depth + 1) rest

def inputs [DecidableEq I] (trail : Trail S I L) : List I :=
  ((trail.declared 0).map Prod.fst).eraseDups

theorem declared_append (depth : Nat) (outer inner : Trail S I L) :
    declared depth (outer ++ inner)
      = outer.declared depth ++ inner.declared (depth + outer.length) := by
  induction outer generalizing depth with
  | nil => rfl
  | cons stop outer ih =>
    rw [List.cons_append, declared, declared, ih, List.append_assoc, List.length_cons]
    congr 3
    omega

theorem mem_declared {depth : Nat} {trail : Trail S I L} {input : I} {rank : Nat} :
    (input, rank) ∈ trail.declared depth ↔ ∃ above stop below, trail = above ++ stop :: below ∧
      rank = depth + above.length + 1 ∧ ∃ t ∈ stop.state.transitions, t.input = input := by
  induction trail generalizing depth with
  | nil => simp [declared]
  | cons first rest ih =>
    rw [declared, List.mem_append, ih]
    constructor
    · rintro (here | ⟨above, stop, below, rfl, rfl, declares⟩)
      · obtain ⟨t, member, same⟩ := List.mem_map.mp here
        cases same
        exact ⟨[], first, rest, rfl, rfl, t, member, rfl⟩
      · refine ⟨first :: above, stop, below, rfl, ?_, declares⟩
        rw [List.length_cons]
        omega
    · rintro ⟨above, stop, below, split, rfl, t, member, rfl⟩
      cases above with
      | nil =>
        cases split
        exact Or.inl (List.mem_map.mpr ⟨t, member, rfl⟩)
      | cons outer above =>
        cases split
        refine Or.inr ⟨above, stop, below, rfl, ?_, t, member, rfl⟩
        rw [List.length_cons]
        omega

end Trail

namespace Level

variable {S I L : Type} [DecidableEq S] {level : Level S I L}

theorem mem_of_state? {symbol : S} {state : State S I L}
    (found : level.state? symbol = some state) :
    state ∈ level.states ∧ state.symbol = symbol :=
  ⟨List.mem_of_find?_eq_some found, by simpa using List.find?_some found⟩

omit [DecidableEq S] in
theorem state_of_symbol (distinct : level.symbols.Nodup) {first second : State S I L}
    (memberFirst : first ∈ level.states) (memberSecond : second ∈ level.states)
    (same : first.symbol = second.symbol) : first = second :=
  List.inj_on_of_nodup_map distinct memberFirst memberSecond same

theorem state?_of_mem (distinct : level.symbols.Nodup) {state : State S I L}
    (member : state ∈ level.states) : level.state? state.symbol = some state :=
  find?_of_distinct State.symbol distinct member

theorem state?_of_symbol {symbol : S} (member : symbol ∈ level.symbols) :
    ∃ state, level.state? symbol = some state := by
  obtain ⟨state, memberState, named⟩ := List.mem_map.mp member
  cases found : level.state? symbol with
  | none =>
    have := List.find?_eq_none.mp found state memberState
    simp [named] at this
  | some state => exact ⟨state, rfl⟩

theorem mem_of_startFirst {states : List (State S I L)} (ordered : level.startFirst = .ok states)
    {state : State S I L} (member : state ∈ states) : state ∈ level.states := by
  unfold startFirst at ordered
  split at ordered
  · cases ordered
  · rename_i start found
    cases ordered
    rcases List.mem_cons.mp member with same | member
    · exact same ▸ (mem_of_state? found).1
    · exact (List.mem_filter.mp member).1

theorem startFirst_of_sound (sound : level.Sound) :
    ∃ states, level.startFirst = .ok states ∧ (∀ state, state ∈ states ↔ state ∈ level.states) ∧
      (states.map State.symbol).Nodup := by
  obtain ⟨start, found⟩ := state?_of_symbol sound.start
  obtain ⟨memberStart, named⟩ := mem_of_state? found
  refine ⟨_, by rw [startFirst, found], fun state => ?_, ?_⟩
  · rw [List.mem_cons, List.mem_filter]
    constructor
    · intro member
      rcases member with same | ⟨member, _⟩
      · exact same ▸ memberStart
      · exact member
    · intro member
      by_cases same : state.symbol = level.start
      · exact Or.inl (state_of_symbol sound.distinct member memberStart (same.trans named.symm))
      · exact Or.inr ⟨member, by simpa using same⟩
  · rw [List.map_cons, List.nodup_cons]
    constructor
    · simp [named]
    · exact sound.distinct.sublist (List.Sublist.map _ List.filter_sublist)

end Level

namespace Chart

variable {S I : Type}

/-- The trails that start in a level. -/
inductive Leads (chart : Chart S I) :
    Fin chart.size → Trail S I (Fin chart.size) → Prop where
  | leaf {number : Fin chart.size} {state : State S I (Fin chart.size)}
      (member : state ∈ (chart.level number).states) (plain : state.inner = none) :
      Leads chart number [⟨number, state⟩]
  | deeper {number inner : Fin chart.size} {state : State S I (Fin chart.size)}
      {rest : Trail S I (Fin chart.size)} (member : state ∈ (chart.level number).states)
      (nested : state.inner = some inner) (below : Leads chart inner rest) :
      Leads chart number (⟨number, state⟩ :: rest)

/-- The trail that starts in a level with the given state and follows start states from there. -/
inductive Lands (chart : Chart S I) :
    Fin chart.size → S → Trail S I (Fin chart.size) → Prop where
  | leaf {number : Fin chart.size} {target : S} {state : State S I (Fin chart.size)}
      (member : state ∈ (chart.level number).states) (named : state.symbol = target)
      (plain : state.inner = none) : Lands chart number target [⟨number, state⟩]
  | deeper {number inner : Fin chart.size} {target : S} {state : State S I (Fin chart.size)}
      {rest : Trail S I (Fin chart.size)} (member : state ∈ (chart.level number).states)
      (named : state.symbol = target) (nested : state.inner = some inner)
      (below : Lands chart inner (chart.level inner).start rest) :
      Lands chart number target (⟨number, state⟩ :: rest)

variable {chart : Chart S I}

theorem nests_of_state {number inner : Fin chart.size} {state : State S I (Fin chart.size)}
    (member : state ∈ (chart.level number).states) (nested : state.inner = some inner) :
    chart.Nests number inner :=
  nests_iff.mpr ⟨state, member, nested⟩

theorem leads_of_lands {number : Fin chart.size} {target : S}
    {trail : Trail S I (Fin chart.size)} (lands : chart.Lands number target trail) :
    chart.Leads number trail := by
  induction lands with
  | leaf member _ plain => exact .leaf member plain
  | deeper member _ nested _ ih => exact .deeper member nested ih

theorem leads_length_pos {number : Fin chart.size} {trail : Trail S I (Fin chart.size)}
    (leads : chart.Leads number trail) : 0 < trail.length := by
  cases leads <;> simp

theorem leads_split {number : Fin chart.size} {above : Trail S I (Fin chart.size)}
    {stop : Stop S I (Fin chart.size)} {below : Trail S I (Fin chart.size)}
    (leads : chart.Leads number (above ++ stop :: below)) :
    chart.Reaches number stop.level ∧ chart.Leads stop.level (stop :: below) ∧
      ∀ other, chart.Leads stop.level other → chart.Leads number (above ++ other) := by
  induction above generalizing number with
  | nil =>
    have same : stop.level = number := by cases leads <;> rfl
    rw [same]
    exact ⟨.refl, leads, fun _ => id⟩
  | cons first above ih =>
    rw [List.cons_append] at leads
    generalize split : above ++ stop :: below = rest at leads
    cases leads with
    | leaf => simp at split
    | deeper member nested rest =>
      subst split
      obtain ⟨reaches, leads, replace⟩ := ih rest
      refine ⟨.head (nests_of_state member nested) reaches, leads, fun other leadsOther => ?_⟩
      exact .deeper member nested (replace other leadsOther)

theorem leads_state_mem {number : Fin chart.size} {trail : Trail S I (Fin chart.size)}
    (leads : chart.Leads number trail) {stop : Stop S I (Fin chart.size)} (member : stop ∈ trail) :
    stop.state ∈ (chart.level stop.level).states := by
  induction leads with
  | leaf memberState _ =>
    cases List.mem_singleton.mp member
    exact memberState
  | deeper memberState _ _ ih =>
    rcases List.mem_cons.mp member with same | further
    · subst same
      exact memberState
    · exact ih further

theorem leads_reaches {number : Fin chart.size} {trail : Trail S I (Fin chart.size)}
    (leads : chart.Leads number trail) {stop : Stop S I (Fin chart.size)} (member : stop ∈ trail) :
    chart.Reaches number stop.level := by
  obtain ⟨above, below, rfl⟩ := List.append_of_mem member
  exact (leads_split leads).1

def Placed (chart : Chart S I) (trail : Trail S I (Fin chart.size)) : Prop :=
  ∀ stop ∈ trail, chart.Wellformed stop.level ∧ stop.state ∈ (chart.level stop.level).states

theorem placed_of_leads {number : Fin chart.size} (wellformed : chart.Wellformed number)
    {trail : Trail S I (Fin chart.size)} (leads : chart.Leads number trail) : chart.Placed trail :=
  fun _ member => ⟨wellformed_of_reaches wellformed (leads_reaches leads member),
    leads_state_mem leads member⟩

theorem placed_cons {stop : Stop S I (Fin chart.size)} {rest : Trail S I (Fin chart.size)} :
    chart.Placed (stop :: rest) ↔
      (chart.Wellformed stop.level ∧ stop.state ∈ (chart.level stop.level).states) ∧
        chart.Placed rest :=
  List.forall_mem_cons

theorem leads_levels_nodup {number : Fin chart.size} {trail : Trail S I (Fin chart.size)}
    (acyclic : chart.Acyclic number) (leads : chart.Leads number trail) :
    trail.levels.Nodup := by
  induction leads with
  | leaf => simp
  | @deeper number inner _ rest member nested below ih =>
    have nests := nests_of_state member nested
    rw [Trail.levels_cons, List.nodup_cons]
    refine ⟨fun again => ?_, ih (acyclic_of_nests acyclic nests)⟩
    obtain ⟨stop, memberStop, same⟩ := List.mem_map.mp again
    have further := leads_reaches below memberStop
    rw [same] at further
    exact not_reaches_back acyclic nests further

theorem leads_length_le {number : Fin chart.size} {trail : Trail S I (Fin chart.size)}
    (acyclic : chart.Acyclic number) (leads : chart.Leads number trail) :
    trail.length ≤ chart.size := by
  simpa [Trail.levels] using length_le_size (leads_levels_nodup acyclic leads)

theorem leads_path_injective {number : Fin chart.size}
    (sound : ∀ inside, chart.Reaches number inside → (chart.level inside).Sound)
    {first second : Trail S I (Fin chart.size)} (leadsFirst : chart.Leads number first)
    (leadsSecond : chart.Leads number second) (same : first.path = second.path) :
    first = second := by
  induction leadsFirst generalizing second with
  | @leaf number state member plain =>
    cases leadsSecond with
    | leaf memberSecond =>
      have := Level.state_of_symbol (sound number .refl).distinct member memberSecond
        (by simpa using same)
      rw [this]
    | deeper _ _ below =>
      have := leads_length_pos below
      have lengths := congrArg List.length same
      simp only [Trail.length_path, List.length_cons, List.length_nil] at lengths
      omega
  | @deeper number inner state rest member nested below ih =>
    cases leadsSecond with
    | leaf =>
      have := leads_length_pos below
      have lengths := congrArg List.length same
      simp only [Trail.length_path, List.length_cons, List.length_nil] at lengths
      omega
    | deeper memberSecond nestedSecond belowSecond =>
      simp only [Trail.path_cons, List.cons.injEq] at same
      have states := Level.state_of_symbol (sound number .refl).distinct member memberSecond same.1
      subst states
      rw [nested] at nestedSecond
      cases nestedSecond
      have inside : ∀ n, chart.Reaches inner n → (chart.level n).Sound :=
        fun n reaches => sound n (.head (nests_of_state member nested) reaches)
      rw [ih inside belowSecond same.2]

theorem lands_exists {number : Fin chart.size} (wellformed : chart.Wellformed number) :
    ∀ target ∈ (chart.level number).symbols, ∃ trail, chart.Lands number target trail := by
  induction wellformed using wellformed_induction with
  | step number wellformed ih =>
    intro target known
    obtain ⟨state, member, rfl⟩ := List.mem_map.mp known
    cases nested : state.inner with
    | none => exact ⟨_, .leaf member rfl nested⟩
    | some inner =>
      have nests := nests_of_state member nested
      have inside := wellformed_of_nests wellformed nests
      obtain ⟨rest, below⟩ := ih inner nests _ (inside.sound inner .refl).start
      exact ⟨_, .deeper member rfl nested below⟩

variable [DecidableEq S]

theorem descent_of_lands {number : Fin chart.size} {target : S}
    {trail : Trail S I (Fin chart.size)}
    (sound : ∀ inside, chart.Reaches number inside → (chart.level inside).Sound)
    (lands : chart.Lands number target trail) {depth : Nat} (room : trail.length ≤ depth + 1) :
    ∃ state, (chart.level number).state? target = some state ∧
      chart.descent depth state = .ok trail.path := by
  induction lands generalizing depth with
  | leaf member named plain =>
    subst named
    refine ⟨_, Level.state?_of_mem (sound _ .refl).distinct member, ?_⟩
    rw [descent, plain]
    rfl
  | @deeper number inner target state rest member named nested below ih =>
    subst named
    refine ⟨state, Level.state?_of_mem (sound _ .refl).distinct member, ?_⟩
    cases depth with
    | zero =>
      have := leads_length_pos (leads_of_lands below)
      rw [List.length_cons] at room
      omega
    | succ depth =>
      have inside : ∀ n, chart.Reaches inner n → (chart.level n).Sound :=
        fun n reaches => sound n (.head (nests_of_state member nested) reaches)
      obtain ⟨start, found, run⟩ := ih inside (by simpa using room)
      rw [descent, nested]
      simp only [found, run]
      rfl

theorem landing_of_lands {number : Fin chart.size} (wellformed : chart.Wellformed number)
    {target : S} {trail : Trail S I (Fin chart.size)} (lands : chart.Lands number target trail) :
    chart.landing number target = .ok trail.path := by
  have room := leads_length_le wellformed.acyclic (leads_of_lands lands)
  obtain ⟨state, found, run⟩ := descent_of_lands wellformed.sound lands
    (Nat.le_succ_of_le room)
  rw [landing, found]
  exact run

theorem lands_unique {number : Fin chart.size} (wellformed : chart.Wellformed number) {target : S}
    {first second : Trail S I (Fin chart.size)} (landsFirst : chart.Lands number target first)
    (landsSecond : chart.Lands number target second) : first = second := by
  have same := (landing_of_lands wellformed landsFirst).symm.trans
    (landing_of_lands wellformed landsSecond)
  exact leads_path_injective wellformed.sound (leads_of_lands landsFirst)
    (leads_of_lands landsSecond) (Except.ok.inj same)

end Chart
end Statechart
