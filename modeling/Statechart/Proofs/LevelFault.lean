import Statechart.Chart.Check

/-!
The first fault of a level. `Level.Sound` says what is demanded of a level by itself and
`Level.FirstFault` which fault is found first where it is not met; `Level.fault?` decides both.
-/
namespace Statechart

variable {S I L : Type}

structure State.Sound (symbols : List S) (state : State S I L) : Prop where
  targets : ∀ t ∈ state.transitions, t.target ∈ symbols
  inputs : (state.transitions.map Transition.input).Nodup

structure Level.Sound (level : Level S I L) : Prop where
  distinct : level.symbols.Nodup
  start : level.start ∈ level.symbols
  states : ∀ state ∈ level.states, state.Sound level.symbols

/-- The transitions before the one at fault are sound by themselves. Of the faults of one transition
the unknown target comes first. -/
inductive State.FirstFault (symbols : List S) (state : State S I L) : Fault S I → Prop where
  | target {earlier later : List (Transition S I)} {t : Transition S I}
      (split : state.transitions = earlier ++ t :: later)
      (sound : ∀ e ∈ earlier, e.target ∈ symbols) (distinct : (earlier.map Transition.input).Nodup)
      (unknown : t.target ∉ symbols) :
      FirstFault symbols state (.unknownTarget state.symbol t.target)
  | input {earlier later : List (Transition S I)} {t : Transition S I}
      (split : state.transitions = earlier ++ t :: later)
      (sound : ∀ e ∈ earlier, e.target ∈ symbols) (distinct : (earlier.map Transition.input).Nodup)
      (known : t.target ∈ symbols) (again : t.input ∈ earlier.map Transition.input) :
      FirstFault symbols state (.duplicateTransition [state.symbol] t.input)

/-- A repeated state comes before a missing start state, and both before all transitions. -/
inductive Level.FirstFault (level : Level S I L) : Fault S I → Prop where
  | repeated {earlier later : List S} {symbol : S}
      (split : level.symbols = earlier ++ symbol :: later) (distinct : earlier.Nodup)
      (again : symbol ∈ earlier) : FirstFault level (.duplicateState symbol)
  | start (distinct : level.symbols.Nodup) (missing : level.start ∉ level.symbols) :
      FirstFault level (.unknownStart level.start)
  | transition {earlier later : List (State S I L)} {state : State S I L} {fault : Fault S I}
      (distinct : level.symbols.Nodup) (start : level.start ∈ level.symbols)
      (split : level.states = earlier ++ state :: later)
      (sound : ∀ e ∈ earlier, e.Sound level.symbols)
      (first : state.FirstFault level.symbols fault) : FirstFault level fault

section Repeated

variable {α : Type}

def Unseen (seen rest : List α) : Prop := rest.Nodup ∧ ∀ a ∈ rest, a ∉ seen

theorem unseen_nil (seen : List α) : Unseen seen [] :=
  ⟨List.nodup_nil, fun _ member => absurd member List.not_mem_nil⟩

theorem unseen_from_start (rest : List α) : Unseen [] rest ↔ rest.Nodup := by
  simp [Unseen]

theorem unseen_cons {seen rest : List α} {a : α} :
    Unseen seen (a :: rest) ↔ a ∉ seen ∧ Unseen (a :: seen) rest := by
  simp only [Unseen, List.nodup_cons, List.mem_cons, forall_eq_or_imp, not_or]
  constructor
  · rintro ⟨⟨new, distinct⟩, fresh, unseen⟩
    exact ⟨fresh, distinct, fun b member => ⟨fun same => new (same ▸ member), unseen b member⟩⟩
  · rintro ⟨fresh, distinct, unseen⟩
    exact ⟨⟨fun member => (unseen a member).1 rfl, distinct⟩, fresh,
      fun b member => (unseen b member).2⟩

theorem seen_cons {seen earlier : List α} {a b : α} :
    (a ∈ b :: earlier ∨ a ∈ seen) ↔ (a ∈ earlier ∨ a ∈ b :: seen) := by
  simp only [List.mem_cons]
  exact ⟨fun h => by rcases h with (h | h) | h <;> simp [h],
    fun h => by rcases h with h | (h | h) <;> simp [h]⟩

theorem not_nodup_of_again {elements earlier later : List α} {a : α}
    (split : elements = earlier ++ a :: later) (again : a ∈ earlier) : ¬ elements.Nodup := by
  rw [split, List.nodup_append]
  rintro ⟨_, _, apart⟩
  exact apart a again a List.mem_cons_self rfl

variable [DecidableEq α]

theorem firstRepeated_none_iff {seen rest : List α} :
    firstRepeated? seen rest = none ↔ Unseen seen rest := by
  induction rest generalizing seen with
  | nil => simp [firstRepeated?, unseen_nil]
  | cons a rest ih =>
    rw [firstRepeated?, unseen_cons, ← ih]
    split <;> simp_all

theorem firstRepeated_some_iff {seen rest : List α} {a : α} :
    firstRepeated? seen rest = some a ↔ ∃ earlier later, rest = earlier ++ a :: later ∧
      Unseen seen earlier ∧ (a ∈ earlier ∨ a ∈ seen) := by
  induction rest generalizing seen with
  | nil => simp [firstRepeated?]
  | cons b rest ih =>
    rw [firstRepeated?]
    by_cases old : b ∈ seen
    · rw [if_pos old]
      constructor
      · intro found
        cases found
        exact ⟨[], rest, rfl, unseen_nil seen, Or.inr old⟩
      · rintro ⟨earlier, later, split, unseen, _⟩
        cases earlier with
        | nil =>
          cases split
          rfl
        | cons c earlier =>
          cases split
          exact absurd old (unseen_cons.mp unseen).1
    · rw [if_neg old, ih]
      constructor
      · rintro ⟨earlier, later, rfl, unseen, again⟩
        exact ⟨b :: earlier, later, rfl, unseen_cons.mpr ⟨old, unseen⟩, seen_cons.mpr again⟩
      · rintro ⟨earlier, later, split, unseen, again⟩
        cases earlier with
        | nil =>
          cases split
          simp [old] at again
        | cons c earlier =>
          cases split
          exact ⟨earlier, later, rfl, (unseen_cons.mp unseen).2, seen_cons.mp again⟩

end Repeated

section Scans

variable [DecidableEq S] [DecidableEq I]

theorem transitions_none_iff {symbols : List S} {state : S} {seen : List I}
    {rest : List (Transition S I)} :
    Transition.firstFault? symbols state seen rest = none ↔
      (∀ t ∈ rest, t.target ∈ symbols) ∧ Unseen seen (rest.map Transition.input) := by
  induction rest generalizing seen with
  | nil => simp [Transition.firstFault?, unseen_nil]
  | cons t rest ih =>
    rw [Transition.firstFault?, List.map_cons, unseen_cons, List.forall_mem_cons]
    split
    · simp_all
    · split
      · simp_all
      · simp_all

theorem state_sound_iff {symbols : List S} {state : State S I L} :
    Transition.firstFault? symbols state.symbol [] state.transitions = none ↔
      state.Sound symbols := by
  rw [transitions_none_iff, unseen_from_start]
  exact ⟨fun h => ⟨h.1, h.2⟩, fun h => ⟨h.targets, h.inputs⟩⟩

theorem transitions_some_iff {symbols : List S} {state : S} {seen : List I}
    {rest : List (Transition S I)} {fault : Fault S I} :
    Transition.firstFault? symbols state seen rest = some fault ↔
      ∃ earlier t later, rest = earlier ++ t :: later ∧ (∀ e ∈ earlier, e.target ∈ symbols) ∧
        Unseen seen (earlier.map Transition.input) ∧
        (t.target ∉ symbols ∧ fault = .unknownTarget state t.target ∨
          t.target ∈ symbols ∧ (t.input ∈ earlier.map Transition.input ∨ t.input ∈ seen) ∧
            fault = .duplicateTransition [state] t.input) := by
  induction rest generalizing seen with
  | nil => simp [Transition.firstFault?]
  | cons t rest ih =>
    rw [Transition.firstFault?]
    by_cases unknown : t.target ∉ symbols
    · rw [if_pos unknown]
      constructor
      · intro found
        cases found
        exact ⟨[], t, rest, rfl, by simp, unseen_nil seen, Or.inl ⟨unknown, rfl⟩⟩
      · rintro ⟨earlier, u, later, split, sound, _, found⟩
        cases earlier with
        | nil =>
          cases split
          simp_all
        | cons e earlier =>
          cases split
          exact absurd (sound t List.mem_cons_self) unknown
    · rw [if_neg unknown]
      by_cases old : t.input ∈ seen
      · rw [if_pos old]
        constructor
        · intro found
          cases found
          exact ⟨[], t, rest, rfl, by simp, unseen_nil seen,
            Or.inr ⟨Decidable.not_not.mp unknown, Or.inr old, rfl⟩⟩
        · rintro ⟨earlier, u, later, split, _, unseen, found⟩
          cases earlier with
          | nil =>
            cases split
            simp_all
          | cons e earlier =>
            cases split
            exact absurd old (unseen_cons.mp unseen).1
      · rw [if_neg old, ih]
        constructor
        · rintro ⟨earlier, u, later, rfl, sound, unseen, found⟩
          refine ⟨t :: earlier, u, later, rfl, ?_, unseen_cons.mpr ⟨old, unseen⟩, ?_⟩
          · exact List.forall_mem_cons.mpr ⟨Decidable.not_not.mp unknown, sound⟩
          · rwa [List.map_cons, seen_cons]
        · rintro ⟨earlier, u, later, split, sound, unseen, found⟩
          cases earlier with
          | nil =>
            cases split
            simp_all
          | cons e earlier =>
            cases split
            refine ⟨earlier, u, later, rfl, (List.forall_mem_cons.mp sound).2,
              (unseen_cons.mp unseen).2, ?_⟩
            rwa [List.map_cons, seen_cons] at found

theorem state_firstFault_iff {symbols : List S} {state : State S I L} {fault : Fault S I} :
    Transition.firstFault? symbols state.symbol [] state.transitions = some fault ↔
      state.FirstFault symbols fault := by
  rw [transitions_some_iff]
  constructor
  · rintro ⟨earlier, t, later, split, sound, unseen, found⟩
    have distinct := (unseen_from_start _).mp unseen
    rcases found with ⟨unknown, rfl⟩ | ⟨known, again, rfl⟩
    · exact .target split sound distinct unknown
    · exact .input split sound distinct known (by simpa using again)
  · intro first
    cases first with
    | target split sound distinct unknown =>
      exact ⟨_, _, _, split, sound, (unseen_from_start _).mpr distinct, Or.inl ⟨unknown, rfl⟩⟩
    | input split sound distinct known again =>
      exact ⟨_, _, _, split, sound, (unseen_from_start _).mpr distinct,
        Or.inr ⟨known, Or.inl again, rfl⟩⟩

theorem level_sound_iff {level : Level S I L} : level.fault? = none ↔ level.Sound := by
  unfold Level.fault?
  split
  · rename_i symbol repeated
    obtain ⟨earlier, later, split, _, again⟩ := firstRepeated_some_iff.mp repeated
    have repetition := not_nodup_of_again split (by simpa using again)
    exact ⟨nofun, fun sound => absurd sound.distinct repetition⟩
  · rename_i single
    have distinct := (unseen_from_start _).mp (firstRepeated_none_iff.mp single)
    split
    · rename_i start
      simp only [List.findSome?_eq_none_iff, state_sound_iff]
      exact ⟨fun states => ⟨distinct, start, states⟩, fun sound => sound.states⟩
    · rename_i missing
      exact ⟨nofun, fun sound => absurd sound.start missing⟩

theorem level_firstFault_iff {level : Level S I L} {fault : Fault S I} :
    level.fault? = some fault ↔ level.FirstFault fault := by
  unfold Level.fault?
  cases scan : firstRepeated? [] level.symbols with
  | some symbol =>
    obtain ⟨earlier, later, split, unseen, again⟩ := firstRepeated_some_iff.mp scan
    rw [or_iff_left List.not_mem_nil] at again
    have repetition := not_nodup_of_again split again
    constructor
    · intro found
      cases found
      exact .repeated split ((unseen_from_start _).mp unseen) again
    · intro first
      cases first with
      | repeated split distinct again =>
        have same := firstRepeated_some_iff.mpr
          ⟨_, _, split, (unseen_from_start _).mpr distinct, Or.inl again⟩
        rw [scan] at same
        cases same
        rfl
      | start distinct missing => exact absurd distinct repetition
      | transition distinct start split sound first => exact absurd distinct repetition
  | none =>
    have distinct := (unseen_from_start _).mp (firstRepeated_none_iff.mp scan)
    dsimp only
    split
    · rename_i start
      rw [List.findSome?_eq_some_iff]
      simp only [state_sound_iff, state_firstFault_iff]
      constructor
      · rintro ⟨earlier, state, later, split, first, sound⟩
        exact .transition distinct start split sound first
      · intro first
        cases first with
        | repeated split _ again => exact absurd distinct (not_nodup_of_again split again)
        | start _ missing => exact absurd start missing
        | transition _ _ split sound first => exact ⟨_, _, _, split, first, sound⟩
    · rename_i missing
      constructor
      · intro found
        cases found
        exact .start distinct missing
      · intro first
        cases first with
        | repeated split _ again => exact absurd distinct (not_nodup_of_again split again)
        | start => rfl
        | transition _ start _ _ _ => exact absurd start missing

end Scans
end Statechart
