import Mathlib
import Statechart.Action.Script
import Statechart.Proofs.Binding
import Statechart.Proofs.Carrying

/-!
Histories of scripts. What a step writes follows from the steps before it, without slots, counters
or actions: a hook is known by the moment of its definition and an action by the moments of the
bindings that it was composed of. What is written to a slot later does not change these moments, so
actions keep what they were bound to. Main result: `scripts_write_by_history`.
-/
namespace Statechart

def Entry.IsBinding : Entry → Prop
  | bound _ _ => True
  | _ => False

namespace Script

/-- The steps taken so far, the last one first. A moment is such a history up to some step. -/
abbrev History := List Step

namespace History

/-- The moment at which the hook in a slot was defined. A copy was defined with what it copies. -/
def definition? : History → String → Option History
  | [], _ => none
  | .fixed written text :: past, slot =>
    if written = slot then some (.fixed written text :: past) else definition? past slot
  | .lazy written text :: past, slot =>
    if written = slot then some (.lazy written text :: past) else definition? past slot
  | .copy written source :: past, slot => definition? past (if written = slot then source else slot)
  | _ :: past, slot => definition? past slot

/-- How often the hook defined at a moment was bound, itself or as a copy. -/
def bindings (defined : History) : History → Nat
  | [] => 0
  | .bind _ source :: past =>
    bindings defined past + if definition? past source = some defined then 1 else 0
  | _ :: past => bindings defined past

/-- The moments of the bindings that the action in a slot was composed of, in order. -/
def parts? : History → String → Option (List History)
  | [], _ => none
  | .bind written source :: past, slot =>
    if written = slot then some [.bind written source :: past] else parts? past slot
  | .idle written :: past, slot => if written = slot then some [] else parts? past slot
  | .sequence written parts :: past, slot =>
    if written = slot then List.flatten <$> parts.mapM (parts? past) else parts? past slot
  | _ :: past, slot => parts? past slot

def spoken : History → List Entry
  | .bind _ source :: past =>
    match definition? past source with
    | some (.fixed _ text :: _) => [.said text]
    | some (.lazy slot text :: before) =>
      [.ran text (bindings (.lazy slot text :: before) past + 1)]
    | _ => []
  | _ => []

/-- What a step writes; `none` where it reads an empty slot. -/
def writes? (past : History) : Step → Option (List Entry)
  | .fixed .. | .lazy .. | .idle _ => some []
  | .copy _ source => (fun _ => []) <$> definition? past source
  | .bind _ source => definition? past source >>= fun
    | .lazy slot text :: before =>
      some [.bound text (bindings (.lazy slot text :: before) past + 1)]
    | _ => some []
  | .sequence _ parts => (fun _ => []) <$> parts.mapM (parts? past)
  | .run slot => List.flatMap spoken <$> parts? past slot

def writings? (past : History) : List Step → Option (List (List Entry))
  | [] => some []
  | step :: steps => do
    let written ← writes? past step
    let later ← writings? (step :: past) steps
    return written :: later

def AsksCounter (past : History) (step : Step) : Prop :=
  ∃ slot source written text before, step = .bind slot source ∧
    definition? past source = some (.lazy written text :: before)

def lazies (past : History) : Nat := past.countP fun
  | .lazy .. => true
  | _ => false

def hook? : History → Option Hook
  | .fixed _ text :: _ => some (.fixed text)
  | .lazy _ text :: before => some (.lazy (lazies before) text)
  | _ => none

def counter? : History → Option Nat
  | .lazy _ _ :: before => some (lazies before)
  | _ => none

def asked (counter : Nat) : History → Nat
  | [] => 0
  | .bind _ source :: past =>
    asked counter past + if definition? past source >>= counter? = some counter then 1 else 0
  | _ :: past => asked counter past

variable {past moment other : History} {slot : String}

theorem suffix_of_definition (defined : definition? past slot = some moment) : moment <:+ past := by
  fun_induction definition? past slot with
  | case1 => cases defined
  | case2 => exact Option.some.inj defined ▸ List.suffix_rfl
  | case3 _ _ _ _ _ ih => exact (ih defined).trans (List.suffix_cons _ _)
  | case4 => exact Option.some.inj defined ▸ List.suffix_rfl
  | case5 _ _ _ _ _ ih => exact (ih defined).trans (List.suffix_cons _ _)
  | case6 _ _ _ _ ih => exact (ih defined).trans (List.suffix_cons _ _)
  | case7 _ _ _ _ _ _ ih => exact (ih defined).trans (List.suffix_cons _ _)

theorem hook_of_definition (defined : definition? past slot = some moment) :
    (∃ written text before, moment = .fixed written text :: before) ∨
      ∃ written text before, moment = .lazy written text :: before := by
  fun_induction definition? past slot with
  | case1 => cases defined
  | case2 => exact Or.inl ⟨_, _, _, (Option.some.inj defined).symm⟩
  | case3 _ _ _ _ _ ih => exact ih defined
  | case4 => exact Or.inr ⟨_, _, _, (Option.some.inj defined).symm⟩
  | case5 _ _ _ _ _ ih => exact ih defined
  | case6 _ _ _ _ ih => exact ih defined
  | case7 _ _ _ _ _ _ ih => exact ih defined

theorem lazies_le (earlier : moment <:+ past) : lazies moment ≤ lazies past :=
  earlier.sublist.countP_le

theorem lazies_lazy (written text : String) (before : History) :
    lazies (.lazy written text :: before) = lazies before + 1 :=
  List.countP_cons_of_pos rfl

theorem counter_injective {written text otherWritten otherText : String} {before : History}
    {otherBefore : History} (earlier : .lazy written text :: before <:+ past)
    (earlierToo : .lazy otherWritten otherText :: otherBefore <:+ past)
    (same : lazies before = lazies otherBefore) :
    Step.lazy written text :: before = .lazy otherWritten otherText :: otherBefore := by
  -- the shorter one ends the longer one, and would be counted there if it were shorter indeed
  rcases List.suffix_or_suffix_of_suffix earlier earlierToo with inside | inside
  · rcases List.suffix_cons_iff.mp inside with equal | deeper
    · exact equal
    · have := lazies_le deeper
      rw [lazies_lazy] at this
      omega
  · rcases List.suffix_cons_iff.mp inside with equal | deeper
    · exact equal.symm
    · have := lazies_le deeper
      rw [lazies_lazy] at this
      omega

theorem bindings_fresh {defined : History} (later : past.length < defined.length) :
    bindings defined past = 0 := by
  fun_induction bindings defined past with
  | case1 => rfl
  | case2 _ source past ih =>
    rw [List.length_cons] at later
    have apart : definition? past source ≠ some defined := fun found =>
      absurd (suffix_of_definition found).length_le (by omega)
    rw [ih (by omega), if_neg apart]
  | case3 _ _ _ ih =>
    rw [List.length_cons] at later
    exact ih (by omega)

theorem asked_fresh {counter : Nat} (fresh : lazies past ≤ counter) : asked counter past = 0 := by
  fun_induction asked counter past with
  | case1 => rfl
  | case2 _ source past ih =>
    have known : lazies past ≤ counter := Nat.le_trans (lazies_le (List.suffix_cons _ _)) fresh
    have apart : definition? past source >>= counter? ≠ some counter := by
      intro asks
      obtain ⟨moment, found, own⟩ := Option.bind_eq_some_iff.mp asks
      have inside := lazies_le (suffix_of_definition found)
      rcases hook_of_definition found with ⟨_, _, _, rfl⟩ | ⟨_, _, _, rfl⟩
      · cases own
      · cases own
        rw [lazies_lazy] at inside
        omega
    rw [ih known, if_neg apart]
  | case3 _ past _ ih => exact ih (Nat.le_trans (lazies_le (List.suffix_cons _ _)) fresh)

theorem bindings_eq_asked {written text : String} {before : History}
    (earlier : .lazy written text :: before <:+ past) :
    bindings (.lazy written text :: before) past = asked (lazies before) past := by
  induction past with
  | nil => cases List.suffix_nil.mp earlier
  | cons step past ih =>
    rcases List.suffix_cons_iff.mp earlier with whole | inside
    · cases whole
      have unbound : bindings (.lazy written text :: before) before = 0 :=
        bindings_fresh (Nat.lt_succ_self _)
      have unasked : asked (lazies before) before = 0 := asked_fresh (Nat.le_refl _)
      exact unbound.trans unasked.symm
    · have known := ih inside
      cases step with
      | bind slot source =>
        have same : definition? past source = some (.lazy written text :: before) ↔
            definition? past source >>= counter? = some (lazies before) := by
          constructor
          · intro found
            rw [found]
            rfl
          · intro asks
            obtain ⟨moment, found, own⟩ := Option.bind_eq_some_iff.mp asks
            have insideToo := suffix_of_definition found
            rcases hook_of_definition found with ⟨_, _, _, rfl⟩ | ⟨_, _, _, rfl⟩
            · cases own
            · rw [found, counter_injective insideToo inside (Option.some.inj own)]
        simp only [bindings, asked, known, same]
      | _ => exact known

end History

open History

/-- The slots and counters of the bench are as the history says. -/
structure Bench.Follows (past : History) (bench : Bench) : Prop where
  hooks : ∀ slot, bench.hooks[slot]? = definition? past slot >>= hook?
  actions : ∀ slot,
    Action.entries <$> bench.actions[slot]? = List.flatMap spoken <$> parts? past slot
  fresh : bench.fresh = lazies past
  counts : ∀ counter, bench.journal.count counter = asked counter past

structure Bench.Takes (past : History) (step : Step) (bench next : Bench)
    (written : List Entry) : Prop where
  follows : next.Follows (step :: past)
  entries : next.journal.entries = bench.journal.entries ++ written.toArray
  counts : ¬ AsksCounter past step → next.journal.counts = bench.journal.counts

variable {past : History} {bench : Bench}

theorem follows_nil : Bench.Follows [] {} := by
  constructor
  · intro slot
    simp [definition?]
  · intro slot
    simp [parts?]
  · rfl
  · intro counter
    simp [Journal.count, asked]

theorem takes_fixed (follows : bench.Follows past) (slot text : String) :
    bench.Takes past (.fixed slot text)
      { bench with hooks := bench.hooks.insert slot (.fixed text) } [] := by
  refine ⟨⟨fun other => ?_, follows.actions, ?_, follows.counts⟩, by simp, fun _ => rfl⟩
  · rw [Std.HashMap.getElem?_insert, definition?]
    by_cases same : slot = other
    · simp [same, hook?]
    · simp [same, follows.hooks]
  · exact follows.fresh

theorem takes_lazy (follows : bench.Follows past) (slot text : String) :
    bench.Takes past (.lazy slot text)
      { bench with
        hooks := bench.hooks.insert slot (.lazy bench.fresh text)
        fresh := bench.fresh + 1 } [] := by
  refine ⟨⟨fun other => ?_, follows.actions, ?_, follows.counts⟩, by simp, fun _ => rfl⟩
  · rw [Std.HashMap.getElem?_insert, definition?]
    by_cases same : slot = other
    · simp [same, hook?, follows.fresh]
    · simp [same, follows.hooks]
  · rw [lazies_lazy, follows.fresh]

theorem takes_copy (follows : bench.Follows past) {slot source : String} {hook : Hook}
    (found : bench.hooks[source]? = some hook) :
    bench.Takes past (.copy slot source)
      { bench with hooks := bench.hooks.insert slot hook } [] := by
  refine ⟨⟨fun other => ?_, follows.actions, follows.fresh, follows.counts⟩, by simp, fun _ => rfl⟩
  rw [Std.HashMap.getElem?_insert, definition?]
  by_cases same : slot = other
  · simp [same, ← follows.hooks, found]
  · simp [same, follows.hooks]

theorem takes_idle (follows : bench.Follows past) (slot : String) :
    bench.Takes past (.idle slot)
      { bench with actions := bench.actions.insert slot .idle } [] := by
  refine ⟨⟨follows.hooks, fun other => ?_, follows.fresh, follows.counts⟩, by simp, fun _ => rfl⟩
  rw [Std.HashMap.getElem?_insert, parts?]
  by_cases same : slot = other
  · simp [same, Action.entries]
  · simp [same, ← follows.actions]

theorem takes_bind_fixed (follows : bench.Follows past) {slot source written text : String}
    {before : History} (defined : definition? past source = some (.fixed written text :: before)) :
    bench.Takes past (.bind slot source)
      { bench with actions := bench.actions.insert slot (.write (.said text)) } [] := by
  refine ⟨⟨follows.hooks, fun other => ?_, follows.fresh, fun counter => ?_⟩, by simp, fun _ => rfl⟩
  · rw [Std.HashMap.getElem?_insert, parts?]
    by_cases same : slot = other
    · simp [same, Action.entries, spoken, defined]
    · simp [same, ← follows.actions]
  · simp [asked, defined, counter?, follows.counts]

theorem takes_bind_lazy (follows : bench.Follows past) {slot source written text : String}
    {before : History} (defined : definition? past source = some (.lazy written text :: before)) :
    bench.Takes past (.bind slot source)
      { bench with
        actions := bench.actions.insert slot
          (.write (.ran text (bench.journal.count (lazies before) + 1)))
        journal :=
          { entries := bench.journal.entries.push
              (.bound text (bench.journal.count (lazies before) + 1))
            counts := bench.journal.counts.insert (lazies before)
              (bench.journal.count (lazies before) + 1) } }
      [.bound text (bindings (.lazy written text :: before) past + 1)] := by
  have number : bench.journal.count (lazies before)
      = bindings (.lazy written text :: before) past := by
    rw [follows.counts, bindings_eq_asked (suffix_of_definition defined)]
  refine ⟨⟨follows.hooks, fun other => ?_, follows.fresh, fun counter => ?_⟩, ?_, fun plain => ?_⟩
  · rw [Std.HashMap.getElem?_insert, parts?]
    by_cases same : slot = other
    · simp [same, Action.entries, spoken, defined, number]
    · simp [same, ← follows.actions]
  · rw [Journal.count, Std.HashMap.getD_insert, asked, defined]
    by_cases same : lazies before = counter
    · simp [counter?, same, follows.counts]
    · simp [counter?, same, ← follows.counts, Journal.count]
  · simp [number]
  · exact absurd ⟨slot, source, written, text, before, rfl, defined⟩ plain

theorem actions_of_slots (follows : bench.Follows past) (slots : List String) :
    List.map Action.entries <$> slots.mapM (fun slot => bench.actions[slot]?)
      = List.map (List.flatMap spoken) <$> slots.mapM (parts? past) := by
  have bound : slots.mapM (fun slot => Action.entries <$> bench.actions[slot]?)
      = List.map Action.entries <$> slots.mapM fun slot => bench.actions[slot]? :=
    mapM_erased fun _ _ => rfl
  have composed : slots.mapM (fun slot => Action.entries <$> bench.actions[slot]?)
      = List.map (List.flatMap spoken) <$> slots.mapM (parts? past) :=
    mapM_erased fun slot _ => follows.actions slot
  rw [← bound, composed]

theorem takes_sequence (follows : bench.Follows past) {slot : String} {slots : List String}
    {actions : List Action} (found : slots.mapM (fun slot => bench.actions[slot]?) = some actions) :
    bench.Takes past (.sequence slot slots)
      { bench with actions := bench.actions.insert slot (.sequence actions) } [] := by
  refine ⟨⟨follows.hooks, fun other => ?_, follows.fresh, follows.counts⟩, by simp, fun _ => rfl⟩
  rw [Std.HashMap.getElem?_insert, parts?]
  by_cases same : slot = other
  · have parts := actions_of_slots follows slots
    rw [found] at parts
    cases composed : slots.mapM (parts? past) with
    | none =>
      rw [composed] at parts
      cases parts
    | some lists =>
      rw [composed, Option.map_eq_map, Option.map_some, Option.map_eq_map, Option.map_some,
        Option.some.injEq] at parts
      have flattened : actions.flatMap Action.entries = lists.flatten.flatMap spoken := by
        rw [List.flatMap_def, parts, List.flatMap_def, List.map_flatten, List.flatten_flatten,
          List.map_map]
        rfl
      simp [same, Action.entries_sequence, flattened]
  · simp [same, ← follows.actions]

theorem takes_run (follows : bench.Follows past) {slot : String} {action : Action}
    {parts : List History} (found : bench.actions[slot]? = some action)
    (composed : parts? past slot = some parts) :
    bench.Takes past (.run slot) { bench with journal := action.run bench.journal }
      (parts.flatMap spoken) := by
  have entries := follows.actions slot
  rw [found, composed, Option.map_eq_map, Option.map_some, Option.map_eq_map, Option.map_some,
    Option.some.injEq] at entries
  refine ⟨⟨follows.hooks, follows.actions, follows.fresh, fun counter => ?_⟩, ?_, fun _ => ?_⟩
  · rw [action.run_eq]
    exact follows.counts counter
  · rw [action.run_eq, entries]
  · rw [action.run_eq]

theorem step_takes (follows : bench.Follows past) (step : Step) :
    Option.Rel (bench.Takes past step) (bench.step? step) (writes? past step) := by
  cases step with
  | fixed slot text => exact .some (takes_fixed follows slot text)
  | lazy slot text => exact .some (takes_lazy follows slot text)
  | idle slot => exact .some (takes_idle follows slot)
  | copy slot source =>
    have hooks := follows.hooks source
    rw [Bench.step?, writes?]
    cases defined : definition? past source with
    | none =>
      rw [hooks, defined]
      exact .none
    | some moment =>
      obtain ⟨hook, made⟩ : ∃ hook, hook? moment = some hook := by
        rcases hook_of_definition defined with ⟨_, _, _, rfl⟩ | ⟨_, _, _, rfl⟩ <;> exact ⟨_, rfl⟩
      rw [defined, Option.bind_eq_bind, Option.bind_some, made] at hooks
      rw [hooks]
      exact .some (takes_copy follows hooks)
  | bind slot source =>
    have hooks := follows.hooks source
    rw [Bench.step?, writes?]
    cases defined : definition? past source with
    | none =>
      rw [hooks, defined]
      exact .none
    | some moment =>
      rcases hook_of_definition defined with ⟨_, _, _, rfl⟩ | ⟨_, _, _, rfl⟩
      · rw [hooks, defined]
        exact .some (takes_bind_fixed follows defined)
      · rw [hooks, defined]
        exact .some (takes_bind_lazy follows defined)
  | sequence slot slots =>
    have parts := actions_of_slots follows slots
    rw [Bench.step?, writes?]
    cases found : slots.mapM fun slot => bench.actions[slot]? with
    | none =>
      cases composed : slots.mapM (parts? past) with
      | none => exact .none
      | some lists =>
        rw [found, composed] at parts
        cases parts
    | some actions =>
      cases composed : slots.mapM (parts? past) with
      | none =>
        rw [found, composed] at parts
        cases parts
      | some lists => exact .some (takes_sequence follows found)
  | run slot =>
    have entries := follows.actions slot
    rw [Bench.step?, writes?]
    cases found : bench.actions[slot]? with
    | none =>
      cases composed : parts? past slot with
      | none => exact .none
      | some parts =>
        rw [found, composed] at entries
        cases entries
    | some action =>
      cases composed : parts? past slot with
      | none =>
        rw [found, composed] at entries
        cases entries
      | some parts => exact .some (takes_run follows found composed)

theorem unbound_of_spoken (moment : History) : ∀ entry ∈ spoken moment, ¬ entry.IsBinding := by
  fun_cases spoken moment <;> simp [Entry.IsBinding]

theorem unbound_of_writes {step : Step} {written : List Entry}
    (writes : writes? past step = some written) (plain : ¬ AsksCounter past step) :
    ∀ entry ∈ written, ¬ entry.IsBinding := by
  cases step with
  | fixed | lazy | idle =>
    cases writes
    exact nofun
  | copy slot source =>
    obtain ⟨_, _, rfl⟩ := Option.map_eq_some_iff.mp writes
    exact nofun
  | bind slot source =>
    obtain ⟨moment, defined, written⟩ := Option.bind_eq_some_iff.mp writes
    rcases hook_of_definition defined with ⟨_, _, _, rfl⟩ | ⟨_, _, _, rfl⟩
    · cases written
      exact nofun
    · exact absurd ⟨_, _, _, _, _, rfl, defined⟩ plain
  | sequence slot slots =>
    obtain ⟨_, _, rfl⟩ := Option.map_eq_some_iff.mp writes
    exact nofun
  | run slot =>
    obtain ⟨parts, _, rfl⟩ := Option.map_eq_some_iff.mp writes
    intro entry member
    obtain ⟨moment, _, among⟩ := List.mem_flatMap.mp member
    exact unbound_of_spoken moment entry among

theorem follows_of_counts (follows : bench.Follows past) {journal : Journal}
    (kept : journal.counts = bench.journal.counts) : Bench.Follows past { bench with journal } := by
  refine ⟨follows.hooks, follows.actions, follows.fresh, fun counter => ?_⟩
  rw [← follows.counts counter, Journal.count, Journal.count, kept]

theorem took_or_failed (follows : bench.Follows past) (step : Step) :
    (∃ next written, bench.step? step = some next ∧ writes? past step = some written ∧
      bench.Takes past step next written) ∨
    (bench.step? step = none ∧ writes? past step = none) := by
  have agree := step_takes follows step
  generalize bench.step? step = stepped, writes? past step = wrote at agree
  cases agree with
  | some takes => exact Or.inl ⟨_, _, rfl, rfl, takes⟩
  | none => exact Or.inr ⟨rfl, rfl⟩

theorem follows_of_run {steps : List Step} {last : Bench} (follows : bench.Follows past)
    (reached : steps.foldlM Bench.step? bench = some last) :
    last.Follows (steps.reverse ++ past) := by
  induction steps generalizing past bench with
  | nil =>
    cases reached
    exact follows
  | cons step steps ih =>
    obtain ⟨next, stepped, further⟩ := Option.bind_eq_some_iff.mp reached
    rcases took_or_failed follows step with ⟨_, _, same, _, takes⟩ | ⟨failed, _⟩
    · rw [stepped, Option.some.injEq] at same
      subst same
      simpa using ih takes.follows further
    · rw [stepped] at failed
      cases failed

theorem entries_eq_writings (follows : bench.Follows past) (blank : bench.journal.entries = #[])
    (steps : List Step) : entries? bench steps = writings? past steps := by
  induction steps generalizing past bench with
  | nil => rfl
  | cons step steps ih =>
    rw [entries?, writings?]
    rcases took_or_failed follows step with ⟨next, written, stepped, wrote, takes⟩ | ⟨failed, wrote⟩
    · have taken : next.journal.entries.toList = written := by
        rw [takes.entries, blank]
        simp
      have kept : next.journal.take.2.counts = next.journal.counts := rfl
      have further := ih (follows_of_counts takes.follows kept) rfl
      simp only [stepped, wrote, Option.bind_eq_bind, Option.bind_some, ← further, Journal.take,
        taken]
    · rw [failed, wrote]
      rfl

/-- What each step of a script writes follows from the steps before it: a run writes what the
bindings in its action say, in the order of composition, and the binding of a lazy hook the number
of bindings of this hook and its copies. No other step writes down a binding or asks a counter. -/
theorem scripts_write_by_history (steps : List Step) :
    entries? {} steps = writings? [] steps ∧
    ∀ bench, steps.foldlM Bench.step? {} = some bench → ∀ step next,
      bench.step? step = some next → ∃ written, writes? steps.reverse step = some written ∧
        next.journal.entries = bench.journal.entries ++ written.toArray ∧
        (¬ AsksCounter steps.reverse step →
          next.journal.counts = bench.journal.counts ∧ ∀ entry ∈ written, ¬ entry.IsBinding) := by
  refine ⟨entries_eq_writings follows_nil rfl steps, fun bench reached step next stepped => ?_⟩
  have follows := follows_of_run follows_nil reached
  rw [List.append_nil] at follows
  rcases took_or_failed follows step with ⟨_, written, same, wrote, takes⟩ | ⟨failed, _⟩
  · rw [stepped, Option.some.injEq] at same
    subst same
    exact ⟨written, wrote, takes.entries,
      fun plain => ⟨takes.counts plain, unbound_of_writes wrote plain⟩⟩
  · rw [stepped] at failed
    cases failed

def rehearsal : List Step := [
  .lazy "voice" "la", .copy "echo" "voice", .bind "first" "echo", .bind "second" "voice",
  .sequence "none" [], .sequence "alone" ["second"], .sequence "song" ["first", "none", "alone"],
  .fixed "voice" "do", .bind "first" "voice", .bind "second" "echo", .idle "alone",
  .sequence "concert" ["song", "first", "song"]]

theorem rehearsal_writes_by_history :
    writings? [] (rehearsal ++ [.run "concert"]) = some [[], [], [.bound "la" 1], [.bound "la" 2],
      [], [], [], [], [], [.bound "la" 3], [], [],
      [.ran "la" 1, .ran "la" 2, .said "do", .ran "la" 1, .ran "la" 2]] ∧
    entries? {} (rehearsal ++ [.run "concert"]) = writings? [] (rehearsal ++ [.run "concert"]) ∧
    ∃ bench next, rehearsal.foldlM Bench.step? {} = some bench ∧
      bench.step? (.run "concert") = some next ∧ next.journal.counts = bench.journal.counts := by
  have reached : ((rehearsal.foldlM Bench.step? {}).bind fun bench =>
      bench.step? (.run "concert")).isSome = true := by cbv
  obtain ⟨next, run⟩ := Option.isSome_iff_exists.mp reached
  obtain ⟨bench, built, stepped⟩ := Option.bind_eq_some_iff.mp run
  obtain ⟨written, _, _, silent⟩ :=
    (scripts_write_by_history rehearsal).2 bench built _ next stepped
  have plain : ¬ AsksCounter rehearsal.reverse (.run "concert") := by
    rintro ⟨_, _, _, _, _, same, _⟩
    cases same
  refine ⟨by cbv, (scripts_write_by_history _).1, bench, next, built, stepped, (silent plain).1⟩

end Script
end Statechart
