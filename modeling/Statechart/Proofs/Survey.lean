import Statechart.Proofs.LevelFault
import Statechart.Proofs.Nesting

/-!
What the check of a chart decides. A plain walk looks at every level as often as it comes across it,
and stops at the first fault. The survey skips the levels it has checked and keeps a stack of
errands, and still comes to the same end: main results `check_ok_iff` and `check_error_iff`.
-/
namespace Statechart.Chart

variable {S I : Type} [DecidableEq S] [DecidableEq I]

/-- The first fault of a walk that remembers only the levels around it: a level that is inside
itself, then the level by itself, then the levels nested in its states one after the other. -/
def walkFault? (chart : Chart S I) (above : List (Fin chart.size)) (number : Fin chart.size) :
    Option (Fault S I) :=
  if _known : number ∈ above then some (.cyclic (chart.level number).start)
  else
    match (chart.level number).fault? with
    | some fault => some fault
    | none => (chart.level number).inners.findSome? (chart.walkFault? (number :: above))
termination_by chart.unknown above
decreasing_by
  exact chart.unknown_lt _ (fun _ => List.mem_cons_of_mem _) (by assumption) List.mem_cons_self

/-- No level from the given one inwards has a fault, and none is inside itself. -/
structure Wellformed (chart : Chart S I) (root : Fin chart.size) : Prop where
  acyclic : chart.Acyclic root
  sound : ∀ number, chart.Reaches root number → (chart.level number).Sound

variable {chart : Chart S I}

omit [DecidableEq S] [DecidableEq I] in
theorem wellformed_of_reaches {root number : Fin chart.size} (wellformed : chart.Wellformed root)
    (reaches : chart.Reaches root number) : chart.Wellformed number :=
  ⟨acyclic_of_reaches wellformed.acyclic reaches,
    fun inside further => wellformed.sound inside (reaches.trans further)⟩

omit [DecidableEq S] [DecidableEq I] in
theorem wellformed_of_nests {outer inner : Fin chart.size} (wellformed : chart.Wellformed outer)
    (nests : chart.Nests outer inner) : chart.Wellformed inner :=
  wellformed_of_reaches wellformed (.single nests)

omit [DecidableEq S] [DecidableEq I] in
@[elab_as_elim]
theorem wellformed_induction {motive : ∀ number, chart.Wellformed number → Prop}
    (step : ∀ number (wellformed : chart.Wellformed number),
      (∀ inner (nests : chart.Nests number inner),
        motive inner (wellformed_of_nests wellformed nests)) → motive number wellformed)
    {root : Fin chart.size} (wellformed : chart.Wellformed root) : motive root wellformed := by
  have acyclic := wellformed.acyclic
  induction acyclic using nesting_induction with
  | step number acyclic ih =>
    exact step number wellformed fun inner nests =>
      ih inner nests (wellformed_of_nests wellformed nests)

theorem walkFault_none_iff {above : List (Fin chart.size)} {number : Fin chart.size} :
    chart.walkFault? above number = none ↔ chart.Clear above number ∧ chart.Wellformed number := by
  induction above, number using walkFault?.induct chart with
  | case1 above number known =>
    rw [walkFault?, dif_pos known]
    exact ⟨nofun, fun h => absurd known (not_mem_of_clear h.1)⟩
  | case2 above number fresh fault found =>
    rw [walkFault?, dif_neg fresh, found]
    refine ⟨nofun, fun h => ?_⟩
    rw [level_sound_iff.mpr (h.2.sound number .refl)] at found
    cases found
  | case3 above number fresh single ih =>
    rw [walkFault?, dif_neg fresh, single]
    simp only [List.findSome?_eq_none_iff, ih]
    constructor
    · intro inside
      refine ⟨?_, ?_, ?_⟩
      · intro deep reaches
        rcases reaches.cases_head with same | ⟨inner, nests, further⟩
        · exact same ▸ fresh
        · exact fun member => (inside inner nests).1 deep further (List.mem_cons_of_mem _ member)
      · intro deep reaches
        rcases reaches.cases_head with same | ⟨inner, nests, further⟩
        · subst same
          intro loop
          obtain ⟨inner, nests, back⟩ := Relation.TransGen.head'_iff.mp loop
          exact (inside inner nests).1 number back List.mem_cons_self
        · exact (inside inner nests).2.acyclic deep further
      · intro deep reaches
        rcases reaches.cases_head with same | ⟨inner, nests, further⟩
        · exact same ▸ level_sound_iff.mp single
        · exact (inside inner nests).2.sound deep further
    · intro ⟨clear, wellformed⟩ inner nests
      exact ⟨clear_cons wellformed.acyclic clear nests, wellformed_of_nests wellformed nests⟩

structure Surveyed (chart : Chart S I) (checked active : List (Fin chart.size)) : Prop where
  closed : ∀ number ∈ checked, ∀ inner, chart.Nests number inner → inner ∈ checked
  wellformed : ∀ number ∈ checked, chart.Wellformed number
  apart : ∀ number ∈ checked, number ∉ active

omit [DecidableEq S] [DecidableEq I] in
theorem surveyed_nil (active : List (Fin chart.size)) : chart.Surveyed [] active :=
  ⟨nofun, nofun, nofun⟩

omit [DecidableEq S] [DecidableEq I] in
theorem surveyed_enter {checked active : List (Fin chart.size)}
    (surveyed : chart.Surveyed checked active) {number : Fin chart.size}
    (unchecked : number ∉ checked) : chart.Surveyed checked (number :: active) := by
  refine ⟨surveyed.closed, surveyed.wellformed, ?_⟩
  intro n old member
  rcases List.mem_cons.mp member with same | further
  · exact unchecked (same ▸ old)
  · exact surveyed.apart n old further

omit [DecidableEq S] [DecidableEq I] in
theorem surveyed_leave {checked active : List (Fin chart.size)} {number : Fin chart.size}
    (surveyed : chart.Surveyed checked (number :: active)) (fresh : number ∉ active)
    (wellformed : chart.Wellformed number)
    (entered : ∀ inner ∈ (chart.level number).inners, inner ∈ checked) :
    chart.Surveyed (number :: checked) active := by
  constructor
  · rw [List.forall_mem_cons]
    constructor
    · intro inner nests
      exact List.mem_cons_of_mem number (entered inner nests)
    · intro n old inner nests
      exact List.mem_cons_of_mem number (surveyed.closed n old inner nests)
  · exact List.forall_mem_cons.mpr ⟨wellformed, surveyed.wellformed⟩
  · rw [List.forall_mem_cons]
    constructor
    · exact fresh
    · intro n old member
      exact surveyed.apart n old (List.mem_cons_of_mem number member)

omit [DecidableEq S] [DecidableEq I] in
theorem surveyed_reaches {checked active : List (Fin chart.size)}
    (surveyed : chart.Surveyed checked active) {number inside : Fin chart.size}
    (member : number ∈ checked) (reaches : chart.Reaches number inside) : inside ∈ checked := by
  induction reaches with
  | refl => exact member
  | tail _ nests ih => exact surveyed.closed _ ih _ nests

theorem walkFault_of_checked {checked active : List (Fin chart.size)}
    (surveyed : chart.Surveyed checked active) {number : Fin chart.size}
    (member : number ∈ checked) : chart.walkFault? active number = none := by
  refine walkFault_none_iff.mpr ⟨fun inside reaches => ?_, surveyed.wellformed number member⟩
  exact surveyed.apart inside (surveyed_reaches surveyed member reaches)

/-- Entering the levels one after the other ends as a walk through them does: with its fault, or
with all of them checked. -/
def EntersAsWalk (chart : Chart S I) (active numbers : List (Fin chart.size)) : Prop :=
  ∀ checked, chart.Surveyed checked active →
    match numbers.findSome? (chart.walkFault? active) with
    | some fault =>
      ∀ rest, chart.survey checked active (numbers.map .enter ++ rest) = .error fault
    | none =>
      ∃ more, chart.Surveyed more active ∧ (∀ number ∈ checked, number ∈ more) ∧
        (∀ number ∈ numbers, number ∈ more) ∧
        ∀ rest, chart.survey checked active (numbers.map .enter ++ rest)
          = chart.survey more active rest

theorem enters_all {active numbers : List (Fin chart.size)}
    (each : ∀ number ∈ numbers, chart.EntersAsWalk active [number]) :
    chart.EntersAsWalk active numbers := by
  induction numbers with
  | nil => exact fun checked surveyed => ⟨checked, surveyed, fun _ => id, nofun, fun _ => rfl⟩
  | cons number numbers ih =>
    intro checked surveyed
    have first := each number List.mem_cons_self checked surveyed
    have others := ih fun other member => each other (List.mem_cons_of_mem number member)
    simp only [List.findSome?_cons, List.findSome?_nil, List.map_cons, List.map_nil,
      List.cons_append, List.nil_append] at first ⊢
    cases found : chart.walkFault? active number with
    | some fault =>
      simp only [found] at first ⊢
      exact fun rest => first _
    | none =>
      simp only [found, List.forall_mem_singleton] at first ⊢
      obtain ⟨more, surveyed, kept, entered, run⟩ := first
      have last := others more surveyed
      cases later : numbers.findSome? (chart.walkFault? active) with
      | some fault =>
        simp only [later] at last ⊢
        exact fun rest => (run _).trans (last rest)
      | none =>
        simp only [later] at last ⊢
        obtain ⟨most, surveyed, keptMore, enteredAll, runAll⟩ := last
        refine ⟨most, surveyed, fun n member => keptMore n (kept n member), ?_, ?_⟩
        · exact List.forall_mem_cons.mpr ⟨keptMore number entered, enteredAll⟩
        · exact fun rest => (run _).trans (runAll rest)

theorem enters_one (active : List (Fin chart.size)) (number : Fin chart.size) :
    chart.EntersAsWalk active [number] := by
  induction active, number using walkFault?.induct chart with
  | case1 active number known =>
    intro checked surveyed
    have fresh : number ∉ checked := fun member => surveyed.apart number member known
    simp [walkFault?, survey, known, fresh]
  | case2 active number fresh fault found =>
    intro checked surveyed
    have unchecked : number ∉ checked := fun member => by
      have sound := (surveyed.wellformed number member).sound number .refl
      rw [level_sound_iff.mpr sound] at found
      cases found
    simp [walkFault?, survey, fresh, unchecked, found]
  | case3 active number fresh single ih =>
    intro checked surveyed
    by_cases member : number ∈ checked
    · simp only [List.findSome?_cons, walkFault_of_checked surveyed member, List.findSome?_nil]
      refine ⟨checked, surveyed, fun _ => id, by simpa using member, fun rest => ?_⟩
      simp [survey, member]
    · have opened := surveyed_enter surveyed member
      have step : ∀ rest, chart.survey checked active (.enter number :: rest)
          = chart.survey checked (number :: active)
              ((chart.level number).inners.map .enter ++ .leave number :: rest) := fun rest => by
        rw [survey, if_neg member, if_neg fresh, single]
      have all : chart.EntersAsWalk (number :: active) (chart.level number).inners :=
        enters_all fun inner _ => ih inner
      have inside := all checked opened
      have walk : chart.walkFault? active number
          = (chart.level number).inners.findSome? (chart.walkFault? (number :: active)) := by
        rw [walkFault?, dif_neg fresh, single]
      simp only [List.findSome?_cons, List.findSome?_nil, walk]
      cases found : (chart.level number).inners.findSome? (chart.walkFault? (number :: active)) with
      | some fault =>
        simp only [found] at inside ⊢
        exact fun rest => (step rest).trans (inside _)
      | none =>
        simp only [found] at inside ⊢
        obtain ⟨more, surveyed, kept, entered, run⟩ := inside
        have wellformed := (walkFault_none_iff.mp (walk.trans found)).2
        refine ⟨number :: more, surveyed_leave surveyed fresh wellformed entered, ?_, ?_, ?_⟩
        · exact fun n old => List.mem_cons_of_mem number (kept n old)
        · simp
        · intro rest
          calc chart.survey checked active (.enter number :: rest)
              = chart.survey more (number :: active) (.leave number :: rest) :=
                (step rest).trans (run _)
            _ = chart.survey (number :: more) active rest := by
                rw [survey, List.erase_cons_head]

theorem check_eq_walk (chart : Chart S I) (root : Fin chart.size) :
    chart.check root = match chart.walkFault? [] root with
      | some fault => .error fault
      | none => .ok () := by
  have run := enters_one [] root [] (surveyed_nil [])
  simp only [List.findSome?_cons, List.findSome?_nil, List.map_cons, List.map_nil,
    List.cons_append, List.nil_append] at run
  unfold check
  cases found : chart.walkFault? [] root with
  | some fault =>
    simp only [found] at run
    rw [run []]
    rfl
  | none =>
    simp only [found] at run
    obtain ⟨more, _, _, _, run⟩ := run
    rw [run [], survey]
    rfl

theorem check_ok_iff {root : Fin chart.size} :
    chart.check root = .ok () ↔ chart.Wellformed root := by
  rw [check_eq_walk]
  have walk : chart.walkFault? [] root = none ↔ chart.Clear [] root ∧ chart.Wellformed root :=
    walkFault_none_iff
  cases found : chart.walkFault? [] root with
  | some fault =>
    simp only [found, reduceCtorEq, false_iff] at walk ⊢
    exact fun wellformed => walk ⟨clear_nil root, wellformed⟩
  | none =>
    simp only [found, true_iff] at walk ⊢
    exact walk.2

theorem check_error_iff {root : Fin chart.size} {fault : Fault S I} :
    chart.check root = .error fault ↔ chart.walkFault? [] root = some fault := by
  rw [check_eq_walk]
  cases chart.walkFault? [] root <;> simp

/-- Nothing but a well-formed chart passes the check; any other one is refused with the first fault
of the plain walk, which looks at each level by the order of its possible faults. -/
theorem check_decides_wellformedness (chart : Chart S I) (root : Fin chart.size) :
    (chart.check root = .ok () ↔ chart.Wellformed root) ∧
    (∀ fault, chart.check root = .error fault ↔ chart.walkFault? [] root = some fault) ∧
    ∀ number fault, (chart.level number).fault? = some fault ↔
      (chart.level number).FirstFault fault :=
  ⟨check_ok_iff, fun _ => check_error_iff, fun _ _ => level_firstFault_iff⟩

def lamp : Chart String String where
  size := 2
  level number :=
    if number = 0 then {
      start := "off"
      states := [
        { symbol := "off", transitions := [⟨"switch", "on", none⟩] },
        { symbol := "on", exit := some (.fixed "cool"), inner := some 1,
          transitions := [⟨"switch", "off", some (.fixed "click")⟩] }] }
    else {
      start := "bright"
      states := [
        { symbol := "bright", entry := some (.fixed "shine"),
          transitions := [⟨"dim", "dark", none⟩] },
        { symbol := "dark", transitions := [⟨"dim", "bright", none⟩] }] }

def lampRoot : Fin lamp.size := ⟨0, by decide⟩

theorem lamp_accepted : lamp.check lampRoot = .ok () := by cbv

end Statechart.Chart
