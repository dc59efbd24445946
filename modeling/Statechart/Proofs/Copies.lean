import Mathlib.Data.List.Dedup
import Statechart.Proofs.Covering

/-!
Unfolded charts. A chart is unfolded by giving to each state that has a level nested in it a copy of
that level which no other state has. `Chart.unfolded` does so for every chart without cycles: there
is one copy of a level for each way to it.
-/
namespace Statechart.Chart

variable {S I : Type}

def Holds (chart : Chart S I) (outer : Fin chart.size) (place : Nat) (inner : Fin chart.size) :
    Prop :=
  ∃ state, (chart.level outer).states[place]? = some state ∧ state.inner = some inner

/-- The copy is the chart with a level of its own for each state that has one nested in it. -/
structure Unfolds (copy : Chart S I) (top : Fin copy.size) (chart : Chart S I)
    (root : Fin chart.size) (origin : Fin copy.size → Fin chart.size) : Prop where
  root : origin top = root
  covers : copy.Covers chart origin
  unshared : ∀ {outer other place spot inner}, copy.Holds outer place inner →
    copy.Holds other spot inner → outer = other ∧ place = spot
  outermost : ∀ outer place, ¬ copy.Holds outer place top

variable {chart : Chart S I} {root : Fin chart.size}

theorem nests_of_holds {outer inner : Fin chart.size} {place : Nat}
    (holds : chart.Holds outer place inner) : chart.Nests outer inner := by
  obtain ⟨state, here, nested⟩ := holds
  exact nests_of_state (List.mem_of_getElem? here) nested

/-- A copy of a level, known by the states around it: for each, innermost first, its level and its
place there. -/
abbrev Copy (chart : Chart S I) : Type := List (Fin chart.size × Nat) × Fin chart.size

def copiesBelow (chart : Chart S I) (outer : chart.Copy) : List chart.Copy :=
  (chart.level outer.2).states.zipIdx.filterMap fun (state, place) =>
    state.inner.map fun inner => ((outer.2, place) :: outer.1, inner)

def copiesAt (chart : Chart S I) (root : Fin chart.size) : Nat → List chart.Copy
  | 0 => [([], root)]
  | depth + 1 => (chart.copiesAt root depth).flatMap chart.copiesBelow

def copies (chart : Chart S I) (root : Fin chart.size) : List chart.Copy :=
  ((List.range chart.size).flatMap (chart.copiesAt root)).dedup

def copied (chart : Chart S I) (root : Fin chart.size) (c : chart.Copy) :
    Level S I (Fin (chart.copies root).length) where
  start := (chart.level c.2).start
  states := (chart.level c.2).states.mapIdx fun place state =>
    { state with
      inner := state.inner.bind fun inner =>
        (chart.copies root).finIdxOf? ((c.2, place) :: c.1, inner) }

def unfolded (chart : Chart S I) (root : Fin chart.size) : Chart S I where
  size := (chart.copies root).length
  level number := chart.copied root (chart.copies root)[number]

def unfoldedOrigin (chart : Chart S I) (root : Fin chart.size)
    (number : Fin (chart.copies root).length) : Fin chart.size :=
  (chart.copies root)[number].2

theorem mem_copiesBelow {outer inner : chart.Copy} : inner ∈ chart.copiesBelow outer ↔
    ∃ place, chart.Holds outer.2 place inner.2 ∧ inner.1 = (outer.2, place) :: outer.1 := by
  simp only [copiesBelow, List.mem_filterMap, Option.map_eq_some_iff, Prod.exists,
    List.mk_mem_zipIdx_iff_getElem?, Holds]
  constructor
  · rintro ⟨state, place, here, level, nested, rfl⟩
    exact ⟨place, ⟨state, here, nested⟩, rfl⟩
  · rintro ⟨place, ⟨state, here, nested⟩, way⟩
    exact ⟨state, place, here, inner.2, nested, Prod.ext way.symm rfl⟩

theorem surrounds_of_copy (acyclic : chart.Acyclic root) {depth : Nat} {c : chart.Copy}
    (member : c ∈ chart.copiesAt root depth) : chart.Reaches root c.2 ∧
      ∃ above : List (Fin chart.size), above.length = depth ∧ chart.Surrounds above c.2 := by
  induction depth generalizing c with
  | zero =>
    cases List.mem_singleton.mp member
    exact ⟨.refl, [], rfl, List.nodup_nil, clear_nil root⟩
  | succ depth ih =>
    obtain ⟨outer, memberOuter, below⟩ := List.mem_flatMap.mp member
    obtain ⟨reaches, above, length, surrounds⟩ := ih memberOuter
    obtain ⟨place, holds, _⟩ := mem_copiesBelow.mp below
    have nests := nests_of_holds holds
    refine ⟨reaches.tail nests, outer.2 :: above, by rw [List.length_cons, length], ?_⟩
    exact surrounds_cons (acyclic_of_reaches acyclic reaches) surrounds nests

theorem mem_copies (acyclic : chart.Acyclic root) {c : chart.Copy} :
    c ∈ chart.copies root ↔ ∃ depth, c ∈ chart.copiesAt root depth := by
  rw [copies, List.mem_dedup, List.mem_flatMap]
  constructor
  · rintro ⟨depth, _, member⟩
    exact ⟨depth, member⟩
  · rintro ⟨depth, member⟩
    obtain ⟨_, above, length, surrounds⟩ := surrounds_of_copy acyclic member
    exact ⟨depth, List.mem_range.mpr (length ▸ length_lt_of_surrounds surrounds), member⟩

theorem copies_closed (acyclic : chart.Acyclic root) {outer inner : chart.Copy}
    (member : outer ∈ chart.copies root) (below : inner ∈ chart.copiesBelow outer) :
    inner ∈ chart.copies root := by
  obtain ⟨depth, here⟩ := (mem_copies acyclic).mp member
  exact (mem_copies acyclic).mpr ⟨depth + 1, List.mem_flatMap.mpr ⟨outer, here, below⟩⟩

theorem copy_of_holds (acyclic : chart.Acyclic root) {c : chart.Copy}
    (member : c ∈ chart.copies root) {place : Nat} {inner : Fin chart.size}
    (holds : chart.Holds c.2 place inner) :
    ∃ k, (chart.copies root).finIdxOf? ((c.2, place) :: c.1, inner) = some k ∧
      chart.unfoldedOrigin root k = inner := by
  have below : ((c.2, place) :: c.1, inner) ∈ chart.copiesBelow c :=
    mem_copiesBelow.mpr ⟨place, holds, rfl⟩
  have known := List.contains_iff_mem.mpr (copies_closed acyclic member below)
  obtain ⟨k, found⟩ := Option.isSome_iff_exists.mp (List.isSome_finIdxOf?.trans known)
  exact ⟨k, found, congrArg Prod.snd (List.finIdxOf?_eq_some_iff.mp found).1⟩

theorem copied_covers (acyclic : chart.Acyclic root) {c : chart.Copy}
    (member : c ∈ chart.copies root) :
    (chart.copied root c).mapInner (chart.unfoldedOrigin root) = chart.level c.2 := by
  have states : ((chart.copied root c).mapInner (chart.unfoldedOrigin root)).states
      = (chart.level c.2).states := by
    apply List.ext_getElem?
    intro place
    simp only [Level.mapInner, copied, List.getElem?_map, List.getElem?_mapIdx]
    cases here : (chart.level c.2).states[place]? with
    | none => rfl
    | some state =>
      have same : (state.inner.bind fun inner => (chart.copies root).finIdxOf?
          ((c.2, place) :: c.1, inner)).map (chart.unfoldedOrigin root) = state.inner := by
        cases nested : state.inner with
        | none => rfl
        | some inner =>
          obtain ⟨k, found, origin⟩ := copy_of_holds acyclic member ⟨state, here, nested⟩
          rw [Option.bind_some, found, Option.map_some, origin]
      exact congrArg (fun inner => some { state with inner }) same
  exact congrArg (Level.mk (chart.level c.2).start) states

theorem nested_in_copied {c : chart.Copy} {place : Nat}
    {state : State S I (Fin (chart.copies root).length)}
    (here : (chart.copied root c).states[place]? = some state)
    {inner : Fin (chart.copies root).length} (nested : state.inner = some inner) :
    ∃ level, (chart.copies root)[inner] = ((c.2, place) :: c.1, level) := by
  rw [copied, List.getElem?_mapIdx, Option.map_eq_some_iff] at here
  obtain ⟨declared, _, rfl⟩ := here
  obtain ⟨level, _, found⟩ := Option.bind_eq_some_iff.mp nested
  exact ⟨level, (List.finIdxOf?_eq_some_iff.mp found).1⟩

theorem unfolded_unfolds (acyclic : chart.Acyclic root) :
    ∃ top, (chart.unfolded root).Unfolds top chart root (chart.unfoldedOrigin root) := by
  have first : ([], root) ∈ chart.copies root :=
    (mem_copies acyclic).mpr ⟨0, List.mem_singleton.mpr rfl⟩
  obtain ⟨k, bound, top⟩ := List.mem_iff_getElem.mp first
  refine ⟨⟨k, bound⟩, congrArg Prod.snd top, ?_, ?_, ?_⟩
  · exact fun number => copied_covers acyclic (List.getElem_mem number.isLt)
  · intro outer other place spot inner holds holdsOther
    obtain ⟨_, listed, nested⟩ := holds
    obtain ⟨_, listedOther, nestedOther⟩ := holdsOther
    obtain ⟨level, here⟩ := nested_in_copied listed nested
    obtain ⟨twin, there⟩ := nested_in_copied listedOther nestedOther
    rw [here] at there
    simp only [Prod.mk.injEq, List.cons.injEq] at there
    obtain ⟨⟨⟨level, place⟩, way⟩, _⟩ := there
    have distinct : (chart.copies root).Nodup := List.nodup_dedup _
    exact ⟨Fin.ext ((distinct.getElem_inj_iff).mp (Prod.ext way level)), place⟩
  · intro outer place holds
    obtain ⟨_, listed, nested⟩ := holds
    obtain ⟨level, here⟩ := nested_in_copied listed nested
    have there : (chart.copies root)[k] = _ := here
    rw [top, Prod.mk.injEq] at there
    exact absurd there.1.symm (List.cons_ne_nil _ _)

end Statechart.Chart
