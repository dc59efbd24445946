import Mathlib.Data.Fintype.EquivFin
import Mathlib.Logic.Relation
import Mathlib.Order.WellFounded
import Statechart.Chart

/-!
The nesting of levels. The levels of a chart form a finite graph, with an edge from each level to
those nested in its states. Most of the theory is about the part of the graph below one level, and
there by induction from the nested levels outwards, which needs that no level is inside itself.
-/
namespace Statechart.Chart

variable {S I : Type}

def Nests (chart : Chart S I) (outer inner : Fin chart.size) : Prop :=
  inner ∈ (chart.level outer).inners

/-- The level is the other one or lies inside it, however deep. -/
abbrev Reaches (chart : Chart S I) : Fin chart.size → Fin chart.size → Prop :=
  Relation.ReflTransGen chart.Nests

abbrev Encloses (chart : Chart S I) : Fin chart.size → Fin chart.size → Prop :=
  Relation.TransGen chart.Nests

def Acyclic (chart : Chart S I) (root : Fin chart.size) : Prop :=
  ∀ number, chart.Reaches root number → ¬ chart.Encloses number number

/-- No level from the given one inwards is among those in the list. -/
def Clear (chart : Chart S I) (above : List (Fin chart.size)) (number : Fin chart.size) : Prop :=
  ∀ inside, chart.Reaches number inside → inside ∉ above

variable {chart : Chart S I}

theorem nests_iff {outer inner : Fin chart.size} :
    chart.Nests outer inner ↔ ∃ state ∈ (chart.level outer).states, state.inner = some inner := by
  simp [Nests, Level.inners]

theorem acyclic_of_reaches {root number : Fin chart.size} (acyclic : chart.Acyclic root)
    (reaches : chart.Reaches root number) : chart.Acyclic number :=
  fun inside further => acyclic inside (reaches.trans further)

theorem acyclic_of_nests {outer inner : Fin chart.size} (acyclic : chart.Acyclic outer)
    (nests : chart.Nests outer inner) : chart.Acyclic inner :=
  acyclic_of_reaches acyclic (.single nests)

theorem not_reaches_back {outer inner : Fin chart.size} (acyclic : chart.Acyclic outer)
    (nests : chart.Nests outer inner) : ¬ chart.Reaches inner outer := by
  intro back
  exact acyclic outer .refl (.head' nests back)

theorem acyclic_of_inwards (inwards : ∀ outer, ∀ inner ∈ (chart.level outer).inners, outer < inner)
    (root : Fin chart.size) : chart.Acyclic root := by
  have greater : ∀ {outer inner}, chart.Encloses outer inner → outer < inner := by
    intro outer inner way
    induction way with
    | single nests => exact inwards _ _ nests
    | tail _ nests ih => exact ih.trans (inwards _ _ nests)
  exact fun number _ loop => lt_irrefl number (greater loop)

@[elab_as_elim]
theorem nesting_induction {motive : ∀ number, chart.Acyclic number → Prop}
    (step : ∀ number (acyclic : chart.Acyclic number), (∀ inner (nests : chart.Nests number inner),
      motive inner (acyclic_of_nests acyclic nests)) → motive number acyclic)
    {root : Fin chart.size} (acyclic : chart.Acyclic root) : motive root acyclic := by
  -- strictly inside, and below the root: transitive, irreflexive and on a finite type
  let deeper (inner outer : Fin chart.size) : Prop :=
    chart.Reaches root outer ∧ chart.Encloses outer inner
  have transitive : IsTrans (Fin chart.size) deeper :=
    ⟨fun _ _ _ first second => ⟨second.1, second.2.trans first.2⟩⟩
  have irreflexive : Std.Irrefl deeper := ⟨fun number loop => acyclic number loop.1 loop.2⟩
  have wellFounded : WellFounded deeper := Finite.wellFounded_of_trans_of_irrefl deeper
  have below : ∀ number, chart.Reaches root number → ∀ inside, motive number inside := by
    intro number
    induction number using wellFounded.induction with
    | _ number ih =>
      intro reaches inside
      apply step number inside
      intro inner nests
      exact ih inner ⟨reaches, .single nests⟩ (reaches.tail nests) _
  exact below root .refl acyclic

theorem clear_nil (number : Fin chart.size) : chart.Clear [] number :=
  fun _ _ => List.not_mem_nil

theorem not_mem_of_clear {above : List (Fin chart.size)} {number : Fin chart.size}
    (clear : chart.Clear above number) : number ∉ above :=
  clear number .refl

theorem clear_cons {above : List (Fin chart.size)} {outer inner : Fin chart.size}
    (acyclic : chart.Acyclic outer) (clear : chart.Clear above outer)
    (nests : chart.Nests outer inner) : chart.Clear (outer :: above) inner := by
  intro inside reaches member
  rcases List.mem_cons.mp member with same | further
  · subst same
    exact not_reaches_back acyclic nests reaches
  · exact clear inside (.head nests reaches) further

theorem length_le_size {above : List (Fin chart.size)} (distinct : above.Nodup) :
    above.length ≤ chart.size := by
  simpa using distinct.length_le_card

/-- The levels from the given one inwards as the plain walk leaves them, each as often as it does.
`above` lists the levels around. -/
def leavings (chart : Chart S I) (above : List (Fin chart.size)) (number : Fin chart.size) :
    List (Fin chart.size) :=
  if _known : number ∈ above then []
  else (chart.level number).inners.flatMap (chart.leavings (number :: above)) ++ [number]
termination_by chart.unknown above
decreasing_by
  exact chart.unknown_lt _ (fun _ => List.mem_cons_of_mem _) (by assumption) List.mem_cons_self

/-- The levels from the root inwards, each at the place where the walk leaves it first. -/
def postorder (chart : Chart S I) (root : Fin chart.size) : List (Fin chart.size) :=
  (chart.leavings [] root).eraseDups

theorem leavings_eq {above : List (Fin chart.size)} {number : Fin chart.size}
    (fresh : number ∉ above) : chart.leavings above number
      = (chart.level number).inners.flatMap (chart.leavings (number :: above)) ++ [number] := by
  rw [leavings, dif_neg fresh]

theorem mem_leavings {number : Fin chart.size} (acyclic : chart.Acyclic number)
    {inside : Fin chart.size} : ∀ {above}, chart.Clear above number →
      (inside ∈ chart.leavings above number ↔ chart.Reaches number inside) := by
  induction acyclic using nesting_induction with
  | step number acyclic ih =>
    intro above clear
    rw [leavings_eq (not_mem_of_clear clear), List.mem_append, List.mem_flatMap,
      List.mem_singleton]
    constructor
    · rintro (⟨inner, nests, among⟩ | rfl)
      · exact .head nests ((ih inner nests (clear_cons acyclic clear nests)).mp among)
      · exact .refl
    · intro reaches
      rcases reaches.cases_head with same | ⟨inner, nests, further⟩
      · exact Or.inr same.symm
      · exact Or.inl ⟨inner, nests, (ih inner nests (clear_cons acyclic clear nests)).mpr further⟩

theorem mem_postorder {root : Fin chart.size} (acyclic : chart.Acyclic root)
    {number : Fin chart.size} : number ∈ chart.postorder root ↔ chart.Reaches root number := by
  rw [postorder, List.mem_eraseDups, mem_leavings acyclic (clear_nil root)]

end Statechart.Chart
