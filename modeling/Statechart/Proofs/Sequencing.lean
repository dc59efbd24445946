import Mathlib.Data.List.Forall2
import Statechart.Compilation
import Statechart.LastFirst

/-!
Steps in sequence. What a list of steps that may fail yields if none does; and compilations of which
it can be said, whatever was bound before, that they do not fail and what they make.
-/
namespace Statechart

section Failing

variable {α β ε : Type} {f : α → Except ε β}

theorem bind_ok_iff {x : Except ε α} {b : β} :
    (x >>= f) = .ok b ↔ ∃ a, x = .ok a ∧ f a = .ok b := by
  cases x with
  | error => simp [bind, Except.bind]
  | ok a => simp [bind, Except.bind]

theorem bind_error_iff {x : Except ε α} {e : ε} :
    (x >>= f) = .error e ↔ x = .error e ∨ ∃ a, x = .ok a ∧ f a = .error e := by
  cases x with
  | error => simp [bind, Except.bind]
  | ok => simp [bind, Except.bind]

theorem mapM_ok_iff {as : List α} {bs : List β} :
    as.mapM f = .ok bs ↔ List.Forall₂ (fun a b => f a = .ok b) as bs := by
  induction as generalizing bs with
  | nil => simp [pure, Except.pure, eq_comm]
  | cons a as ih =>
    simp only [List.mapM_cons, bind_ok_iff, ih, pure, Except.pure, Except.ok.injEq]
    constructor
    · rintro ⟨b, here, tail, others, rfl⟩
      exact .cons here others
    · intro all
      cases all with
      | cons here others => exact ⟨_, here, _, others, rfl⟩

theorem failure_of_mapM {as : List α} {e : ε} (failed : as.mapM f = .error e) :
    ∃ a ∈ as, f a = .error e := by
  induction as with
  | nil => cases failed
  | cons a as ih =>
    rw [List.mapM_cons, bind_error_iff] at failed
    rcases failed with here | ⟨b, _, failed⟩
    · exact ⟨a, List.mem_cons_self, here⟩
    · rcases bind_error_iff.mp failed with others | ⟨bs, _, failed⟩
      · obtain ⟨other, member, failed⟩ := ih others
        exact ⟨other, List.mem_cons_of_mem a member, failed⟩
      · cases failed

theorem mapFromLast_ok_iff {as : List α} {bs : List β} :
    mapFromLast f as = .ok bs ↔ List.Forall₂ (fun a b => f a = .ok b) as bs := by
  induction as generalizing bs with
  | nil => simp [mapFromLast, eq_comm]
  | cons a as ih =>
    simp only [mapFromLast, bind_ok_iff, ih, pure, Except.pure, Except.ok.injEq]
    constructor
    · rintro ⟨tail, others, b, here, rfl⟩
      exact .cons here others
    · intro all
      cases all with
      | cons here others => exact ⟨_, others, _, here, rfl⟩

theorem forall₂_exists {R : α → β → Prop} {as : List α} (each : ∀ a ∈ as, ∃ b, R a b) :
    ∃ bs, List.Forall₂ R as bs := by
  induction as with
  | nil => exact ⟨[], .nil⟩
  | cons a as ih =>
    obtain ⟨b, here⟩ := each a List.mem_cons_self
    obtain ⟨bs, others⟩ := ih fun other member => each other (List.mem_cons_of_mem a member)
    exact ⟨b :: bs, .cons here others⟩

theorem forall₂_trans {γ : Type} {R : α → β → Prop} {P : β → γ → Prop} {as : List α} {bs : List β}
    {cs : List γ} (first : List.Forall₂ R as bs) (second : List.Forall₂ P bs cs) :
    List.Forall₂ (fun a c => ∃ b, R a b ∧ P b c) as cs := by
  induction first generalizing cs with
  | nil =>
    cases second
    exact .nil
  | cons here _ ih =>
    cases second with
    | cons further others => exact .cons ⟨_, here, further⟩ (ih others)

theorem forall₂_mem_left {R : α → β → Prop} {as : List α} {bs : List β}
    (all : List.Forall₂ R as bs) {a : α} (member : a ∈ as) : ∃ b ∈ bs, R a b := by
  induction all with
  | nil => cases member
  | cons here _ ih =>
    rcases List.mem_cons.mp member with same | later
    · exact ⟨_, List.mem_cons_self, same ▸ here⟩
    · obtain ⟨b, memberB, related⟩ := ih later
      exact ⟨b, List.mem_cons_of_mem _ memberB, related⟩

theorem forall₂_mem_right {R : α → β → Prop} {as : List α} {bs : List β}
    (all : List.Forall₂ R as bs) {b : β} (member : b ∈ bs) : ∃ a ∈ as, R a b :=
  forall₂_mem_left all.flip member

theorem map_eq_of_forall₂ {γ : Type} {g : α → γ} {h : β → γ} {as : List α} {bs : List β}
    (all : List.Forall₂ (fun a b => g a = h b) as bs) : as.map g = bs.map h := by
  rw [← List.forall₂_eq_eq_eq, List.forall₂_map_left_iff, List.forall₂_map_right_iff]
  exact all

theorem eq_map_of_forall₂ {γ : Type} {P : α → β → Prop} {Q : α → γ → Prop} {g : β → γ}
    {as : List α} {bs : List β} {cs : List γ} (first : List.Forall₂ P as bs)
    (second : List.Forall₂ Q as cs) (each : ∀ a ∈ as, ∀ b c, P a b → Q a c → c = g b) :
    cs = bs.map g := by
  induction first generalizing cs with
  | nil =>
    cases second
    rfl
  | @cons a b as bs here _ ih =>
    cases second with
    | cons hereToo others =>
      rw [List.map_cons, each a List.mem_cons_self b _ here hereToo,
        ih others fun other member => each other (List.mem_cons_of_mem a member)]

theorem forall₂_getElem? {R : α → β → Prop} {as : List α} {bs : List β}
    (all : List.Forall₂ R as bs) {k : Nat} {b : β} (here : bs[k]? = some b) :
    ∃ a, as[k]? = some a ∧ R a b := by
  induction all generalizing k with
  | nil => cases here
  | cons first _ ih =>
    cases k with
    | zero =>
      cases here
      exact ⟨_, rfl, first⟩
    | succ k => exact ih here

end Failing

namespace Compilation

variable {S I α β : Type}

/-- From every journal the compilation succeeds, with a result of which the condition holds. -/
def Makes (compilation : Compilation S I α) (post : α → Prop) : Prop :=
  ∀ journal, ∃ result after, compilation.run journal = (.ok result, after) ∧ post result

theorem run_bind (compilation : Compilation S I α) (next : α → Compilation S I β)
    (journal : Journal) : (compilation >>= next).run journal =
      match compilation.run journal with
      | (.ok a, between) => (next a).run between
      | (.error fault, between) => (.error fault, between) := by
  cases run : compilation.run journal with
  | mk result between =>
    have step : (compilation >>= next).run journal
        = (ExceptT.bindCont next (compilation.run journal).1) (compilation.run journal).2 := rfl
    rw [step, run]
    cases result <;> rfl

theorem makes_pure {a : α} {post : α → Prop} (holds : post a) :
    Makes (pure a : Compilation S I α) post :=
  fun journal => ⟨a, journal, rfl, holds⟩

theorem makes_bind {compilation : Compilation S I α} {next : α → Compilation S I β}
    {mid : α → Prop} {post : β → Prop} (first : compilation.Makes mid)
    (second : ∀ a, mid a → (next a).Makes post) : (compilation >>= next).Makes post := by
  intro journal
  obtain ⟨a, between, run, holds⟩ := first journal
  obtain ⟨b, after, runNext, holdsNext⟩ := second a holds between
  refine ⟨b, after, ?_, holdsNext⟩
  rw [run_bind, run]
  exact runNext

theorem makes_weaken {compilation : Compilation S I α} {mid post : α → Prop}
    (first : compilation.Makes mid) (weaker : ∀ a, mid a → post a) : compilation.Makes post := by
  intro journal
  obtain ⟨a, after, run, holds⟩ := first journal
  exact ⟨a, after, run, weaker a holds⟩

theorem holds_of_makes {compilation : Compilation S I α} {post : α → Prop}
    (makes : compilation.Makes post) {a : α} {journal after : Journal}
    (run : compilation.run journal = (.ok a, after)) : post a := by
  obtain ⟨result, other, again, holds⟩ := makes journal
  rw [run, Prod.mk.injEq, Except.ok.injEq] at again
  exact again.1 ▸ holds

theorem makes_of_ok {x : Except (Fault S I) α} {a : α} (ok : x = .ok a) :
    Makes (liftM x : Compilation S I α) (· = a) := by
  subst ok
  exact fun journal => ⟨a, journal, rfl, rfl⟩

theorem run_of_except (x : Except (Fault S I) α) (journal : Journal) :
    (liftM x : Compilation S I α).run journal = (x, journal) := by
  cases x <;> rfl

theorem run_of_error {x : Except (Fault S I) α} {fault : Fault S I} (error : x = .error fault)
    (next : α → Compilation S I β) (journal : Journal) :
    ((liftM x : Compilation S I α) >>= next).run journal = (.error fault, journal) := by
  subst error
  rfl

theorem run_of_ok {x : Except (Fault S I) α} {a : α} (ok : x = .ok a)
    (next : α → Compilation S I β) (journal : Journal) :
    ((liftM x : Compilation S I α) >>= next).run journal = (next a).run journal := by
  subst ok
  rfl

theorem ok_of_run {x : Except (Fault S I) α} {next : α → Compilation S I β} {b : β}
    {journal after : Journal}
    (run : ((liftM x : Compilation S I α) >>= next).run journal = (.ok b, after)) :
    ∃ a, x = .ok a := by
  cases x with
  | ok a => exact ⟨a, rfl⟩
  | error fault =>
    rw [run_of_error rfl] at run
    cases run

theorem makes_of_state {step : StateM Journal α} {post : α → Prop}
    (holds : ∀ journal, post (step journal).1) : Makes (liftM step : Compilation S I α) post :=
  fun journal => ⟨(step journal).1, (step journal).2, rfl, holds journal⟩

theorem makes_mapM_along {γ : Type} {f : β → Compilation S I γ} {R : α → β → Prop}
    {P : α → γ → Prop} {as : List α} {bs : List β} (all : List.Forall₂ R as bs)
    (each : ∀ a ∈ as, ∀ b, R a b → (f b).Makes (P a)) : (bs.mapM f).Makes (List.Forall₂ P as) := by
  induction all with
  | nil => exact makes_pure .nil
  | @cons a _ as _ here _ ih =>
    rw [List.mapM_cons]
    apply makes_bind (each a List.mem_cons_self _ here)
    intro c first
    apply makes_bind (ih fun other member => each other (List.mem_cons_of_mem a member))
    exact fun cs others => makes_pure (.cons first others)

theorem makes_mapM {f : α → Compilation S I β} {P : α → β → Prop} {as : List α}
    (each : ∀ a ∈ as, (f a).Makes (P a)) : (as.mapM f).Makes (List.Forall₂ P as) := by
  have same : List.Forall₂ Eq as as := List.forall₂_same.mpr fun _ _ => rfl
  exact makes_mapM_along same fun a member b equal => equal ▸ each a member

end Compilation
end Statechart
