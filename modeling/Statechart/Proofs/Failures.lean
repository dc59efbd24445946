import Statechart.Proofs.Sequencing

/-!
First failures. Steps in sequence fail as soon as one of them does, and then as this one fails.
-/
namespace Statechart

section First

variable {α β ε : Type} {P : α → Prop} {as : List α} {a : α}

/-- The condition holds of this element of the list, and of none before it. -/
def IsFirst (P : α → Prop) (as : List α) (a : α) : Prop :=
  ∃ earlier later, as = earlier ++ a :: later ∧ (∀ b ∈ earlier, ¬ P b) ∧ P a

theorem first_mem (first : IsFirst P as a) : a ∈ as := by
  obtain ⟨earlier, later, rfl, _⟩ := first
  simp

theorem first_holds (first : IsFirst P as a) : P a := by
  obtain ⟨_, _, _, _, holds⟩ := first
  exact holds

theorem first_cons {b : α} :
    IsFirst P (b :: as) a ↔ (a = b ∧ P b) ∨ (¬ P b ∧ IsFirst P as a) := by
  constructor
  · rintro ⟨earlier, later, split, none, holds⟩
    cases earlier with
    | nil =>
      cases split
      exact Or.inl ⟨rfl, holds⟩
    | cons c earlier =>
      cases split
      obtain ⟨here, none⟩ := List.forall_mem_cons.mp none
      exact Or.inr ⟨here, earlier, later, rfl, none, holds⟩
  · rintro (⟨rfl, holds⟩ | ⟨here, earlier, later, rfl, none, holds⟩)
    · exact ⟨[], as, rfl, nofun, holds⟩
    · exact ⟨b :: earlier, later, rfl, List.forall_mem_cons.mpr ⟨here, none⟩, holds⟩

theorem exists_first (holds : ∃ a ∈ as, P a) : ∃ a, IsFirst P as a := by
  induction as with
  | nil =>
    obtain ⟨a, member, _⟩ := holds
    cases member
  | cons b as ih =>
    by_cases here : P b
    · exact ⟨b, first_cons.mpr (Or.inl ⟨rfl, here⟩)⟩
    · simp only [List.mem_cons, exists_eq_or_imp] at holds
      obtain ⟨a, first⟩ := ih (holds.resolve_left here)
      exact ⟨a, first_cons.mpr (Or.inr ⟨here, first⟩)⟩

theorem first_congr {Q : α → Prop} (same : ∀ b ∈ as, P b ↔ Q b) :
    IsFirst P as a ↔ IsFirst Q as a := by
  constructor
  · rintro ⟨earlier, later, rfl, none, holds⟩
    refine ⟨earlier, later, rfl, fun b member other => ?_, (same a (by simp)).mp holds⟩
    exact none b member ((same b (by simp [member])).mpr other)
  · rintro ⟨earlier, later, rfl, none, holds⟩
    refine ⟨earlier, later, rfl, fun b member other => ?_, (same a (by simp)).mpr holds⟩
    exact none b member ((same b (by simp [member])).mp other)

theorem first_along {R : α → β → Prop} {T : β → Prop} {bs : List β} (all : List.Forall₂ R as bs)
    (same : ∀ a b, R a b → (P a ↔ T b)) (first : IsFirst P as a) : ∃ b, IsFirst T bs b ∧ R a b := by
  induction all with
  | nil => cases first_mem first
  | @cons c d as bs here _ ih =>
    rcases first_cons.mp first with ⟨rfl, holds⟩ | ⟨none, first⟩
    · exact ⟨d, first_cons.mpr (Or.inl ⟨rfl, (same _ d here).mp holds⟩), here⟩
    · obtain ⟨b, further, related⟩ := ih first
      exact ⟨b, first_cons.mpr (Or.inr ⟨fun holds => none ((same c d here).mpr holds), further⟩),
        related⟩

theorem mapM_failed {f : α → Except ε β} {earlier later : List α} {e : ε}
    (fine : ∀ b ∈ earlier, ∃ c, f b = .ok c) (failed : f a = .error e) :
    (earlier ++ a :: later).mapM f = .error e := by
  induction earlier with
  | nil =>
    rw [List.nil_append, List.mapM_cons]
    exact bind_error_iff.mpr (Or.inl failed)
  | cons b earlier ih =>
    obtain ⟨c, here⟩ := fine b List.mem_cons_self
    have others := ih fun other member => fine other (List.mem_cons_of_mem b member)
    rw [List.cons_append, List.mapM_cons]
    exact bind_error_iff.mpr (Or.inr ⟨c, here, bind_error_iff.mpr (Or.inl others)⟩)

end First

namespace Compilation

variable {S I α β : Type} {fault : Fault S I}

def Fails (compilation : Compilation S I α) (fault : Fault S I) : Prop :=
  ∀ journal, ∃ after, compilation.run journal = (.error fault, after)

theorem fails_of_error {x : Except (Fault S I) α} (error : x = .error fault) :
    Fails (liftM x : Compilation S I α) fault := by
  subst error
  exact fun journal => ⟨journal, rfl⟩

theorem fails_throw : Fails (throw fault : Compilation S I α) fault :=
  fun journal => ⟨journal, rfl⟩

theorem fails_bind {compilation : Compilation S I α} (failed : compilation.Fails fault)
    (next : α → Compilation S I β) : (compilation >>= next).Fails fault := by
  intro journal
  obtain ⟨after, run⟩ := failed journal
  exact ⟨after, by rw [run_bind, run]⟩

theorem fails_later {compilation : Compilation S I α} {next : α → Compilation S I β}
    {mid : α → Prop} (first : compilation.Makes mid) (failed : ∀ a, mid a → (next a).Fails fault) :
    (compilation >>= next).Fails fault := by
  intro journal
  obtain ⟨a, between, run, holds⟩ := first journal
  obtain ⟨after, runNext⟩ := failed a holds between
  exact ⟨after, by rw [run_bind, run]; exact runNext⟩

theorem fails_mapM {f : α → Compilation S I β} {earlier later : List α} {a : α}
    {post : α → β → Prop} (fine : ∀ b ∈ earlier, (f b).Makes (post b))
    (failed : (f a).Fails fault) : ((earlier ++ a :: later).mapM f).Fails fault := by
  induction earlier with
  | nil =>
    rw [List.nil_append, List.mapM_cons]
    exact fails_bind failed _
  | cons b earlier ih =>
    have others := ih fun other member => fine other (List.mem_cons_of_mem b member)
    rw [List.cons_append, List.mapM_cons]
    exact fails_later (fine b List.mem_cons_self) fun _ _ => fails_bind others _

theorem fault_of_fails {compilation : Compilation S I α} (failed : compilation.Fails fault)
    {other : Fault S I} {journal after : Journal}
    (run : compilation.run journal = (.error other, after)) : other = fault := by
  obtain ⟨_, again⟩ := failed journal
  rw [run, Prod.mk.injEq, Except.error.injEq] at again
  exact again.1

end Compilation
end Statechart
