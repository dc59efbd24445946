import Statechart.Proofs.Binding
import Statechart.Proofs.Sequencing

/-!
Attachments. An attachment is a hook with the action that it was bound to. Of a compilation that
does nothing to the journal but bind hooks it can be said which attachments it makes, in which
order, and how its result is made of them.
-/
namespace Statechart

structure Attachment where
  hook : Hook
  action : Action

namespace Attachment

def entries (attachments : List Attachment) : List Entry :=
  attachments.flatMap fun attachment => attachment.action.entries

theorem entries_append (attachments more : List Attachment) :
    entries (attachments ++ more) = entries attachments ++ entries more := List.flatMap_append

theorem entries_eq (attachments : List Attachment) :
    entries attachments = (attachments.map action).flatMap Action.entries := by
  rw [List.flatMap_map]
  rfl

/-- What is written down when the attachment is made: nothing for a fixed hook, and for a lazy one
the number that its action will write. -/
inductive Notes : Attachment → List Entry → Prop where
  | fixed (text : String) : Notes ⟨.fixed text, .write (.said text)⟩ []
  | lazy (counter : Nat) (text : String) (count : Nat) :
      Notes ⟨.lazy counter text, .write (.ran text count)⟩ [.bound text count]

theorem entries_of_notes {attachment : Attachment} {notes : List Entry}
    (noted : attachment.Notes notes) (text : String) (count : Nat) :
    .bound text count ∉ attachment.action.entries := by
  cases noted <;> simp [Action.entries]

end Attachment

/-- Binding the hooks one after the other, from the first journal, yields these very actions and
ends with the second journal. -/
def Attaches (before : Journal) (attachments : List Attachment) (after : Journal) : Prop :=
  Hook.bindAll (attachments.map Attachment.hook) before
    = (attachments.map Attachment.action, after)

namespace Hook

theorem bindAll_cons (hook : Hook) (hooks : List Hook) (journal : Journal) :
    bindAll (hook :: hooks) journal
      = ((hook.bind journal).1 :: (bindAll hooks (hook.bind journal).2).1,
        (bindAll hooks (hook.bind journal).2).2) := by
  unfold bindAll
  rw [List.mapM_cons]
  rfl

theorem bindAll_append (hooks more : List Hook) (journal : Journal) :
    bindAll (hooks ++ more) journal
      = ((bindAll hooks journal).1 ++ (bindAll more (bindAll hooks journal).2).1,
        (bindAll more (bindAll hooks journal).2).2) := by
  induction hooks generalizing journal with
  | nil => rfl
  | cons hook hooks ih => rw [List.cons_append, bindAll_cons, ih, bindAll_cons, List.cons_append]

theorem bind_notes (hook : Hook) (journal : Journal) : ∃ notes,
    Attachment.Notes ⟨hook, (hook.bind journal).1⟩ notes ∧
      (hook.bind journal).2.entries = journal.entries ++ notes.toArray := by
  cases hook with
  | fixed text => exact ⟨[], .fixed text, Array.append_empty.symm⟩
  | lazy counter text => exact ⟨_, .lazy counter text _, Array.push_eq_append⟩

end Hook

section Attaches

variable {before between after : Journal} {attachments more : List Attachment}

theorem attaches_nil (journal : Journal) : Attaches journal [] journal := rfl

theorem attaches_append (first : Attaches before attachments between)
    (second : Attaches between more after) : Attaches before (attachments ++ more) after := by
  unfold Attaches at first second ⊢
  rw [List.map_append, Hook.bindAll_append, first, second, List.map_append]

theorem attaches_bind (hook : Hook) (journal : Journal) :
    Attaches journal [⟨hook, (hook.bind journal).1⟩] (hook.bind journal).2 := rfl

theorem attaches_bindOption (hook : Option Hook) (journal : Journal) : ∃ attachments,
    Attaches journal attachments (Hook.bindOption hook journal).2 ∧
      attachments.map Attachment.hook = hook.toList ∧
      attachments.map Attachment.action = (Hook.bindOption hook journal).1.toList ∧
      Option.Rel Hook.Yields hook (Hook.bindOption hook journal).1 := by
  have yields := Hook.bindOption_yields hook journal
  cases hook with
  | none => exact ⟨[], attaches_nil journal, rfl, rfl, yields⟩
  | some hook => exact ⟨_, attaches_bind hook journal, rfl, rfl, yields⟩

theorem attaches_bindAll (hooks : List Hook) (journal : Journal) : ∃ attachments,
    Attaches journal attachments (Hook.bindAll hooks journal).2 ∧
      attachments.map Attachment.hook = hooks ∧
      attachments.map Attachment.action = (Hook.bindAll hooks journal).1 := by
  induction hooks generalizing journal with
  | nil => exact ⟨[], attaches_nil journal, rfl, rfl⟩
  | cons hook hooks ih =>
    obtain ⟨attachments, attaches, rfl, actions⟩ := ih (hook.bind journal).2
    rw [Hook.bindAll_cons]
    exact ⟨⟨hook, (hook.bind journal).1⟩ :: attachments,
      attaches_append (attaches_bind hook journal) attaches, rfl, congrArg _ actions⟩

theorem attaches_cons {attachment : Attachment}
    (attaches : Attaches before (attachment :: attachments) after) :
    attachment.action = (attachment.hook.bind before).1 ∧
      Attaches (attachment.hook.bind before).2 attachments after := by
  unfold Attaches at attaches ⊢
  rw [List.map_cons, Hook.bindAll_cons, List.map_cons, Prod.mk.injEq, List.cons.injEq] at attaches
  obtain ⟨⟨own, others⟩, last⟩ := attaches
  exact ⟨own.symm, Prod.ext others last⟩

theorem notes_of_attaches (attaches : Attaches before attachments after) : ∃ notes,
    List.Forall₂ Attachment.Notes attachments notes ∧
      after.entries = before.entries ++ notes.flatten.toArray := by
  induction attachments generalizing before with
  | nil =>
    cases attaches
    exact ⟨[], .nil, by simp⟩
  | cons attachment attachments ih =>
    obtain ⟨own, others⟩ := attaches_cons attaches
    obtain ⟨here, noted, written⟩ := attachment.hook.bind_notes before
    obtain ⟨notes, all, writtenLater⟩ := ih others
    rw [← own] at noted
    refine ⟨here :: notes, .cons noted all, ?_⟩
    rw [writtenLater, written]
    simp

end Attaches

namespace Compilation

variable {S I α β γ : Type}

/-- From every journal the compilation succeeds, and to the journal it does nothing but make
attachments. The condition holds of the result and of these attachments. -/
def Binds (compilation : Compilation S I α) (post : α → List Attachment → Prop) : Prop :=
  ∀ journal, ∃ a attachments after, compilation.run journal = (.ok a, after) ∧
    Attaches journal attachments after ∧ post a attachments

theorem binds_pure {a : α} {post : α → List Attachment → Prop} (holds : post a []) :
    Binds (pure a : Compilation S I α) post :=
  fun journal => ⟨a, [], journal, rfl, attaches_nil journal, holds⟩

theorem binds_bind {compilation : Compilation S I α} {next : α → Compilation S I β}
    {mid : α → List Attachment → Prop} {post : β → List Attachment → Prop}
    (first : compilation.Binds mid) (second : ∀ a attachments, mid a attachments →
      (next a).Binds fun b more => post b (attachments ++ more)) :
    (compilation >>= next).Binds post := by
  intro journal
  obtain ⟨a, attachments, between, run, attaches, holds⟩ := first journal
  obtain ⟨b, more, after, runNext, attachesNext, holdsNext⟩ := second a attachments holds between
  refine ⟨b, attachments ++ more, after, ?_, attaches_append attaches attachesNext, holdsNext⟩
  rw [run_bind, run]
  exact runNext

theorem binds_weaken {compilation : Compilation S I α} {mid post : α → List Attachment → Prop}
    (first : compilation.Binds mid)
    (weaker : ∀ a attachments, mid a attachments → post a attachments) :
    compilation.Binds post := by
  intro journal
  obtain ⟨a, attachments, after, run, attaches, holds⟩ := first journal
  exact ⟨a, attachments, after, run, attaches, weaker a attachments holds⟩

theorem makes_of_binds {compilation : Compilation S I α} {mid : α → List Attachment → Prop}
    {post : α → Prop} (binds : compilation.Binds mid)
    (weaker : ∀ a attachments, mid a attachments → post a) : compilation.Makes post := by
  intro journal
  obtain ⟨a, attachments, after, run, _, holds⟩ := binds journal
  exact ⟨a, after, run, weaker a attachments holds⟩

theorem binds_of_ok {x : Except (Fault S I) α} {a : α} (ok : x = .ok a) :
    Binds (liftM x : Compilation S I α) fun found attachments => a = found ∧ attachments = [] := by
  subst ok
  exact fun journal => ⟨a, [], journal, rfl, attaches_nil journal, rfl, rfl⟩

theorem binds_of_state {step : StateM Journal α} {post : α → List Attachment → Prop}
    (attaches : ∀ journal, ∃ attachments, Attaches journal attachments (step journal).2 ∧
      post (step journal).1 attachments) : Binds (liftM step : Compilation S I α) post := by
  intro journal
  obtain ⟨attachments, attached, holds⟩ := attaches journal
  exact ⟨(step journal).1, attachments, (step journal).2, rfl, attached, holds⟩

theorem binds_bindAll (hooks : List Hook) :
    Binds (liftM (Hook.bindAll hooks) : Compilation S I (List Action)) fun actions attachments =>
      attachments.map Attachment.hook = hooks ∧ attachments.map Attachment.action = actions ∧
        List.Forall₂ Hook.Yields hooks actions := by
  refine binds_of_state fun journal => ?_
  obtain ⟨attachments, attaches, named, actions⟩ := attaches_bindAll hooks journal
  exact ⟨attachments, attaches, named, actions, Hook.bindAll_yields hooks journal⟩

theorem binds_bindOption (hook : Option Hook) :
    Binds (liftM (Hook.bindOption hook) : Compilation S I (Option Action)) fun action attachments =>
      attachments.map Attachment.hook = hook.toList ∧
        attachments.map Attachment.action = action.toList ∧ Option.Rel Hook.Yields hook action :=
  binds_of_state (attaches_bindOption hook)

theorem binds_mapM_along {f : β → Compilation S I γ} {R : α → β → Prop}
    {P : α → γ → List Attachment → Prop} {as : List α} {bs : List β} (all : List.Forall₂ R as bs)
    (each : ∀ a ∈ as, ∀ b, R a b → (f b).Binds (P a)) :
    (bs.mapM f).Binds fun cs attachments => ∃ parts : List (γ × List Attachment),
      cs = parts.map Prod.fst ∧ attachments = parts.flatMap Prod.snd ∧
        List.Forall₂ (fun a part => P a part.1 part.2) as parts := by
  induction all with
  | nil => exact binds_pure ⟨[], rfl, rfl, .nil⟩
  | @cons a _ as _ here _ ih =>
    rw [List.mapM_cons]
    refine binds_bind (each a List.mem_cons_self _ here) fun c attachments first => ?_
    refine binds_bind (ih fun other member => each other (List.mem_cons_of_mem a member)) ?_
    rintro _ _ ⟨parts, rfl, rfl, others⟩
    exact binds_pure ⟨(c, attachments) :: parts, rfl, by simp, .cons first others⟩

theorem binds_mapM {f : α → Compilation S I γ} {P : α → γ → List Attachment → Prop} {as : List α}
    (each : ∀ a ∈ as, (f a).Binds (P a)) :
    (as.mapM f).Binds fun cs attachments => ∃ parts : List (γ × List Attachment),
      cs = parts.map Prod.fst ∧ attachments = parts.flatMap Prod.snd ∧
        List.Forall₂ (fun a part => P a part.1 part.2) as parts :=
  binds_mapM_along (List.forall₂_same.mpr fun _ _ => rfl)
    fun a member _ same => same ▸ each a member

end Compilation
end Statechart
