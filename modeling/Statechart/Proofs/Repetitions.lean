import Mathlib.Data.List.Nodup

/-!
Lists without their repetitions. Of every element the first occurrence is kept, so whatever has been
met before may be left out and put in at will.
-/
namespace Statechart

variable {α β : Type} [DecidableEq α]

@[elab_as_elim]
theorem eraseDups_induction {motive : List α → Prop} (nil : motive [])
    (cons : ∀ a rest, motive (rest.filter fun b => !b == a) → motive (a :: rest))
    (as : List α) : motive as := by
  induction size : as.length using Nat.strongRecOn generalizing as with
  | ind size ih =>
    cases as with
    | nil => exact nil
    | cons a rest =>
      have fewer : (rest.filter fun b => !b == a).length ≤ rest.length := List.length_filter_le _ _
      rw [List.length_cons] at size
      exact cons a rest (ih _ (by omega) _ rfl)

theorem length_eraseDups_le (as : List α) : as.eraseDups.length ≤ as.length := by
  induction as using eraseDups_induction with
  | nil => simp
  | cons a rest ih =>
    rw [List.eraseDups_cons, List.length_cons, List.length_cons]
    exact Nat.succ_le_succ (Nat.le_trans ih (List.length_filter_le _ _))

theorem nodup_eraseDups (as : List α) : as.eraseDups.Nodup := by
  induction as using eraseDups_induction with
  | nil => exact List.nodup_nil
  | cons a rest ih =>
    rw [List.eraseDups_cons, List.nodup_cons]
    exact ⟨by simp, ih⟩

theorem eraseDups_of_nodup {as : List α} (distinct : as.Nodup) : as.eraseDups = as := by
  induction as with
  | nil => rfl
  | cons a rest ih =>
    rw [List.nodup_cons] at distinct
    have others : rest.filter (fun b => !b == a) = rest := by
      refine List.filter_eq_self.mpr fun b member => ?_
      have differ : b ≠ a := fun same => distinct.1 (same ▸ member)
      simpa using differ
    rw [List.eraseDups_cons, others, ih distinct.2]

theorem eraseDups_concat {as : List α} {a : α} (fresh : a ∉ as) :
    (as ++ [a]).eraseDups = as.eraseDups ++ [a] := by
  rw [List.eraseDups_append]
  simp [List.removeAll, fresh, List.eraseDups_cons]

theorem eraseDups_eraseDups_append (as bs : List α) :
    (as.eraseDups ++ bs).eraseDups = (as ++ bs).eraseDups := by
  have same : bs.removeAll as.eraseDups = bs.removeAll as := by simp [List.removeAll]
  rw [List.eraseDups_append, List.eraseDups_append, same, eraseDups_of_nodup (nodup_eraseDups as)]

theorem eraseDups_skip {as bs : List α} (met : ∀ b ∈ bs, b ∈ as) (later : List α) :
    (as ++ bs ++ later).eraseDups = (as ++ later).eraseDups := by
  have none : bs.removeAll as = [] :=
    List.filter_eq_nil_iff.mpr fun b member => by simp [met b member]
  have rest : (bs ++ later).removeAll as = later.removeAll as := by
    unfold List.removeAll at none ⊢
    rw [List.filter_append, none, List.nil_append]
  rw [List.append_assoc, List.eraseDups_append, rest, ← List.eraseDups_append]

variable [DecidableEq β]

omit [DecidableEq α] in
theorem eraseDups_flatMap_filter {f : α → List β} {keep : α → Bool} {as : List α} {met : List β}
    (known : ∀ a ∈ as, keep a = false → ∀ b ∈ f a, b ∈ met) :
    (met ++ (as.filter keep).flatMap f).eraseDups = (met ++ as.flatMap f).eraseDups := by
  induction as generalizing met with
  | nil => rfl
  | cons a rest ih =>
    obtain ⟨here, others⟩ := List.forall_mem_cons.mp known
    cases kept : keep a with
    | false =>
      rw [List.filter_cons_of_neg (by simp [kept]), ih others, List.flatMap_cons,
        ← List.append_assoc, eraseDups_skip (here kept)]
    | true =>
      rw [List.filter_cons_of_pos kept, List.flatMap_cons, List.flatMap_cons, ← List.append_assoc,
        ← List.append_assoc]
      exact ih fun other member left b among =>
        List.mem_append_left _ (others other member left b among)

theorem eraseDups_flatMap_eraseDups (f : α → List β) (met : List β) (as : List α) :
    (met ++ as.eraseDups.flatMap f).eraseDups = (met ++ as.flatMap f).eraseDups := by
  induction as using eraseDups_induction generalizing met with
  | nil => rfl
  | cons a rest ih =>
    rw [List.eraseDups_cons, List.flatMap_cons, List.flatMap_cons, ← List.append_assoc,
      ← List.append_assoc, ih]
    refine eraseDups_flatMap_filter fun other _ same b among => ?_
    have same : other = a := by simpa using same
    exact List.mem_append_right met (same ▸ among)

end Statechart
