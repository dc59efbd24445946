/-!
Mapping a list by a function that may fail, from the last element to the first.
-/
namespace Statechart

/-- Applies a function to the last element first, so that of several failures the last one shows. -/
def mapFromLast {α β ε : Type} (f : α → Except ε β) : List α → Except ε (List β)
  | [] => .ok []
  | a :: rest => do
    let mapped ← mapFromLast f rest
    let b ← f a
    return b :: mapped

theorem mapFromLast_cons {α β ε : Type} {f : α → Except ε β} {a : α} {rest : List α}
    {bs : List β} (mapped : mapFromLast f (a :: rest) = .ok bs) :
    ∃ b tail, f a = .ok b ∧ mapFromLast f rest = .ok tail ∧ bs = b :: tail := by
  unfold mapFromLast at mapped
  cases below : mapFromLast f rest with
  | error => simp [below, bind, Except.bind] at mapped
  | ok tail =>
    cases head : f a with
    | error => simp [below, head, bind, Except.bind] at mapped
    | ok b =>
      simp only [below, head, bind, Except.bind, pure, Except.pure, Except.ok.injEq] at mapped
      exact ⟨b, tail, rfl, rfl, mapped.symm⟩

theorem length_of_mapFromLast {α β ε : Type} {f : α → Except ε β} {as : List α} {bs : List β}
    (mapped : mapFromLast f as = .ok bs) : bs.length = as.length := by
  induction as generalizing bs with
  | nil =>
    cases mapped
    rfl
  | cons a rest ih =>
    obtain ⟨b, tail, _, below, rfl⟩ := mapFromLast_cons mapped
    simp [ih below]

theorem image_of_mapFromLast {α β ε : Type} {f : α → Except ε β} {as : List α} {bs : List β}
    (mapped : mapFromLast f as = .ok bs) {b : β} (member : b ∈ bs) : ∃ a ∈ as, f a = .ok b := by
  induction as generalizing bs with
  | nil =>
    cases mapped
    cases member
  | cons a rest ih =>
    obtain ⟨head, tail, here, below, rfl⟩ := mapFromLast_cons mapped
    cases member with
    | head => exact ⟨a, List.mem_cons_self, here⟩
    | tail _ later =>
      obtain ⟨x, among, image⟩ := ih below later
      exact ⟨x, List.mem_cons_of_mem a among, image⟩

end Statechart
