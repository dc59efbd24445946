import Mathlib.Data.List.Induction
import Mathlib.Data.List.Nodup
import Std.Data.HashMap

/-!
Indexes. A hash map stands beside a list and tells where each of its keys stands; such indexes grow
with their lists. An index filled in one go finds the last of several elements with one key.
-/
namespace Statechart

variable {α β γ : Type} [BEq α] [LawfulBEq α]

theorem find?_of_distinct (keyOf : γ → α) {elements : List γ}
    (distinct : (elements.map keyOf).Nodup) {e : γ} (member : e ∈ elements) :
    elements.find? (fun other => keyOf other == keyOf e) = some e := by
  cases found : elements.find? fun other => keyOf other == keyOf e with
  | none =>
    have := List.find?_eq_none.mp found e member
    simp at this
  | some other =>
    have among := List.mem_of_find?_eq_some found
    have same : keyOf other = keyOf e := by simpa using List.find?_some found
    rw [List.inj_on_of_nodup_map distinct among member same]

theorem filter_of_distinct (keyOf : γ → α) {elements : List γ}
    (distinct : (elements.map keyOf).Nodup) {e : γ} (member : e ∈ elements) :
    elements.filter (fun other => keyOf other == keyOf e) = [e] := by
  induction elements with
  | nil => cases member
  | cons first rest ih =>
    rw [List.map_cons, List.nodup_cons] at distinct
    have apart : ∀ other ∈ rest, keyOf other ≠ keyOf first := fun other among same =>
      distinct.1 (List.mem_map.mpr ⟨other, among, same⟩)
    rcases List.mem_cons.mp member with same | later
    · subst same
      have none : rest.filter (fun other => keyOf other == keyOf e) = [] := by
        apply List.filter_eq_nil_iff.mpr
        intro other among
        simpa using apart other among
      simp [none]
    · have differ : (keyOf first == keyOf e) = false :=
        beq_eq_false_iff_ne.mpr fun same => apart e later same.symm
      rw [List.filter_cons, differ]
      exact ih distinct.2 later

omit [BEq α] [LawfulBEq α] in
theorem getElem?_modify_at {elements : Array α} {k : Nat} {a : α} (here : elements[k]? = some a)
    (change : α → α) (j : Nat) :
    (elements.modify k change)[j]? = if k = j then some (change a) else elements[j]? := by
  rw [Array.getElem?_modify]
  split
  · rename_i own
    subst own
    rw [here]
    rfl
  · rfl

omit [BEq α] [LawfulBEq α] in
theorem modify_mapped {h : α → β} {change : α → α} {other : β → β}
    (each : ∀ a, h (change a) = other (h a)) (elements : Array α) (k : Nat) :
    (elements.modify k change).map h = (elements.map h).modify k other := by
  apply Array.ext_getElem?
  intro j
  simp only [Array.getElem?_map, Array.getElem?_modify]
  split
  · simp only [Option.map_map]
    congr 1
    funext a
    exact each a
  · rfl

variable [Hashable α]

/-- The index finds exactly the keys of the list, at their places. -/
def Points (index : Std.HashMap α Nat) (keys : List α) : Prop :=
  ∀ (key : α) (k : Nat), index[key]? = some k ↔ keys[k]? = some key

namespace Points

variable {index : Std.HashMap α Nat} {keys : List α}

theorem nil : Points ({} : Std.HashMap α Nat) [] := by
  intro key k
  simp

theorem insert (points : Points index keys) {key : α} (fresh : key ∉ keys) :
    Points (index.insert key keys.length) (keys ++ [key]) := by
  intro other k
  rw [Std.HashMap.getElem?_insert]
  by_cases own : key = other
  · subst own
    simp only [beq_self_eq_true, if_true, Option.some.injEq]
    constructor
    · intro last
      simp [← last]
    · intro here
      by_cases bound : k < keys.length
      · rw [List.getElem?_append_left bound] at here
        exact absurd (List.mem_of_getElem? here) fresh
      · have := (List.getElem?_eq_some_iff.mp here).1
        rw [List.length_append, List.length_singleton] at this
        omega
  · rw [if_neg (by simpa using own), points other k]
    by_cases bound : k < keys.length
    · rw [List.getElem?_append_left bound]
    · rw [List.getElem?_append_right (by omega), List.getElem?_eq_none (by omega)]
      constructor
      · intro here
        cases here
      · intro here
        have := List.mem_of_getElem? here
        exact absurd (List.mem_singleton.mp this).symm own

omit [LawfulBEq α] in
theorem mem_iff (points : Points index keys) {key : α} :
    key ∈ keys ↔ ∃ k, index[key]? = some k := by
  simp only [points key, List.mem_iff_getElem?]

omit [LawfulBEq α] in
theorem fresh_iff (points : Points index keys) {key : α} :
    key ∉ keys ↔ index[key]? = none := by
  rw [points.mem_iff]
  cases index[key]? <;> simp

omit [LawfulBEq α] in
theorem nodup (points : Points index keys) : keys.Nodup := by
  rw [List.nodup_iff_getElem?_ne_getElem?]
  intro i j less bound same
  have first := (points keys[j] i).mpr (same.trans (List.getElem?_eq_getElem bound))
  have second := (points keys[j] j).mpr (List.getElem?_eq_getElem bound)
  rw [first, Option.some.injEq] at second
  omega

end Points

theorem getElem?_foldl_insert (keyOf : γ → α) (valueOf : γ → β) (elements : List γ)
    (index : Std.HashMap α β) (key : α) :
    (elements.foldl (fun index e => index.insert (keyOf e) (valueOf e)) index)[key]?
      = ((elements.reverse.find? fun e => keyOf e == key).map valueOf).or index[key]? := by
  induction elements generalizing index with
  | nil => rfl
  | cons e elements ih =>
    rw [List.foldl_cons, ih, List.reverse_cons, List.find?_append, Std.HashMap.getElem?_insert]
    cases elements.reverse.find? fun e => keyOf e == key with
    | some found => rfl
    | none =>
      by_cases own : keyOf e = key
      · simp [own]
      · simp [own]

theorem getElem?_foldl_insert_of_mem (keyOf : γ → α) (valueOf : γ → β) {elements : List γ}
    (distinct : (elements.map keyOf).Nodup) {e : γ} (member : e ∈ elements) :
    (elements.foldl (fun index e => index.insert (keyOf e) (valueOf e))
      ({} : Std.HashMap α β))[keyOf e]? = some (valueOf e) := by
  have reversed : (elements.reverse.map keyOf).Nodup := by
    rw [List.map_reverse]
    exact List.nodup_reverse.mpr distinct
  rw [getElem?_foldl_insert, find?_of_distinct keyOf reversed (List.mem_reverse.mpr member)]
  rfl

def indexOf {α : Type} [BEq α] [Hashable α] (keys : List α) : Std.HashMap α Nat :=
  keys.zipIdx.foldl (fun index (key, place) => index.insert key place) {}

omit [LawfulBEq α] in
theorem indexOf_append (keys : List α) (key : α) :
    indexOf (keys ++ [key]) = (indexOf keys).insert key keys.length := by
  simp [indexOf, List.zipIdx_append]

theorem points_indexOf {keys : List α} (distinct : keys.Nodup) : Points (indexOf keys) keys := by
  induction keys using List.reverseRecOn with
  | nil => exact .nil
  | append_singleton keys key ih =>
    rw [List.nodup_append', List.disjoint_singleton] at distinct
    rw [indexOf_append]
    exact (ih distinct.1).insert distinct.2.2

omit [LawfulBEq α] in
theorem getElem?_of_points [BEq β] [LawfulBEq β] [Hashable β] {h : α → β}
    (injective : Function.Injective h) {index : Std.HashMap α Nat} {keys : List α}
    (points : Points index keys) (key : α) : (indexOf (keys.map h))[h key]? = index[key]? := by
  apply Option.ext
  intro k
  rw [points_indexOf (points.nodup.map injective), points, List.getElem?_map,
    Option.map_eq_some_iff]
  constructor
  · rintro ⟨other, here, same⟩
    rw [here, injective same]
  · exact fun here => ⟨key, here, rfl⟩

end Statechart
