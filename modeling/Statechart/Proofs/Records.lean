import Mathlib.Data.List.Nodup
import Mathlib.Data.List.Forall2
import Statechart.Json.Record

/-!
Records in JSON documents. A field is found under its name wherever it stands, and a record written
with its fields in order is read back field by field.
-/
namespace Statechart.Json

variable {α β : Type}

theorem mapM_some_iff {f : α → Option β} {as : List α} {bs : List β} :
    as.mapM f = some bs ↔ List.Forall₂ (fun a b => f a = some b) as bs := by
  induction as generalizing bs with
  | nil => simp [eq_comm]
  | cons a as ih =>
    simp only [List.mapM_cons, Option.bind_eq_bind, Option.bind_eq_some_iff, ih, Option.pure_def,
      Option.some.injEq, List.forall₂_cons_left_iff]
    constructor
    · rintro ⟨b, first, rest, others, rfl⟩
      exact ⟨b, rest, first, others, rfl⟩
    · rintro ⟨b, rest, first, others, rfl⟩
      exact ⟨b, first, rest, others, rfl⟩

theorem mapM_of_written {read : β → Option α} {write : α → β} {as : List α}
    (each : ∀ a ∈ as, read (write a) = some a) : (as.map write).mapM read = some as := by
  rw [mapM_some_iff, List.forall₂_map_left_iff, List.forall₂_same]
  exact each

theorem membersNamed_of_absent {name : String} {members : List (String × Json)}
    (absent : name ∉ members.map Prod.fst) : membersNamed name members = [] := by
  rw [membersNamed, List.filterMap_eq_nil_iff]
  rintro ⟨other, value⟩ among
  have differ : other ≠ name := by
    rintro rfl
    exact absent (List.mem_map_of_mem among)
  simp [differ]

theorem field_of_mem {name : String} {value : Json} {members : List (String × Json)}
    (distinct : (members.map Prod.fst).Nodup) (among : (name, value) ∈ members) :
    field? members name = some (some value) := by
  have alone : membersNamed name members = [value] := by
    induction members with
    | nil => cases among
    | cons member members ih =>
      rw [List.map_cons, List.nodup_cons] at distinct
      rcases List.mem_cons.mp among with rfl | behind
      · have others := membersNamed_of_absent distinct.1
        simpa [membersNamed] using others
      · have differ : member.1 ≠ name := by
          rintro rfl
          exact distinct.1 (List.mem_map.mpr ⟨_, behind, rfl⟩)
        have others := ih distinct.2 behind
        simpa [membersNamed, differ] using others
  rw [field?, alone]

def record (names : List String) (values : List Json) : Json :=
  .object ((names.zip values).map fun member => (some member.1, member.2))

theorem fields_of_record {names : List String} {values : List Json} (distinct : names.Nodup)
    (matched : names.length = values.length) :
    (record names values).fields? names = some (values.map some) := by
  have named : namedMembers? ((names.zip values).map fun member => (some member.1, member.2))
      = some (names.zip values) := mapM_of_written fun _ _ => rfl
  have keys : (names.zip values).map Prod.fst = names := List.map_fst_zip (by omega)
  rw [record, fields?, named, Option.bind_eq_bind, Option.bind_some, mapM_some_iff,
    List.forall₂_map_right_iff, List.forall₂_iff_zip]
  refine ⟨matched, fun among => field_of_mem ?_ among⟩
  rwa [keys]

end Statechart.Json
