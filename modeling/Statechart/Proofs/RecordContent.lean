import Mathlib.Data.List.Perm.Basic
import Mathlib.Data.Option.Basic
import Statechart.Proofs.Records

/-!
The content of records. A record may be written with its fields in another order, with members of
unknown names, and with or without an optional field that is null. What is read from its fields
depends on none of this. Main result: `read_alike`.
-/
namespace Statechart.Json

/-- A field of a record, with the values that count as alike in it. An optional field may be left
out instead of being null. -/
structure Field where
  name : String
  alike : Json → Json → Prop
  optional : Bool

/-- One change to the writing of a record that leaves its content as it is. An array that ends early
leaves out the fields behind its end. -/
inductive Rewritten (fields : List Field) : Json → Json → Prop
  | reordered {members others : List (JsonText × Json)} (perm : members.Perm others) :
    Rewritten fields (.object members) (.object others)
  | unknown {key : String} (value : Json) {members : List (JsonText × Json)}
    (unknown : key ∉ fields.map Field.name) :
    Rewritten fields (.object members) (.object ((some key, value) :: members))
  | omitted {field : Field} {members : List (JsonText × Json)} (among : field ∈ fields)
    (optional : field.optional) (absent : some field.name ∉ members.map Prod.fst) :
    Rewritten fields (.object members) (.object ((some field.name, .null) :: members))
  | member {field : Field} {value other : Json} {before after : List (JsonText × Json)}
    (among : field ∈ fields) (alike : field.alike value other) :
    Rewritten fields (.object (before ++ (some field.name, value) :: after))
      (.object (before ++ (some field.name, other) :: after))
  | item {field : Field} {value other : Json} {before after : List Json}
    (place : fields[before.length]? = some field) (alike : field.alike value other) :
    Rewritten fields (.array (before ++ value :: after)) (.array (before ++ other :: after))
  | ended {field : Field} {before : List Json} (place : fields[before.length]? = some field)
    (optional : field.optional) :
    Rewritten fields (.array before) (.array (before ++ [.null]))

def Alike (fields : List Field) : Json → Json → Prop := Relation.EqvGen (Rewritten fields)

inductive ListAlike (alike : Json → Json → Prop) : Json → Json → Prop
  | items {items others : List Json} (each : List.Forall₂ alike items others) :
    ListAlike alike (.array items) (.array others)
  | same (document : Json) : ListAlike alike document document

inductive Field.Agrees (field : Field) : Option Json → Option Json → Prop
  | same (value : Option Json) : field.Agrees value value
  | alike {value other : Json} (alike : field.alike value other) :
    field.Agrees (some value) (some other)
  | omitted (optional : field.optional) : field.Agrees none (some .null)

inductive Agreeing : List Field → List (Option Json) → List (Option Json) → Prop
  | nil : Agreeing [] [] []
  | cons {field : Field} {value other : Option Json} {fields : List Field}
    {values others : List (Option Json)} (first : field.Agrees value other)
    (behind : Agreeing fields values others) :
    Agreeing (field :: fields) (value :: values) (other :: others)

variable {α : Type} {fields : List Field} {field : Field}

theorem agreeing_refl {values : List (Option Json)} (matched : values.length = fields.length) :
    Agreeing fields values values := by
  induction fields generalizing values with
  | nil =>
    rw [List.length_nil, List.length_eq_zero_iff] at matched
    subst matched
    exact .nil
  | cons field fields ih =>
    obtain ⟨value, values, rfl⟩ := List.exists_cons_of_length_eq_add_one matched
    exact .cons (.same value) (ih (Nat.succ.inj matched))

theorem agreeing_at {before after : List (Option Json)} {value other : Option Json}
    (place : fields[before.length]? = some field) (agrees : field.Agrees value other)
    (matched : (before ++ value :: after).length = fields.length) :
    Agreeing fields (before ++ value :: after) (before ++ other :: after) := by
  induction before generalizing fields with
  | nil =>
    obtain ⟨first, behind, rfl⟩ := List.exists_cons_of_length_eq_add_one matched.symm
    obtain rfl := Option.some.inj place
    exact .cons agrees (agreeing_refl (Nat.succ.inj matched))
  | cons earlier before ih =>
    obtain ⟨first, behind, rfl⟩ := List.exists_cons_of_length_eq_add_one matched.symm
    exact .cons (.same earlier) (ih place (Nat.succ.inj matched))

variable {members others : List (String × Json)}

theorem fields_agree (each : ∀ field ∈ fields,
      Option.Rel field.Agrees (field? members field.name) (field? others field.name)) :
    Option.Rel (Agreeing fields) ((fields.map Field.name).mapM (field? members))
      ((fields.map Field.name).mapM (field? others)) := by
  induction fields with
  | nil => exact .some .nil
  | cons field fields ih =>
    rw [List.forall_mem_cons] at each
    have first := each.1
    have behind := ih each.2
    rw [List.map_cons, List.mapM_cons, List.mapM_cons]
    generalize field? members field.name = value, field? others field.name = other at first
    generalize (fields.map Field.name).mapM (field? members) = values,
      (fields.map Field.name).mapM (field? others) = rest at behind
    cases first with
    | none => exact .none
    | some first =>
      cases behind with
      | none => exact .none
      | some behind => exact .some (.cons first behind)

theorem agrees_refl (found : Option (Option Json)) : Option.Rel field.Agrees found found := by
  cases found with
  | none => exact .none
  | some value => exact .some (.same value)

theorem field_perm (perm : members.Perm others) (name : String) :
    field? members name = field? others name := by
  have named : (membersNamed name members).Perm (membersNamed name others) := perm.filterMap _
  unfold field?
  generalize membersNamed name members = values, membersNamed name others = rest at named
  match values, named with
  | [], named => rw [named.nil_eq]
  | [value], named => rw [List.singleton_perm.mp named]
  | _ :: _ :: _, named =>
    have matched := named.length_eq
    match rest, matched with
    | _ :: _ :: _, _ => rfl

theorem field_of_other {key name : String} (differ : key ≠ name) (value : Json) :
    field? ((key, value) :: members) name = field? members name := by
  have named : membersNamed name ((key, value) :: members) = membersNamed name members := by
    simp [membersNamed, differ]
  rw [field?, field?, named]

theorem field_omitted (absent : field.name ∉ members.map Prod.fst) (optional : field.optional) :
    Option.Rel field.Agrees (field? members field.name)
      (field? ((field.name, .null) :: members) field.name) := by
  have named := membersNamed_of_absent absent
  have alone : membersNamed field.name ((field.name, .null) :: members) = [.null] := by
    simpa [membersNamed] using named
  rw [field?, field?, named, alone]
  exact .some (.omitted optional)

theorem field_changed {other : Field} {before after : List (String × Json)} {value changed : Json}
    (own : field.name = other.name → field = other) (alike : other.alike value changed) :
    Option.Rel field.Agrees (field? (before ++ (other.name, value) :: after) field.name)
      (field? (before ++ (other.name, changed) :: after) field.name) := by
  by_cases same : field.name = other.name
  · obtain rfl := own same
    have split (value : Json) : membersNamed field.name (before ++ (field.name, value) :: after)
        = membersNamed field.name before ++ value :: membersNamed field.name after := by
      simp [membersNamed]
    rw [field?, field?, split, split]
    cases membersNamed field.name before with
    | nil =>
      cases membersNamed field.name after with
      | nil => exact .some (.alike alike)
      | cons => exact .none
    | cons first rest => cases rest <;> exact .none
  · have skipped (value : Json) : membersNamed field.name (before ++ (other.name, value) :: after)
        = membersNamed field.name before ++ membersNamed field.name after := by
      simp [membersNamed, Ne.symm same]
    rw [field?, field?, skipped, skipped]
    exact agrees_refl _

theorem namedMembers_iff {members : List (JsonText × Json)} {named : List (String × Json)} :
    namedMembers? members = some named ↔
      members = named.map fun member => (some member.1, member.2) := by
  rw [namedMembers?, mapM_some_iff]
  constructor
  · intro each
    induction each with
    | nil => rfl
    | cons first _ ih =>
      obtain ⟨name, known, rfl⟩ := Option.map_eq_some_iff.mp first
      rw [List.map_cons, ← ih, ← known]
  · rintro rfl
    rw [List.forall₂_map_left_iff, List.forall₂_same]
    exact fun member _ => rfl

theorem mapM_perm {β : Type} {f : α → Option β} {as bs : List α} (perm : as.Perm bs) :
    Option.Rel List.Perm (as.mapM f) (bs.mapM f) := by
  have follows {as bs : List α} (perm : as.Perm bs) {cs : List β} (read : as.mapM f = some cs) :
      ∃ ds, bs.mapM f = some ds ∧ cs.Perm ds := by
    obtain ⟨ds, each, same⟩ := List.perm_comp_forall₂ perm.symm (mapM_some_iff.mp read)
    exact ⟨ds, mapM_some_iff.mpr each, same.symm⟩
  cases read : as.mapM f with
  | some cs =>
    obtain ⟨ds, found, same⟩ := follows perm read
    rw [found]
    exact .some same
  | none =>
    cases found : bs.mapM f with
    | none => exact .none
    | some ds =>
      obtain ⟨cs, again, _⟩ := follows perm.symm found
      rw [read] at again
      cases again

theorem named_cons (key : String) (value : Json) (members : List (JsonText × Json)) :
    namedMembers? ((some key, value) :: members)
      = (namedMembers? members).map ((key, value) :: ·) := by
  rw [namedMembers?, List.mapM_cons]
  change (namedMembers? members >>= fun named => some ((key, value) :: named)) = _
  cases namedMembers? members <;> rfl

theorem named_split (key : String) (value : Json) (before after : List (JsonText × Json)) :
    namedMembers? (before ++ (some key, value) :: after)
      = (namedMembers? before).bind fun earlier => (namedMembers? after).map fun later =>
        earlier ++ (key, value) :: later := by
  rw [namedMembers?, List.mapM_append]
  change ((namedMembers? before).bind fun earlier =>
    (namedMembers? ((some key, value) :: after)).bind fun later => some (earlier ++ later)) = _
  rw [named_cons]
  cases namedMembers? before <;> cases namedMembers? after <;> rfl

def Matching (fields : List Field) (document counterpart : Json) : Prop :=
  Option.Rel (Agreeing fields) (document.fields? (fields.map Field.name))
    (counterpart.fields? (fields.map Field.name))

theorem cases_of_match {document counterpart : Json}
    (same : Matching fields document counterpart) :
    (document.fields? (fields.map Field.name) = none ∧
      counterpart.fields? (fields.map Field.name) = none) ∨
    ∃ values others, document.fields? (fields.map Field.name) = some values ∧
      counterpart.fields? (fields.map Field.name) = some others ∧
      Agreeing fields values others := by
  rw [Matching] at same
  generalize document.fields? (fields.map Field.name) = found,
    counterpart.fields? (fields.map Field.name) = other at same
  cases same with
  | none => exact Or.inl ⟨rfl, rfl⟩
  | some agreeing => exact Or.inr ⟨_, _, rfl, rfl, agreeing⟩

theorem reordered_match {members others : List (JsonText × Json)} (perm : members.Perm others) :
    Matching fields (.object members) (.object others) := by
  have named : Option.Rel List.Perm (namedMembers? members) (namedMembers? others) := mapM_perm perm
  rw [Matching, fields?, fields?]
  generalize namedMembers? members = names, namedMembers? others = counterparts at named
  cases named with
  | none => exact .none
  | some same =>
    apply fields_agree
    intro field _
    rw [field_perm same]
    exact agrees_refl _

theorem longer_match {key : String} {value : Json} {members : List (JsonText × Json)}
    (each : ∀ named, namedMembers? members = some named → ∀ field ∈ fields,
      Option.Rel field.Agrees (field? named field.name)
        (field? ((key, value) :: named) field.name)) :
    Matching fields (.object members) (.object ((some key, value) :: members)) := by
  rw [Matching, fields?, fields?, named_cons]
  cases found : namedMembers? members with
  | none => exact .none
  | some named => exact fields_agree (each named found)

theorem unknown_match {key : String} (value : Json) {members : List (JsonText × Json)}
    (unknown : key ∉ fields.map Field.name) :
    Matching fields (.object members) (.object ((some key, value) :: members)) := by
  apply longer_match
  intro named _ field among
  have differ : key ≠ field.name := by
    rintro rfl
    exact unknown (List.mem_map_of_mem among)
  rw [field_of_other differ]
  exact agrees_refl _

theorem omitted_match (distinct : (fields.map Field.name).Nodup) (among : field ∈ fields)
    (optional : field.optional) {members : List (JsonText × Json)}
    (absent : some field.name ∉ members.map Prod.fst) :
    Matching fields (.object members) (.object ((some field.name, .null) :: members)) := by
  apply longer_match
  intro named found other known
  by_cases same : field.name = other.name
  · obtain rfl := List.inj_on_of_nodup_map distinct among known same
    have missing : field.name ∉ named.map Prod.fst := by
      rw [namedMembers_iff.mp found] at absent
      simpa using absent
    exact field_omitted missing optional
  · rw [field_of_other same]
    exact agrees_refl _

theorem changed_match (distinct : (fields.map Field.name).Nodup) (among : field ∈ fields)
    {value other : Json} (alike : field.alike value other)
    (before after : List (JsonText × Json)) :
    Matching fields (.object (before ++ (some field.name, value) :: after))
      (.object (before ++ (some field.name, other) :: after)) := by
  rw [Matching, fields?, fields?, named_split, named_split]
  cases namedMembers? before with
  | none => exact .none
  | some earlier =>
    cases namedMembers? after with
    | none => exact .none
    | some later =>
      apply fields_agree
      intro asked known
      exact field_changed (List.inj_on_of_nodup_map distinct known among) alike

theorem item_match {before : List Json} (place : fields[before.length]? = some field)
    {value other : Json} (alike : field.alike value other) (after : List Json) :
    Matching fields (.array (before ++ value :: after)) (.array (before ++ other :: after)) := by
  have matched : (before ++ other :: after).length = (before ++ value :: after).length := by simp
  rw [Matching, fields?, fields?, matched, List.length_map]
  by_cases short : (before ++ value :: after).length ≤ fields.length
  · have split (value : Json) (missing : List (Option Json)) :
        (before ++ value :: after).map some ++ missing
          = before.map some ++ some value :: (after.map some ++ missing) := by
      simp
    rw [if_pos short, if_pos short, split, split]
    refine .some (agreeing_at (by simpa using place) (.alike alike) ?_)
    simp only [List.length_append, List.length_cons, List.length_map, List.length_replicate]
      at short ⊢
    omega
  · rw [if_neg short, if_neg short]
    exact .none

theorem ended_match {before : List Json} (place : fields[before.length]? = some field)
    (optional : field.optional) :
    Matching fields (.array before) (.array (before ++ [.null])) := by
  obtain ⟨short, _⟩ := List.getElem?_eq_some_iff.mp place
  obtain ⟨missing, count⟩ : ∃ missing, fields.length = before.length + (missing + 1) :=
    ⟨fields.length - before.length - 1, by omega⟩
  have longer : (before ++ [Json.null]).length = before.length + 1 := List.length_append
  have room : before.length ≤ fields.length := by omega
  have space : before.length + 1 ≤ fields.length := by omega
  have behind : fields.length - before.length = missing + 1 := by omega
  have fewer : fields.length - (before.length + 1) = missing := by omega
  rw [Matching, fields?, fields?, List.length_map, longer, if_pos room, if_pos space, fewer, behind,
    List.replicate_succ, List.map_append, List.append_assoc]
  refine .some (agreeing_at (by simpa using place) (.omitted optional) ?_)
  simp [count]

theorem rewritten_match (distinct : (fields.map Field.name).Nodup) {document counterpart : Json}
    (step : Rewritten fields document counterpart) : Matching fields document counterpart := by
  cases step with
  | reordered perm => exact reordered_match perm
  | unknown value unknown => exact unknown_match value unknown
  | omitted among optional absent => exact omitted_match distinct among optional absent
  | member among alike => exact changed_match distinct among alike _ _
  | item place alike => exact item_match place alike _
  | ended place optional => exact ended_match place optional

theorem read_alike {read : Json → Option α} {names : List String}
    (named : fields.map Field.name = names) (distinct : names.Nodup)
    (unread : ∀ {document : Json}, document.fields? names = none → read document = none)
    (respects : ∀ {document counterpart : Json} {values others : List (Option Json)},
      document.fields? names = some values → counterpart.fields? names = some others →
      Agreeing fields values others → read document = read counterpart)
    {document counterpart : Json} (alike : Alike fields document counterpart) :
    read document = read counterpart := by
  subst named
  induction alike with
  | rel document counterpart step =>
    rcases cases_of_match (rewritten_match distinct step) with
      ⟨found, other⟩ | ⟨values, others, found, other, agreeing⟩
    · rw [unread found, unread other]
    · exact respects found other agreeing
  | refl => rfl
  | symm _ _ _ ih => exact ih.symm
  | trans _ _ _ _ _ first second => exact first.trans second

theorem list_alike {alike : Json → Json → Prop} {read : Json → Option α}
    (respects : ∀ ⦃document counterpart : Json⦄, alike document counterpart →
      read document = read counterpart)
    {document counterpart : Json} (same : ListAlike alike document counterpart) :
    document.list? read = counterpart.list? read := by
  cases same with
  | same => rfl
  | items each =>
    rw [list?, list?]
    induction each with
    | nil => rfl
    | cons first _ ih => rw [List.mapM_cons, List.mapM_cons, respects first, ih]

theorem Field.Agrees.required {value other : Option Json} (agrees : field.Agrees value other)
    (required : field.optional = false) {read : Json → Option α}
    (respects : ∀ ⦃document counterpart : Json⦄, field.alike document counterpart →
      read document = read counterpart) :
    value.bind read = other.bind read := by
  cases agrees with
  | same => rfl
  | alike alike => exact respects alike
  | omitted optional =>
    rw [required] at optional
    cases optional

theorem Field.Agrees.label {value other : Option Json} (agrees : field.Agrees value other)
    (exact_alike : field.alike = Eq) : optionalText? value = optionalText? other := by
  cases agrees with
  | same => rfl
  | alike alike =>
    rw [exact_alike] at alike
    rw [alike]
  | omitted => rfl

end Statechart.Json
