import Statechart.Proofs.Documents
import Statechart.Proofs.Spelling

/-!
Indented texts. The indented text of a document spells the document, so it is read back as the
document it was written from.
-/
namespace Statechart.Json

open Token

inductive Plain : Json → Prop
  | null : Plain .null
  | bool (value : Bool) : Plain (.bool value)
  | natural (value : Nat) : Plain (.natural value)
  | string (text : JsonText) : Plain (.string text)
  | array {items : List Json} (items_plain : ∀ item ∈ items, Plain item) : Plain (.array items)
  | object {members : List (JsonText × Json)} (members_plain : ∀ member ∈ members, Plain member.2) :
    Plain (.object members)

theorem prettyChars_array (level : Nat) (item : Json) (items : List Json) :
    prettyChars level (.array (item :: items)) =
      '[' :: newline (level + 1) ++
        separate (newline (level + 1))
          (prettyChars (level + 1) item :: prettyItems (level + 1) items)
        ++ newline level ++ [']'] := rfl

theorem prettyChars_object (level : Nat) (key : JsonText) (value : Json)
    (members : List (JsonText × Json)) :
    prettyChars level (.object ((key, value) :: members)) =
      '\x7b' :: newline (level + 1) ++
        separate (newline (level + 1))
          ((quote key ++ ':' :: ' ' :: prettyChars (level + 1) value)
            :: prettyMembers (level + 1) members)
        ++ newline level ++ ['\x7d'] := rfl

theorem separate_cons (gap item : List Char) (items : List (List Char)) :
    separate gap (item :: items) = item ++ items.flatMap fun next => ',' :: gap ++ next := by
  induction items generalizing item with
  | nil => simp [separate]
  | cons next items ih => simp [separate, ih]

theorem newline_blank (level : Nat) : ∀ c ∈ newline level, isBlank c := by
  intro c member
  rcases List.mem_cons.mp member with rfl | space
  · rfl
  · rw [List.eq_of_mem_replicate space]
    rfl

theorem between_spelled {first close : List Char} {items : List (List Char)}
    {tokens more : List Token} {token : Token} {level : Nat} (first_spelled : Spelled tokens first)
    (more_spelled : Spelled more (items.flatMap fun next => ',' :: newline (level + 1) ++ next))
    (closes : Lexeme token close) :
    Spelled (tokens ++ (more ++ [token]))
      (newline (level + 1) ++ (separate (newline (level + 1)) (first :: items)
        ++ (newline level ++ close))) := by
  rw [separate_cons, List.append_assoc]
  exact .indented (newline_blank _) (.append first_spelled (.append more_spelled
    (.indented (newline_blank _) (.single closes))))

theorem member_spelled (key : JsonText) {chars : List Char} {tokens : List Token}
    (value_spelled : Spelled tokens chars) :
    Spelled (.string key :: .colon :: tokens) (quote key ++ ':' :: ' ' :: chars) :=
  .token (quote_lexeme key) (.token .colon (.blank rfl value_spelled))

theorem more_spelled {chars : List Char} {items : List (List Char)} {tokens more : List Token}
    {level : Nat} (item_spelled : Spelled tokens chars)
    (others_spelled : Spelled more (items.flatMap fun next => ',' :: newline level ++ next)) :
    Spelled (.comma :: (tokens ++ more))
      ((chars :: items).flatMap fun next => ',' :: newline level ++ next) := by
  rw [List.flatMap_cons, List.cons_append, List.cons_append, List.append_assoc]
  exact .token .comma (.indented (newline_blank _) (.append item_spelled others_spelled))

mutual

theorem pretty_spelled : ∀ (document : Json) (level : Nat), Plain document →
    Spelled (tokens document) (prettyChars level document)
  | .null, _, _ => .single .null
  | .bool true, _, _ => .single .true
  | .bool false, _, _ => .single .false
  | .natural n, _, _ => .single (natural_lexeme n)
  | .string text, _, _ => .single (quote_lexeme text)
  | .array [], _, _ => .token .openArray (.single .closeArray)
  | .array (item :: items), level, .array plain => by
    rw [List.forall_mem_cons] at plain
    rw [prettyChars_array, tokens]
    simp only [List.cons_append, List.append_assoc]
    exact .token .openArray (between_spelled (pretty_spelled item _ plain.1)
      (prettyItems_spelled items _ plain.2) .closeArray)
  | .object [], _, _ => .token .openObject (.single .closeObject)
  | .object ((key, value) :: members), level, .object plain => by
    rw [List.forall_mem_cons] at plain
    rw [prettyChars_object, tokens]
    simp only [List.cons_append, List.append_assoc]
    exact .token .openObject (between_spelled (member_spelled key (pretty_spelled value _ plain.1))
      (prettyMembers_spelled members _ plain.2) .closeObject)

theorem prettyItems_spelled : ∀ (items : List Json) (level : Nat), (∀ item ∈ items, Plain item) →
    Spelled (moreItems items)
      ((prettyItems level items).flatMap fun next => ',' :: newline level ++ next)
  | [], _, _ => .done
  | item :: items, level, plain => by
    rw [List.forall_mem_cons] at plain
    exact more_spelled (pretty_spelled item level plain.1) (prettyItems_spelled items level plain.2)

theorem prettyMembers_spelled : ∀ (members : List (JsonText × Json)) (level : Nat),
    (∀ member ∈ members, Plain member.2) →
    Spelled (moreMembers members)
      ((prettyMembers level members).flatMap fun next => ',' :: newline level ++ next)
  | [], _, _ => .done
  | (key, value) :: members, level, plain => by
    rw [List.forall_mem_cons] at plain
    exact more_spelled (member_spelled key (pretty_spelled value level plain.1))
      (prettyMembers_spelled members level plain.2)

end

theorem parse_pretty {document : Json} (plain : document.Plain) :
    parse? document.pretty = some document := by
  rw [parse_iff_spells, Spells, pretty, String.toList_ofList]
  exact pretty_spelled document 0 plain

end Statechart.Json
