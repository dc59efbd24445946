import Statechart.Json.Reader
import Statechart.Proofs.Grammar

/-!
Documents and their tokens. A reader makes a document of exactly its tokens, and so a text is read
as a document if and only if the grammar lets it spell the document. Main result:
`parse_iff_spells`.
-/
namespace Statechart

namespace Json

mutual

def tokens : Json → List Token
  | .string text => [.string text]
  | .array [] => [.openArray, .closeArray]
  | .array (item :: items) => .openArray :: tokens item ++ moreItems items ++ [.closeArray]
  | .object [] => [.openObject, .closeObject]
  | .object ((key, value) :: members) =>
    .openObject :: .string key :: .colon :: tokens value ++ moreMembers members ++ [.closeObject]
  | document => [.scalar document]

def moreItems : List Json → List Token
  | [] => []
  | item :: items => .comma :: tokens item ++ moreItems items

def moreMembers : List (JsonText × Json) → List Token
  | [] => []
  | (key, value) :: members =>
    .comma :: .string key :: .colon :: tokens value ++ moreMembers members

end

namespace Reader

def run (reader : Reader) (tokens : List Token) : Option Reader := tokens.foldlM advance? reader

theorem run_cons {reader : Reader} {token : Token} {tokens : List Token} (next : Reader)
    (step : advance? reader token = some next) :
    reader.run (token :: tokens) = next.run tokens := by
  rw [run, List.foldlM_cons, step]
  rfl

theorem run_first_item (item : Json) (around : List Frame) (rest : List Token) :
    (arrayOpened around).run (tokens item ++ rest)
      = (value (.array [] :: around)).run (tokens item ++ rest) := by
  cases item with
  | array items => cases items <;> simp [tokens, run, advance?]
  | object members => cases members <;> simp [tokens, run, advance?]
  | _ => simp [tokens, run, advance?]

-- The three recursions follow the writing of tokens; what the frames around hold never matters.
mutual

theorem run_tokens : ∀ (document : Json) (around : List Frame) (rest : List Token),
    (value around).run (tokens document ++ rest) = (deliver document around).run rest
  | .null, _, _ => run_cons _ rfl
  | .bool _, _, _ => run_cons _ rfl
  | .natural _, _, _ => run_cons _ rfl
  | .number _, _, _ => run_cons _ rfl
  | .string _, _, _ => run_cons _ rfl
  | .array [], around, rest => by
    simp only [tokens, List.cons_append, List.nil_append]
    rw [run_cons (arrayOpened around) rfl, run_cons _ rfl]
  | .array (item :: items), around, rest => by
    simp only [tokens, List.cons_append, List.append_assoc, List.nil_append]
    rw [run_cons (arrayOpened around) rfl, run_first_item, run_tokens item, deliver,
      run_moreItems items, run_cons _ rfl]
    simp
  | .object [], around, rest => by
    simp only [tokens, List.cons_append, List.nil_append]
    rw [run_cons (objectOpened around) rfl, run_cons _ rfl]
  | .object ((name, member) :: members), around, rest => by
    simp only [tokens, List.cons_append, List.append_assoc, List.nil_append]
    rw [run_cons (objectOpened around) rfl, run_cons (colon [] name around) rfl,
      run_cons (value (.object [] name :: around)) rfl, run_tokens member, deliver,
      run_moreMembers members, run_cons _ rfl]
    simp

theorem run_moreItems : ∀ (items before : List Json) (around : List Frame) (rest : List Token),
    (itemRead before around).run (moreItems items ++ rest)
      = (itemRead (items.reverse ++ before) around).run rest
  | [], _, _, _ => rfl
  | item :: items, before, around, rest => by
    simp only [moreItems, List.cons_append, List.append_assoc]
    rw [run_cons (value (.array before :: around)) rfl, run_tokens item, deliver,
      run_moreItems items]
    simp

theorem run_moreMembers : ∀ (members before : List (JsonText × Json)) (around : List Frame)
    (rest : List Token),
    (memberRead before around).run (moreMembers members ++ rest)
      = (memberRead (members.reverse ++ before) around).run rest
  | [], _, _, _ => rfl
  | (name, member) :: members, before, around, rest => by
    simp only [moreMembers, List.cons_append, List.append_assoc]
    rw [run_cons (key before around) rfl, run_cons (colon before name around) rfl,
      run_cons (value (.object before name :: around)) rfl, run_tokens member, deliver,
      run_moreMembers members]
    simp

end

end Reader

theorem ofTokens_tokens (document : Json) : ofTokens? (tokens document) = some document := by
  have read := Reader.run_tokens document [] []
  rw [List.append_nil, Reader.run, Reader.run, List.foldlM_nil] at read
  rw [ofTokens?, read]
  rfl

namespace Reader

def itemTokens (item : Json) : List Token := tokens item ++ [.comma]

def memberTokens (member : JsonText × Json) : List Token :=
  .string member.1 :: .colon :: tokens member.2 ++ [.comma]

def frameTokens : Frame → List Token
  | .array before => .openArray :: before.reverse.flatMap itemTokens
  | .object before name =>
    .openObject :: before.reverse.flatMap memberTokens ++ [.string name, .colon]

def opened (around : List Frame) : List Token := around.reverse.flatMap frameTokens

/-- The tokens with which a reader comes from the start to where it stands. -/
inductive Took : Reader → List Token → Prop
  | value (around : List Frame) : Took (value around) (opened around)
  | arrayOpened (around : List Frame) : Took (arrayOpened around) (opened around ++ [.openArray])
  | itemRead (item : Json) (before : List Json) (around : List Frame) :
    Took (itemRead (item :: before) around) (opened (.array before :: around) ++ tokens item)
  | objectOpened (around : List Frame) : Took (objectOpened around) (opened around ++ [.openObject])
  | memberRead (name : JsonText) (member : Json) (before : List (JsonText × Json))
    (around : List Frame) :
    Took (memberRead ((name, member) :: before) around)
      (opened (.object before name :: around) ++ tokens member)
  | key (member : JsonText × Json) (before : List (JsonText × Json)) (around : List Frame) :
    Took (key (member :: before) around)
      (opened around ++ .openObject :: (member :: before).reverse.flatMap memberTokens)
  | colon (before : List (JsonText × Json)) (name : JsonText) (around : List Frame) :
    Took (colon before name around)
      (opened around ++ .openObject :: before.reverse.flatMap memberTokens ++ [.string name])
  | complete (document : Json) : Took (complete document) (tokens document)

theorem opened_cons (frame : Frame) (around : List Frame) :
    opened (frame :: around) = opened around ++ frameTokens frame := by
  simp [opened]

theorem moreItems_concat (first : Json) (items : List Json) (last : Json) :
    tokens first ++ moreItems (items ++ [last])
      = (first :: items).flatMap itemTokens ++ tokens last := by
  induction items generalizing first with
  | nil => simp [moreItems, itemTokens]
  | cons item items ih =>
    rw [List.cons_append, moreItems, List.cons_append, ih]
    simp [itemTokens]

theorem moreMembers_concat (first : JsonText × Json) (members : List (JsonText × Json))
    (last : JsonText × Json) :
    .string first.1 :: .colon :: tokens first.2 ++ moreMembers (members ++ [last])
      = (first :: members).flatMap memberTokens ++ .string last.1 :: .colon :: tokens last.2 := by
  induction members generalizing first with
  | nil => simp [moreMembers, memberTokens]
  | cons member members ih =>
    have further := ih member
    rw [List.flatMap_cons, List.append_assoc, ← further, memberTokens]
    simp [moreMembers]

theorem tokens_array_concat (before : List Json) (item : Json) :
    tokens (.array (before ++ [item]))
      = .openArray :: before.flatMap itemTokens ++ tokens item ++ [.closeArray] := by
  cases before with
  | nil => simp [tokens, moreItems]
  | cons first items =>
    rw [List.cons_append, tokens, List.cons_append, moreItems_concat]
    rfl

theorem tokens_object_concat (before : List (JsonText × Json)) (member : JsonText × Json) :
    tokens (.object (before ++ [member]))
      = .openObject :: before.flatMap memberTokens
        ++ .string member.1 :: .colon :: tokens member.2 ++ [.closeObject] := by
  cases before with
  | nil => simp [tokens, moreMembers]
  | cons first members =>
    have further := congrArg (· ++ [Token.closeObject]) (moreMembers_concat first members member)
    simpa [tokens] using further

theorem took_deliver (document : Json) (around : List Frame) :
    Took (deliver document around) (opened around ++ tokens document) := by
  cases around with
  | nil => exact .complete document
  | cons frame around =>
    cases frame with
    | array before => exact .itemRead document before around
    | object before name => exact .memberRead name document before around

def Alone (token : Token) : Prop :=
  ∀ document, token = .scalar document → tokens document = [token]

variable {reader next : Reader} {token : Token} {taken : List Token}

theorem took_begin {around : List Frame} (alone : Alone token)
    (begun : begin? around token = some next) : Took next (opened around ++ [token]) := by
  cases token with
  | openArray =>
    cases begun
    exact .arrayOpened around
  | openObject =>
    cases begun
    exact .objectOpened around
  | string text =>
    cases begun
    exact took_deliver (.string text) around
  | scalar document =>
    cases begun
    rw [← alone document rfl]
    exact took_deliver document around
  | _ => cases begun

theorem took_advance (took : Took reader taken) (alone : Alone token)
    (step : advance? reader token = some next) : Took next (taken ++ [token]) := by
  cases took with
  | value around => exact took_begin alone step
  | arrayOpened around =>
    by_cases closes : token = .closeArray
    · subst closes
      cases step
      rw [List.append_assoc]
      exact took_deliver (.array []) around
    · have begun : begin? (.array [] :: around) token = some next := by
        rw [← step]
        cases token <;> first | rfl | exact absurd rfl closes
      have took := took_begin alone begun
      simpa [opened_cons, frameTokens] using took
  | itemRead item before around =>
    cases token with
    | comma =>
      cases step
      have took := Took.value (.array (item :: before) :: around)
      simpa [opened_cons, frameTokens, itemTokens] using took
    | closeArray =>
      cases step
      have took := took_deliver (.array (item :: before).reverse) around
      rw [List.reverse_cons, tokens_array_concat] at took
      simpa [opened_cons, frameTokens] using took
    | _ => cases step
  | objectOpened around =>
    cases token with
    | closeObject =>
      cases step
      rw [List.append_assoc]
      exact took_deliver (.object []) around
    | string text =>
      cases step
      simpa using Took.colon [] text around
    | _ => cases step
  | memberRead name member before around =>
    cases token with
    | comma =>
      cases step
      have took := Took.key (name, member) before around
      simpa [opened_cons, frameTokens, memberTokens] using took
    | closeObject =>
      cases step
      have took := took_deliver (.object ((name, member) :: before).reverse) around
      rw [List.reverse_cons, tokens_object_concat] at took
      simpa [opened_cons, frameTokens] using took
    | _ => cases step
  | key member before around =>
    cases token with
    | string text =>
      cases step
      simpa using Took.colon (member :: before) text around
    | _ => cases step
  | colon before name around =>
    cases token with
    | colon =>
      cases step
      have took := Took.value (.object before name :: around)
      simpa [opened_cons, frameTokens] using took
    | _ => cases step
  | complete document => cases token <;> cases step

theorem took_run {tokens : List Token} (took : Took reader taken)
    (alone : ∀ token ∈ tokens, Alone token)
    (reached : reader.run tokens = some next) : Took next (taken ++ tokens) := by
  induction tokens generalizing reader taken with
  | nil =>
    cases reached
    simpa using took
  | cons token tokens ih =>
    rw [run, List.foldlM_cons, Option.bind_eq_bind, Option.bind_eq_some_iff] at reached
    obtain ⟨further, step, reached⟩ := reached
    rw [List.forall_mem_cons] at alone
    have took := took_advance took alone.1 step
    simpa using ih took alone.2 reached

end Reader

theorem tokens_of_ofTokens {tokens : List Token} {document : Json}
    (alone : ∀ token ∈ tokens, Reader.Alone token) (made : ofTokens? tokens = some document) :
    tokens = document.tokens := by
  obtain ⟨last, reached, complete⟩ := Option.bind_eq_some_iff.mp made
  have took := Reader.took_run (.value []) alone reached
  cases last with
  | complete =>
    cases complete
    generalize all : Reader.opened [] ++ tokens = taken at took
    cases took
    exact all
  | _ => cases complete

open Token

theorem alone_of_spelled {tokens : List Token} {cs : List Char} (spelled : Spelled tokens cs) :
    ∀ token ∈ tokens, Reader.Alone token := by
  induction spelled with
  | done => exact nofun
  | blank _ _ ih => exact ih
  | token lexeme _ ih =>
    rw [List.forall_mem_cons]
    refine ⟨?_, ih⟩
    rintro document rfl
    cases lexeme with
    | number number => cases number <;> rfl
    | _ => rfl

theorem apart_cons {token : Token} {tokens : List Token}
    (free : token.IsScalar → ∀ next ∈ tokens.head?, ¬ next.IsScalar) (apart : Apart tokens) :
    Apart (token :: tokens) :=
  List.isChain_cons.mpr ⟨fun next front is_scalar => free is_scalar next front, apart⟩

theorem head_moreItems (items : List Json) {rest : List Token}
    (free : ∀ next ∈ rest.head?, ¬ next.IsScalar) :
    ∀ next ∈ (moreItems items ++ rest).head?, ¬ next.IsScalar := by
  cases items with
  | nil => exact free
  | cons => simp [moreItems, IsScalar]

theorem head_moreMembers (members : List (JsonText × Json)) {rest : List Token}
    (free : ∀ next ∈ rest.head?, ¬ next.IsScalar) :
    ∀ next ∈ (moreMembers members ++ rest).head?, ¬ next.IsScalar := by
  cases members with
  | nil => exact free
  | cons => simp [moreMembers, IsScalar]

mutual

theorem tokens_apart : ∀ (document : Json) {rest : List Token}, Apart rest →
    (∀ next ∈ rest.head?, ¬ next.IsScalar) → Apart (tokens document ++ rest)
  | .null, _, apart, free => apart_cons (fun _ => free) apart
  | .bool _, _, apart, free => apart_cons (fun _ => free) apart
  | .natural _, _, apart, free => apart_cons (fun _ => free) apart
  | .number _, _, apart, free => apart_cons (fun _ => free) apart
  | .string _, _, apart, _ => apart_cons nofun apart
  | .array [], _, apart, _ => apart_cons nofun (apart_cons nofun apart)
  | .array (item :: items), rest, apart, _ => by
    have closed : Apart (.closeArray :: rest) := apart_cons nofun apart
    have others := moreItems_apart items closed nofun
    have all : Apart (.openArray :: (tokens item ++ (moreItems items ++ .closeArray :: rest))) :=
      apart_cons nofun (tokens_apart item others (head_moreItems items nofun))
    simpa [tokens] using all
  | .object [], _, apart, _ => apart_cons nofun (apart_cons nofun apart)
  | .object ((name, member) :: members), rest, apart, _ => by
    have closed : Apart (.closeObject :: rest) := apart_cons nofun apart
    have others := moreMembers_apart members closed nofun
    have all : Apart (.openObject :: .string name :: .colon
        :: (tokens member ++ (moreMembers members ++ .closeObject :: rest))) :=
      apart_cons nofun (apart_cons nofun (apart_cons nofun
        (tokens_apart member others (head_moreMembers members nofun))))
    simpa [tokens] using all

theorem moreItems_apart : ∀ (items : List Json) {rest : List Token}, Apart rest →
    (∀ next ∈ rest.head?, ¬ next.IsScalar) → Apart (moreItems items ++ rest)
  | [], _, apart, _ => apart
  | item :: items, rest, apart, free => by
    have others := moreItems_apart items apart free
    have all : Apart (.comma :: (tokens item ++ (moreItems items ++ rest))) :=
      apart_cons nofun (tokens_apart item others (head_moreItems items free))
    simpa [moreItems] using all

theorem moreMembers_apart : ∀ (members : List (JsonText × Json)) {rest : List Token},
    Apart rest → (∀ next ∈ rest.head?, ¬ next.IsScalar) → Apart (moreMembers members ++ rest)
  | [], _, apart, _ => apart
  | (name, member) :: members, rest, apart, free => by
    have others := moreMembers_apart members apart free
    have all : Apart (.comma :: .string name :: .colon
        :: (tokens member ++ (moreMembers members ++ rest))) :=
      apart_cons nofun (apart_cons nofun (apart_cons nofun
        (tokens_apart member others (head_moreMembers members free))))
    simpa [moreMembers] using all

end

/-- A text spells a document if it consists of the tokens of the document and of blanks. -/
def Spells (document : Json) (text : String) : Prop := Spelled document.tokens text.toList

theorem parse_iff_spells {text : String} {document : Json} :
    parse? text = some document ↔ document.Spells text := by
  constructor
  · intro read
    obtain ⟨tokens, scanned, made⟩ := Option.bind_eq_some_iff.mp read
    have spelled := spelled_of_scan scanned
    rwa [tokens_of_ofTokens (alone_of_spelled spelled) made] at spelled
  · intro spelled
    have apart := tokens_apart document List.isChain_nil nofun
    rw [List.append_nil] at apart
    rw [parse?, scan_of_spelled spelled apart, Option.bind_eq_bind, Option.bind_some,
      ofTokens_tokens]

end Json
end Statechart
