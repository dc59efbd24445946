import Mathlib.Data.List.Basic
import Statechart.Symbol.Kind

/-!
Decoders and what they read. A decoder reads what a writer writes if it succeeds exactly on bytes
that start with something written, and leaves what follows. Numbers, lists and texts are written so
that they fit: a number in its bytes, and a length in eight of them.
-/
namespace Statechart

/-- The decoder takes what is written of a fitting value off the front of the bytes, and
nothing else. -/
def Decoder.Reads {α : Type} (read : Decoder α) (fits : α → Prop) (write : α → Bytes) : Prop :=
  ∀ bytes a rest, read bytes = some (a, rest) ↔ fits a ∧ bytes = write a ++ rest

namespace Decoder

variable {α β : Type} {read : Decoder α} {fits : α → Prop} {write : α → Bytes}

theorem pure_some_iff {a b : α} {bytes rest : Bytes} :
    (pure a : Decoder α) bytes = some (b, rest) ↔ a = b ∧ bytes = rest := by
  have step : (pure a : Decoder α) bytes = some (a, bytes) := rfl
  rw [step, Option.some.injEq, Prod.mk.injEq]

theorem lift_some_iff {result : Option α} {a : α} {bytes rest : Bytes} :
    (liftM result : Decoder α) bytes = some (a, rest) ↔ result = some a ∧ bytes = rest := by
  cases result with
  | none =>
    have step : (liftM (none : Option α) : Decoder α) bytes = none := rfl
    simp [step]
  | some b =>
    have step : (liftM (some b) : Decoder α) bytes = some (b, bytes) := rfl
    simp [step]

theorem bind_some_iff (reads : read.Reads fits write) {next : α → Decoder β} {bytes rest : Bytes}
    {b : β} :
    (read >>= next) bytes = some (b, rest) ↔
      ∃ a between, (fits a ∧ bytes = write a ++ between) ∧ next a between = some (b, rest) := by
  have step : (read >>= next) bytes = (read bytes).bind fun p => next p.1 p.2 := rfl
  rw [step]
  simp [Option.bind_eq_some_iff, reads _ _ _]

theorem map_some_iff (reads : read.Reads fits write) {change : α → β} {bytes rest : Bytes} {b : β} :
    (change <$> read) bytes = some (b, rest) ↔
      ∃ a, (fits a ∧ bytes = write a ++ rest) ∧ change a = b := by
  have step : change <$> read = read >>= fun a => pure (change a) := rfl
  simp only [step, bind_some_iff reads, pure_some_iff]
  constructor
  · rintro ⟨a, _, read, made, rfl⟩
    exact ⟨a, read, made⟩
  · rintro ⟨a, read, made⟩
    exact ⟨a, rest, read, made, rfl⟩

theorem byte_reads : byte.Reads (fun _ => True) (fun b => [b]) := by
  intro bytes b rest
  cases bytes with
  | nil => simp [byte]
  | cons first bytes => simp [byte]

theorem nat_reads (count : Nat) :
    (nat count).Reads (· < Nat.pow 256 count) (Bytes.ofNat count) := by
  induction count with
  | zero =>
    intro bytes n rest
    simp only [nat, pure_some_iff, Bytes.ofNat, List.nil_append, Nat.pow_eq, Nat.pow_zero,
      Nat.lt_one_iff, eq_comm (a := 0)]
  | succ count ih =>
    intro bytes n rest
    simp only [nat, bind_some_iff byte_reads, bind_some_iff ih, pure_some_iff]
    rw [Nat.pow_eq, Nat.pow_eq, Nat.pow_succ]
    constructor
    · rintro ⟨low, _, ⟨-, rfl⟩, high, _, ⟨small, rfl⟩, rfl, rfl⟩
      have low_small := low.toNat_lt
      have quotient : (low.toNat + 256 * high) / 256 = high := by omega
      have remainder : UInt8.ofNat (low.toNat + 256 * high) = low :=
        UInt8.toNat_inj.mp (by simp only [UInt8.toNat_ofNat']; omega)
      exact ⟨by omega, by simp [Bytes.ofNat, quotient, remainder]⟩
    · rintro ⟨small, rfl⟩
      have whole : (UInt8.ofNat n).toNat + 256 * (n / 256) = n := by
        simp only [UInt8.toNat_ofNat']
        omega
      exact ⟨UInt8.ofNat n, _, ⟨trivial, rfl⟩, n / 256, rest, ⟨by omega, rfl⟩, whole, rfl⟩

theorem four_reads : (nat 4).Reads (· < Nat.pow 2 32) (Bytes.ofNat 4) := nat_reads 4

theorem eight_reads : (nat 8).Reads (· < Nat.pow 2 64) (Bytes.ofNat 8) := nat_reads 8

theorem times_reads (reads : read.Reads fits write) (count : Nat) :
    (times read count).Reads (fun as => as.length = count ∧ ∀ a ∈ as, fits a)
      (List.flatMap write) := by
  induction count with
  | zero =>
    intro bytes as rest
    simp only [times, pure_some_iff, List.length_eq_zero_iff]
    constructor
    · rintro ⟨rfl, rfl⟩
      simp
    · rintro ⟨⟨rfl, -⟩, rfl⟩
      simp
  | succ count ih =>
    intro bytes as rest
    simp only [times, bind_some_iff reads, bind_some_iff ih, pure_some_iff]
    constructor
    · rintro ⟨first, _, ⟨fit, rfl⟩, others, _, ⟨⟨rfl, fits⟩, rfl⟩, rfl, rfl⟩
      exact ⟨⟨rfl, List.forall_mem_cons.mpr ⟨fit, fits⟩⟩, by simp⟩
    · cases as with
      | nil =>
        rintro ⟨⟨empty, -⟩, -⟩
        simp at empty
      | cons first others =>
        rintro ⟨⟨counted, fits⟩, rfl⟩
        rw [List.forall_mem_cons] at fits
        exact ⟨first, others.flatMap write ++ rest, ⟨fits.1, by simp⟩, others, rest,
          ⟨⟨by simpa using counted, fits.2⟩, rfl⟩, rfl, rfl⟩

theorem list_reads (reads : read.Reads fits write) :
    (list read).Reads (fun as => as.length < Nat.pow 2 64 ∧ ∀ a ∈ as, fits a)
      (Bytes.ofList write) := by
  intro bytes as rest
  simp only [list, bind_some_iff eight_reads, times_reads reads _ _ _ _]
  constructor
  · rintro ⟨_, _, ⟨small, rfl⟩, ⟨rfl, fits⟩, rfl⟩
    exact ⟨⟨small, fits⟩, by simp [Bytes.ofList]⟩
  · rintro ⟨⟨small, fits⟩, rfl⟩
    exact ⟨_, as.flatMap write ++ rest, ⟨small, by simp [Bytes.ofList]⟩, ⟨rfl, fits⟩, rfl⟩

theorem option_reads (reads : read.Reads fits write) :
    (option read).Reads (fun value => ∀ a ∈ value, fits a) (Bytes.ofOption write) := by
  have refused : ∀ bytes, (failure : Decoder (Option α)) bytes = none := fun _ => rfl
  intro bytes value rest
  simp only [option, bind_some_iff byte_reads]
  constructor
  · rintro ⟨mark, between, ⟨-, rfl⟩, read⟩
    split at read
    · rename_i absent
      obtain ⟨rfl, rfl⟩ := pure_some_iff.mp read
      simp [absent, Bytes.ofOption]
    · split at read
      · rename_i _ present
        obtain ⟨a, ⟨fit, rfl⟩, rfl⟩ := (map_some_iff reads).mp read
        simp [present, fit, Bytes.ofOption]
      · rw [refused] at read
        cases read
  · rintro ⟨fit, rfl⟩
    cases value with
    | none => exact ⟨0, rest, ⟨trivial, rfl⟩, pure_some_iff.mpr ⟨rfl, rfl⟩⟩
    | some a =>
      exact ⟨1, write a ++ rest, ⟨trivial, rfl⟩,
        (map_some_iff reads).mpr ⟨a, ⟨fit a rfl, rfl⟩, rfl⟩⟩

theorem fromUTF8_some_iff {content : Bytes} {text : String} :
    String.fromUTF8? ⟨content.toArray⟩ = some text ↔ content = text.toUTF8.data.toList := by
  unfold String.fromUTF8?
  constructor
  · intro read
    split at read
    · cases read
      rfl
    · cases read
  · rintro rfl
    have whole : (⟨text.toUTF8.data.toList.toArray⟩ : ByteArray) = text.toByteArray := rfl
    rw [whole, dif_pos text.isValidUTF8]
    rfl

theorem text_reads :
    text.Reads (fun written => written.utf8ByteSize < Nat.pow 2 64) Bytes.ofText := by
  intro bytes written rest
  simp only [text, bind_some_iff eight_reads, bind_some_iff (times_reads byte_reads _),
    lift_some_iff, fromUTF8_some_iff]
  have counted : written.toUTF8.data.toList.length = written.utf8ByteSize := rfl
  constructor
  · rintro ⟨_, _, ⟨small, rfl⟩, _, _, ⟨⟨rfl, -⟩, rfl⟩, rfl, rfl⟩
    exact ⟨by rwa [counted] at small, by simp [Bytes.ofText]⟩
  · rintro ⟨small, rfl⟩
    exact ⟨_, written.toUTF8.data.toList ++ rest, ⟨small, by simp [Bytes.ofText]⟩, _, rest,
      ⟨⟨counted, fun _ _ => trivial⟩, by simp⟩, rfl, rfl⟩

theorem record_reads {γ δ : Type} {read₂ : Decoder β} {read₃ : Decoder γ} {fits₂ : β → Prop}
    {fits₃ : γ → Prop} {write₂ : β → Bytes} {write₃ : γ → Bytes} (reads : read.Reads fits write)
    (reads₂ : read₂.Reads fits₂ write₂) (reads₃ : read₃.Reads fits₃ write₃)
    {build : α → β → γ → δ} {part : δ → α} {part₂ : δ → β} {part₃ : δ → γ}
    (whole : ∀ d, build (part d) (part₂ d) (part₃ d) = d)
    (parts : ∀ a b c, part (build a b c) = a ∧ part₂ (build a b c) = b ∧ part₃ (build a b c) = c) :
    Reads (do let a ← read; let b ← read₂; let c ← read₃; return build a b c)
      (fun d => fits (part d) ∧ fits₂ (part₂ d) ∧ fits₃ (part₃ d))
      (fun d => write (part d) ++ write₂ (part₂ d) ++ write₃ (part₃ d)) := by
  intro bytes d rest
  simp only [bind_some_iff reads, bind_some_iff reads₂, bind_some_iff reads₃, pure_some_iff]
  constructor
  · rintro ⟨a, _, ⟨fit, rfl⟩, b, _, ⟨fit₂, rfl⟩, c, _, ⟨fit₃, rfl⟩, rfl, rfl⟩
    obtain ⟨here, here₂, here₃⟩ := parts a b c
    rw [here, here₂, here₃]
    exact ⟨⟨fit, fit₂, fit₃⟩, by simp⟩
  · rintro ⟨⟨fit, fit₂, fit₃⟩, rfl⟩
    exact ⟨_, _, ⟨fit, by rw [List.append_assoc, List.append_assoc]⟩, _, _, ⟨fit₂, rfl⟩,
      _, _, ⟨fit₃, rfl⟩, whole d, rfl⟩

end Decoder

def SymbolKind.Fits : (kind : SymbolKind) → kind.Symbol → Prop
  | .text, (name : String) => name.utf8ByteSize < Nat.pow 2 64
  | .enumerated _ _ _, _ => True
  | .tagged, (symbol : Tagged) => symbol.name.utf8ByteSize < Nat.pow 2 64

instance (kind : SymbolKind) (symbol : kind.Symbol) : Decidable (kind.Fits symbol) :=
  match kind, symbol with
  | .text, (name : String) => inferInstanceAs (Decidable (name.utf8ByteSize < _))
  | .enumerated _ _ _, _ => inferInstanceAs (Decidable True)
  | .tagged, (symbol : Tagged) => inferInstanceAs (Decidable (symbol.name.utf8ByteSize < _))

theorem Enumerated.at_some_iff {names : List String} {place : Nat} {symbol : Enumerated names} :
    at? place = some symbol ↔ place = symbol.place := by
  unfold at?
  constructor
  · intro found
    split at found
    · cases found
      rfl
    · cases found
  · rintro rfl
    rw [dif_pos symbol.place.isLt]

theorem Enumerated.reads {names : List String} (few : names.length ≤ Nat.pow 2 32) :
    (Portable.decoder : Decoder (Enumerated names)).Reads (fun _ => True) Portable.toBytes := by
  intro bytes symbol rest
  simp only [Portable.decoder, Portable.toBytes, Decoder.bind_some_iff Decoder.four_reads,
    Decoder.lift_some_iff, at_some_iff]
  constructor
  · rintro ⟨_, _, ⟨-, rfl⟩, rfl, rfl⟩
    exact ⟨trivial, rfl⟩
  · rintro ⟨-, rfl⟩
    exact ⟨_, rest, ⟨Nat.lt_of_lt_of_le symbol.place.isLt few, rfl⟩, rfl, rfl⟩

theorem Tagged.reads :
    (Portable.decoder : Decoder Tagged).Reads
      (fun symbol => symbol.name.utf8ByteSize < Nat.pow 2 64) Portable.toBytes := by
  intro bytes symbol rest
  simp only [Portable.decoder, Portable.toBytes, Decoder.bind_some_iff Decoder.text_reads,
    Decoder.bind_some_iff Decoder.four_reads, Decoder.pure_some_iff]
  constructor
  · rintro ⟨name, _, ⟨fits, rfl⟩, id, _, ⟨small, rfl⟩, rfl, rfl⟩
    exact ⟨fits, by simp [Nat.mod_eq_of_lt small]⟩
  · rintro ⟨fits, rfl⟩
    exact ⟨symbol.name, _, ⟨fits, List.append_assoc _ _ _⟩, symbol.id.toNat, rest,
      ⟨symbol.id.toNat_lt, rfl⟩, by simp, rfl⟩

theorem SymbolKind.reads (kind : SymbolKind) :
    (Portable.decoder : Decoder kind.Symbol).Reads kind.Fits Portable.toBytes :=
  match kind with
  | .text => Decoder.text_reads
  | .enumerated _ _ few => Enumerated.reads few
  | .tagged => Tagged.reads

end Statechart
