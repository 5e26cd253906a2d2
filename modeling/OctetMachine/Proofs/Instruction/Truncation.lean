import Mathlib
import OctetMachine.Parts
import OctetMachine.Proofs.Instruction.Encodable

/-! Why bytes are no instruction. Either the first one is no opcode, or they end too early: some
instruction begins with all of them and goes on. No other bytes are refused. -/
namespace OctetMachine

/-- Some bytes begin others, and are not all of them. -/
structure EndsWithin (bytes whole : List UInt8) : Prop where
  begins : bytes <+: whole
  shorter : bytes.length < whole.length

namespace EndsWithin

variable {a b whole : List UInt8}

theorem nil (nonempty : whole ≠ []) : EndsWithin [] whole :=
  ⟨List.nil_prefix, List.length_pos_iff.mpr nonempty⟩

theorem head?_eq {b : UInt8} (within : EndsWithin a whole) (head : a.head? = some b) :
    whole.head? = some b := by
  obtain ⟨rest, rfl⟩ := within.begins
  rw [List.head?_append, head]
  rfl

/-- The same bytes may stand before both. -/
theorem append_left (within : EndsWithin b whole) (a : List UInt8) :
    EndsWithin (a ++ b) (a ++ whole) := by
  refine ⟨(List.prefix_append_right_inj a).mpr within.begins, ?_⟩
  have shorter := within.shorter
  simp only [List.length_append]
  omega

/-- What follows the longer bytes does not matter. -/
theorem append_right (within : EndsWithin b whole) (rest : List UInt8) :
    EndsWithin b (whole ++ rest) := by
  refine ⟨within.begins.trans (List.prefix_append whole rest), ?_⟩
  have shorter := within.shorter
  simp only [List.length_append]
  omega

end EndsWithin

theorem Input.readByte_eq_error {input : Input} {e : ReadError}
    (failed : input.readByte = .error e) : input.bytes = [] := by
  obtain ⟨offset, bytes⟩ := input
  cases bytes with
  | nil => rfl
  | cons b rest => cases failed

/-- Bytes that are too few for a value begin one, with zeros for the missing bytes. -/
theorem Input.endsWithin_of_readValue {input : Input} {w : Width} {e : ReadError}
    (failed : input.readValue w = .error e) :
    ∃ v : Value, v.width = w ∧ EndsWithin input.bytes v.bytes := by
  have few : input.bytes.length < w.bytes := by
    simp only [readValue] at failed
    split at failed
    · cases failed
    · rename_i missing
      simp only [Value.ofBytes?, List.length_take, dite_eq_right_iff, reduceCtorEq,
        imp_false] at missing
      omega
  let zeros := List.replicate (w.bytes - input.bytes.length) (0 : UInt8)
  have size : (input.bytes ++ zeros).length = w.bytes := by
    simp only [zeros, List.length_append, List.length_replicate]
    omega
  exact ⟨⟨w, _, size⟩, rfl, List.prefix_append _ _, size ▸ few⟩

namespace Operand

/-- Bytes from which no operand can be read are the beginning of one. -/
theorem endsWithin_of_decode {slot : Slot} {input : Input} {e : ReadError}
    (failed : decode slot input = .error e) :
    ∃ o : Operand, o.isEncodableIn slot = true ∧ EndsWithin input.bytes o.encode := by
  rcases error_bind_iff.mp failed with empty | ⟨⟨b, after⟩, first, read⟩
  · rw [Input.readByte_eq_error empty]
    exact ⟨.top, rfl, .nil (List.cons_ne_nil _ _)⟩
  have front := (Input.spans_of_readByte first).bytes_eq
  clear failed first
  dsimp only at read
  split at read
  · cases read
  · rename_i tag
    rw [Tag.ofByte?_eq_some_iff.mp tag] at front
    rcases error_bind_iff.mp read with empty | ⟨⟨a, last⟩, second, found⟩
    · rw [front, Input.readByte_eq_error empty]
      refine ⟨.reference (.ofByte 0), rfl, ?_⟩
      exact (EndsWithin.nil (List.cons_ne_nil _ _)).append_left [_]
    have middle := (Input.spans_of_readByte second).bytes_eq
    clear read
    dsimp only at found
    split at found
    · rename_i w sized
      rcases error_bind_iff.mp found with short | ⟨_, _, done⟩
      · obtain ⟨v, rfl, within⟩ := Input.endsWithin_of_readValue short
        rw [front, middle, Tag.eq_byte_of_widthOf? sized]
        exact ⟨.reference v, rfl, within.append_left [_, _]⟩
      · cases done
    · cases found
  · rename_i w tag
    rcases error_bind_iff.mp read with short | ⟨_, _, done⟩
    · obtain ⟨v, rfl, within⟩ := Input.endsWithin_of_readValue short
      rw [front, Tag.ofByte?_eq_some_iff.mp tag]
      exact ⟨.immediate v, rfl, within.append_left [_]⟩
    · cases done
  · cases read

/-- There are operands for all slots. -/
theorem areEncodableIn_top (slots : List Slot) :
    areEncodableIn slots (List.replicate slots.length .top) = true := by
  induction slots with
  | nil => rfl
  | cons slot slots ih => simpa [List.replicate_succ, areEncodableIn, isEncodableIn] using ih

theorem endsWithin_of_decodeAll {slots : List Slot} {input : Input} {e : ReadError}
    (failed : decodeAll slots input = .error e) :
    ∃ os : List Operand, areEncodableIn slots os = true ∧
      EndsWithin input.bytes (os.flatMap encode) := by
  induction slots generalizing input with
  | nil => cases failed
  | cons slot slots ih =>
    rcases error_bind_iff.mp failed with first | ⟨⟨o, after⟩, first, read⟩
    · obtain ⟨o, encodable, within⟩ := endsWithin_of_decode first
      refine ⟨o :: List.replicate slots.length .top, ?_, within.append_right _⟩
      simp [areEncodableIn, encodable, areEncodableIn_top]
    · rcases error_bind_iff.mp read with others | ⟨_, _, done⟩
      · obtain ⟨spans, encodable⟩ := spans_of_decode first
        obtain ⟨os, encodables, within⟩ := ih others
        refine ⟨o :: os, by simp [areEncodableIn, encodable, encodables], ?_⟩
        rw [spans.bytes_eq]
        exact within.append_left o.encode
      · cases done

end Operand

namespace Instruction

variable {input : Input} {i : Instruction}

theorem decode_eq_unknownOpcode_iff {b : UInt8} {offset : Nat} :
    decode input = .error (.unknownOpcode b offset) ↔
      offset = input.offset ∧ input.bytes.head? = some b ∧ Opcode.ofByte? b = none := by
  obtain ⟨place, bytes⟩ := input
  cases bytes with
  | nil => simp [decode]
  | cons a rest =>
    simp only [decode, Input.readByte_cons, List.head?_cons, Option.some.injEq]
    cases known : Opcode.ofByte? a with
    | none =>
      simp only [Except.error.injEq, DecodeError.unknownOpcode.injEq]
      constructor
      · rintro ⟨rfl, rfl⟩
        exact ⟨rfl, rfl, known⟩
      · rintro ⟨rfl, rfl, _⟩
        exact ⟨rfl, rfl⟩
    | some op =>
      refine iff_of_false ?_ ?_
      · dsimp only
        split <;> simp
      · rintro ⟨_, rfl, unknown⟩
        cases known.symm.trans unknown

/-- A refusal names the place where the instruction would have begun. -/
theorem offset_of_decode {e : DecodeError} (failed : decode input = .error e) :
    e.offset = input.offset := by
  simp only [decode] at failed
  split at failed
  · cases failed
    rfl
  · split at failed
    · cases failed
      rfl
    · split at failed
      · cases failed
        rfl
      · cases failed

/-- Bytes that end within an instruction cannot be read, as no instruction begins with another. -/
theorem decode_ne_ok_of_endsWithin (encodable : i.Encodable)
    (within : EndsWithin input.bytes i.encode) (found : Instruction × Input) :
    decode input ≠ .ok found := by
  obtain ⟨j, rest⟩ := found
  intro decoded
  obtain ⟨spans, readable⟩ := spans_of_decode decoded
  have begins : j.encode <+: i.encode := by
    refine List.IsPrefix.trans ?_ within.begins
    rw [spans.bytes_eq]
    exact List.prefix_append _ _
  obtain rfl := eq_of_encode_prefix (isEncodable_iff.mp readable) encodable begins
  have size := spans.length_eq
  have shorter := within.shorter
  omega

/-- Bytes are called truncated exactly when some instruction begins with them and goes on. -/
theorem decode_eq_truncated_iff {offset : Nat} : decode input = .error (.truncated offset) ↔
    offset = input.offset ∧ ∃ i : Instruction, i.Encodable ∧ EndsWithin input.bytes i.encode := by
  constructor
  · intro failed
    simp only [decode] at failed
    split at failed
    · rename_i empty
      cases failed
      rw [Input.readByte_eq_error empty]
      exact ⟨rfl, ⟨.pop, []⟩, by decide, .nil (List.cons_ne_nil _ _)⟩
    · rename_i b rest first
      split at failed
      · cases failed
      · rename_i op known
        split at failed
        · rename_i others
          cases failed
          obtain ⟨os, encodable, within⟩ := Operand.endsWithin_of_decodeAll others
          refine ⟨rfl, ⟨op, os⟩, isEncodable_iff.mp encodable, ?_⟩
          rw [(Input.spans_of_readByte first).bytes_eq, Opcode.ofByte?_eq_some_iff.mp known]
          exact within.append_left [_]
        · cases failed
  · rintro ⟨rfl, i, encodable, within⟩
    cases decoded : decode input with
    | ok found => exact absurd decoded (decode_ne_ok_of_endsWithin encodable within found)
    | error e =>
      cases e with
      | truncated offset =>
        have place : offset = input.offset := offset_of_decode decoded
        rw [place]
      | unknownOpcode b offset =>
        obtain ⟨_, head, unknown⟩ := decode_eq_unknownOpcode_iff.mp decoded
        have opcode : i.opcode.byte = b := Option.some.inj (within.head?_eq head)
        rw [← opcode, Opcode.ofByte?_byte] at unknown
        cases unknown

end Instruction
end OctetMachine
