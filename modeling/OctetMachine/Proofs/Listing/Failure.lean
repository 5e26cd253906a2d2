import Mathlib
import OctetMachine.Proofs.Instruction.Truncation
import OctetMachine.Proofs.Listing.Decoding

/-! Where and why code has no listing. The instructions before the reported place can be read, and
no instruction can be read there. Code that has a listing changes nothing about the code behind it
but its place. -/
namespace OctetMachine

/-- The same refusal with more code in front. -/
def DecodeError.behind (size : Nat) : DecodeError → DecodeError
  | unknownOpcode byte offset => unknownOpcode byte (size + offset)
  | truncated offset => truncated (size + offset)

/-- The same entry with more code in front. -/
def Listing.Entry.behind (size : Nat) (e : Entry) : Entry := ⟨size + e.offset, e.instruction⟩

namespace Instruction

variable {bytes : List UInt8} {offset : Nat}

/-- Why bytes are no instruction does not depend on where they stand. -/
theorem decode_behind {e : DecodeError} (size : Nat) (failed : decode ⟨offset, bytes⟩ = .error e) :
    decode ⟨size + offset, bytes⟩ = .error (e.behind size) := by
  cases e with
  | unknownOpcode b place =>
    obtain ⟨rfl, unknown⟩ := decode_eq_unknownOpcode_iff.mp failed
    exact decode_eq_unknownOpcode_iff.mpr ⟨rfl, unknown⟩
  | truncated place =>
    obtain ⟨rfl, short⟩ := decode_eq_truncated_iff.mp failed
    exact decode_eq_truncated_iff.mpr ⟨rfl, short⟩

/-- Bytes end within an instruction exactly when some more bytes complete one. -/
theorem exists_endsWithin_iff : (∃ i : Instruction, i.Encodable ∧ EndsWithin bytes i.encode) ↔
    ∃ more : List UInt8, more ≠ [] ∧ ∃ i rest, decode ⟨offset, bytes ++ more⟩ = .ok (i, rest) ∧
      bytes.length < i.encodedLength := by
  constructor
  · rintro ⟨i, encodable, ⟨more, whole⟩, shorter⟩
    have longer : more ≠ [] := by
      rintro rfl
      simp [← whole] at shorter
    have decoded := decode_encode (isEncodable_iff.mpr encodable) offset []
    rw [List.append_nil, ← whole] at decoded
    exact ⟨more, longer, i, _, decoded, by rwa [← length_encode]⟩
  · rintro ⟨more, _, i, rest, decoded, longer⟩
    rw [← length_encode] at longer
    obtain ⟨spans, encodable⟩ := spans_of_decode decoded
    have whole : bytes ++ more = i.encode ++ rest.bytes := spans.bytes_eq
    refine ⟨i, isEncodable_iff.mp encodable, ?_, longer⟩
    exact List.prefix_of_prefix_length_le (whole ▸ List.prefix_append bytes more)
      (List.prefix_append _ _) longer.le

/-- Which of the two refusals it is, by the first byte and by whether more bytes would help. -/
theorem cause_of_decode {b : UInt8} {e : DecodeError} (head : bytes.head? = some b)
    (failed : decode ⟨offset, bytes⟩ = .error e) :
    (e = .unknownOpcode b offset ↔ Opcode.ofByte? b = none) ∧
    (e = .truncated offset ↔ (∃ op, Opcode.ofByte? b = some op) ∧
      ∃ more : List UInt8, more ≠ [] ∧ ∃ i rest, decode ⟨offset, bytes ++ more⟩ = .ok (i, rest) ∧
        bytes.length < i.encodedLength) := by
  have unknown : e = .unknownOpcode b offset ↔ Opcode.ofByte? b = none := by
    rw [← Except.error.injEq, ← failed, decode_eq_unknownOpcode_iff]
    simp [head]
  refine ⟨unknown, ?_⟩
  rw [← exists_endsWithin_iff]
  constructor
  · rintro rfl
    have known : Opcode.ofByte? b ≠ none := fun none => by cases unknown.mpr none
    exact ⟨Option.ne_none_iff_exists'.mp known, (decode_eq_truncated_iff.mp failed).2⟩
  · rintro ⟨_, short⟩
    exact Except.error.inj (failed.symm.trans (decode_eq_truncated_iff.mpr ⟨rfl, short⟩))

end Instruction

namespace Listing

theorem ofInstructions_append (offset : Nat) (is js : List Instruction) :
    ofInstructions offset (is ++ js) = ofInstructions offset is ++
      ofInstructions (offset + (is.flatMap Instruction.encode).length) js := by
  induction is generalizing offset with
  | nil => rfl
  | cons i is ih => simp [ih, Nat.add_assoc]

theorem ofInstructions_add (size offset : Nat) (is : List Instruction) :
    ofInstructions (size + offset) is = (ofInstructions offset is).map (Entry.behind size) := by
  induction is generalizing offset with
  | nil => rfl
  | cons i is ih => simp [Nat.add_assoc, ih, Entry.behind]

theorem decodeFrom_encode_append {is : List Instruction} (encodable : ∀ i ∈ is, i.Encodable)
    (offset : Nat) (bytes : List UInt8) :
    decodeFrom ⟨offset, is.flatMap Instruction.encode ++ bytes⟩ =
      (decodeFrom ⟨offset + (is.flatMap Instruction.encode).length, bytes⟩).map
        (ofInstructions offset is ++ ·) := by
  induction is generalizing offset with
  | nil =>
    simp only [List.flatMap_nil, List.nil_append, List.length_nil, Nat.add_zero]
    cases decodeFrom ⟨offset, bytes⟩ <;> rfl
  | cons i is ih =>
    obtain ⟨first, others⟩ := List.forall_mem_cons.mp encodable
    have read := Instruction.decode_encode (Instruction.isEncodable_iff.mpr first) offset
      (is.flatMap Instruction.encode ++ bytes)
    rw [List.flatMap_cons, List.append_assoc, decodeFrom_of_decode read, ih others,
      List.length_append, Instruction.length_encode, Nat.add_assoc]
    cases decodeFrom ⟨offset + _, bytes⟩ <;> simp [Except.map]

theorem decodeFrom_of_error {input : Input} {e : DecodeError} (more : input.bytes ≠ [])
    (failed : Instruction.decode input = .error e) : decodeFrom input = .error e := by
  rw [decodeFrom]
  split
  · contradiction
  · split
    · simp_all
    · simp_all

/-- Decoding fails behind some instructions, where the bytes that are left begin with none. -/
theorem decodeFrom_eq_error_iff {input : Input} {e : DecodeError} :
    decodeFrom input = .error e ↔ ∃ (is : List Instruction) (bad : List UInt8),
      (∀ i ∈ is, i.Encodable) ∧ input.bytes = is.flatMap Instruction.encode ++ bad ∧ bad ≠ [] ∧
        Instruction.decode ⟨input.offset + (is.flatMap Instruction.encode).length, bad⟩ =
          .error e := by
  constructor
  · intro failed
    fun_induction decodeFrom input with
    | case1 => cases failed
    | case2 input b others bytes _ read =>
      cases failed
      exact ⟨[], input.bytes, by simp, rfl, by simp [bytes], read⟩
    | case3 input _ _ _ i rest read _ later ih =>
      cases failed
      obtain ⟨is, bad, encodable, cut, more, failed⟩ := ih later
      obtain ⟨spans, first⟩ := Instruction.spans_of_decode read
      refine ⟨i :: is, bad, ?_, ?_, more, ?_⟩
      · exact List.forall_mem_cons.mpr ⟨Instruction.isEncodable_iff.mp first, encodable⟩
      · rw [spans.bytes_eq, cut, List.flatMap_cons, List.append_assoc]
      · rwa [List.flatMap_cons, List.length_append, ← Nat.add_assoc, ← spans.offset_eq]
    | case4 => cases failed
  · rintro ⟨is, bad, encodable, cut, more, failed⟩
    obtain ⟨offset, bytes⟩ := input
    obtain rfl : bytes = _ := cut
    rw [decodeFrom_encode_append encodable, decodeFrom_of_error more failed]
    rfl

theorem decode_eq_error_iff {code : List UInt8} {e : DecodeError} :
    decode code = .error e ↔ ∃ (is : List Instruction) (bad : List UInt8),
      (∀ i ∈ is, i.Encodable) ∧ code = is.flatMap Instruction.encode ++ bad ∧ bad ≠ [] ∧
        Instruction.decode ⟨(is.flatMap Instruction.encode).length, bad⟩ = .error e := by
  rw [decode, decodeFrom_eq_error_iff]
  simp only [Nat.zero_add]

/-- Code behind code that has a listing is decoded as it would be alone, at its place. -/
theorem decode_append {code : List UInt8} {xs : Listing} (decoded : decode code = .ok xs)
    (rest : List UInt8) :
    (∀ ys, decode rest = .ok ys →
      decode (code ++ rest) = .ok (xs ++ ys.map (Entry.behind code.length))) ∧
    ∀ e, decode rest = .error e → decode (code ++ rest) = .error (e.behind code.length) := by
  obtain ⟨is, encodable, rfl, rfl⟩ := decode_eq_ok_iff.mp decoded
  constructor
  · intro ys others
    obtain ⟨js, encodables, rfl, rfl⟩ := decode_eq_ok_iff.mp others
    refine decode_eq_ok_iff.mpr ⟨is ++ js, List.forall_mem_append.mpr ⟨encodable, encodables⟩,
      List.flatMap_append.symm, ?_⟩
    rw [ofInstructions_append, Nat.zero_add, ← ofInstructions_add, Nat.add_zero]
  · intro e failed
    obtain ⟨js, bad, encodables, rfl, more, failed⟩ := decode_eq_error_iff.mp failed
    refine decode_eq_error_iff.mpr ⟨is ++ js, bad,
      List.forall_mem_append.mpr ⟨encodable, encodables⟩, ?_, more, ?_⟩
    · rw [List.flatMap_append, List.append_assoc]
    · rw [List.flatMap_append, List.length_append]
      exact Instruction.decode_behind _ failed

/-- Decoding fails exactly where and why it should. The refused place lies within the code, behind
code that has a listing; an opcode is called unknown when it is none, and an instruction truncated
when more bytes would complete one that is longer than what is left. Code that has a listing and
code behind it are decoded independently. -/
theorem decode_fails_where_and_why (code : List UInt8) :
    (∀ e, decode code = .error e → ∃ inside : e.offset < code.length,
      (∃ xs, decode (code.take e.offset) = .ok xs) ∧
      (e = .unknownOpcode code[e.offset] e.offset ↔ Opcode.ofByte? code[e.offset] = none) ∧
      (e = .truncated e.offset ↔ (∃ op, Opcode.ofByte? code[e.offset] = some op) ∧
        ∃ more : List UInt8, more ≠ [] ∧ ∃ i rest,
          Instruction.decode ⟨e.offset, code.drop e.offset ++ more⟩ = .ok (i, rest) ∧
            code.length - e.offset < i.encodedLength)) ∧
    ∀ xs, decode code = .ok xs → ∀ rest : List UInt8,
      ((∃ zs, decode (code ++ rest) = .ok zs) ↔ ∃ ys, decode rest = .ok ys) ∧
      (∀ ys, decode rest = .ok ys →
        decode (code ++ rest) = .ok (xs ++ ys.map (Entry.behind code.length))) ∧
      ∀ e, decode rest = .error e → decode (code ++ rest) = .error (e.behind code.length) := by
  constructor
  · intro e failed
    obtain ⟨is, bad, encodable, cut, more, failed⟩ := decode_eq_error_iff.mp failed
    obtain ⟨b, others, rfl⟩ := List.exists_cons_of_ne_nil more
    have place : e.offset = (is.flatMap Instruction.encode).length :=
      Instruction.offset_of_decode failed
    have inside : e.offset < code.length := by
      rw [cut, place, List.length_append, List.length_cons]
      omega
    have front : code.take e.offset = is.flatMap Instruction.encode := by
      rw [cut, place, List.take_left]
    have back : code.drop e.offset = b :: others := by
      rw [cut, place, List.drop_left]
    have size : code.length - e.offset = (b :: others).length := by
      rw [← back, List.length_drop]
    have first : code[e.offset] = b := List.getElem_of_append cut place.symm
    rw [← place] at failed
    refine ⟨inside, ⟨_, decode_eq_ok_iff.mpr ⟨is, encodable, front, rfl⟩⟩, ?_⟩
    rw [first, back, size]
    exact Instruction.cause_of_decode rfl failed
  · intro xs decoded rest
    obtain ⟨joined, refused⟩ := decode_append decoded rest
    refine ⟨⟨fun ⟨zs, all⟩ => ?_, fun ⟨ys, others⟩ => ⟨_, joined ys others⟩⟩, joined, refused⟩
    cases others : decode rest with
    | ok ys => exact ⟨ys, rfl⟩
    | error e => cases all.symm.trans (refused e others)

/-- An addition whose word is cut off after its first byte, behind a pop; the pop in front of other code
changes places only. -/
theorem decode_fails_where_and_why_half_word :
    decode [0xFC, 0xA0, 0x01, 0xD1, 0x02] = .error (.truncated 1) ∧
    (∃ more : List UInt8, more ≠ [] ∧ ∃ i rest,
      Instruction.decode ⟨1, [0xA0, 0x01, 0xD1, 0x02] ++ more⟩ = .ok (i, rest) ∧
        4 < i.encodedLength) ∧
    decode [0xFC] = .ok [⟨0, ⟨.pop, []⟩⟩] ∧
    decode [0xFC, 0xFD, 0x07, 0x00] = .error (.unknownOpcode 0 3) := by
  have failed : decode [0xFC, 0xA0, 0x01, 0xD1, 0x02] = .error (.truncated 1) := by cbv
  have decoded : decode [0xFC] = .ok [⟨0, ⟨.pop, []⟩⟩] := by cbv
  have later : decode [0xFD, 0x07, 0x00] = .error (.unknownOpcode 0 2) := by cbv
  obtain ⟨_, _, _, short⟩ := (decode_fails_where_and_why _).1 _ failed
  exact ⟨failed, (short.mp rfl).2, decoded,
    ((decode_fails_where_and_why _).2 _ decoded _).2.2 _ later⟩

end Listing
end OctetMachine
