import Mathlib
import OctetMachine.Listing
import OctetMachine.Proofs.Instruction.Encodable

/-! Code and listings determine each other. A code decodes exactly when it is the encodings of some
encodable instructions one after another; its listing then holds these instructions, each at the
place where the encodings before it end. -/
namespace OctetMachine

namespace Listing

/-- Instructions side by side from an offset on, each behind all that come before it. -/
def ofInstructions (offset : Nat) (is : List Instruction) : Listing :=
  is.mapIdx fun k i => ⟨offset + ((is.take k).map Instruction.encodedLength).sum, i⟩

@[simp] theorem ofInstructions_cons (offset : Nat) (i : Instruction) (is : List Instruction) :
    ofInstructions offset (i :: is) =
      ⟨offset, i⟩ :: ofInstructions (offset + i.encodedLength) is := by
  simp [ofInstructions, List.mapIdx_cons, Nat.add_assoc]

theorem getElem?_ofInstructions {offset k : Nat} {is : List Instruction} {e : Entry} :
    (ofInstructions offset is)[k]? = some e ↔
      is[k]? = some e.instruction ∧
        e.offset = offset + ((is.take k).map Instruction.encodedLength).sum := by
  obtain ⟨place, i⟩ := e
  simp only [ofInstructions, List.getElem?_mapIdx, Option.map_eq_some_iff, Entry.mk.injEq]
  constructor
  · rintro ⟨_, found, rfl, rfl⟩
    exact ⟨found, rfl⟩
  · rintro ⟨found, rfl⟩
    exact ⟨i, found, rfl, rfl⟩

@[simp] theorem map_instruction_ofInstructions (offset : Nat) (is : List Instruction) :
    (ofInstructions offset is).map Entry.instruction = is := by
  induction is generalizing offset with
  | nil => rfl
  | cons i is ih => simp [ih]

theorem instruction_mem_of_mem {offset : Nat} {is : List Instruction} {e : Entry}
    (member : e ∈ ofInstructions offset is) : e.instruction ∈ is := by
  rw [← map_instruction_ofInstructions offset is]
  exact List.mem_map_of_mem member

theorem flatMap_ofInstructions {α : Type} (offset : Nat) (is : List Instruction)
    (f : Instruction → List α) :
    (ofInstructions offset is).flatMap (fun e => f e.instruction) = is.flatMap f := by
  have same := List.flatMap_map Entry.instruction f (l := ofInstructions offset is)
  rw [map_instruction_ofInstructions] at same
  exact same.symm

theorem length_flatMap_encode (is : List Instruction) :
    (is.flatMap Instruction.encode).length = (is.map Instruction.encodedLength).sum := by
  simp [List.length_flatMap]

theorem decodeFrom_nil (offset : Nat) : decodeFrom ⟨offset, []⟩ = .ok [] := by
  rw [decodeFrom]

/-- One turn of the decoding loop. -/
theorem decodeFrom_of_decode {input rest : Input} {i : Instruction}
    (decoded : Instruction.decode input = .ok (i, rest)) :
    decodeFrom input = (decodeFrom rest).map (⟨input.offset, i⟩ :: ·) := by
  have shorter := Instruction.length_of_decode decoded
  rw [decodeFrom]
  split
  · rename_i empty
    simp [empty] at shorter
  · split
    · rename_i failed
      rw [decoded] at failed
      cases failed
    · rename_i decoded'
      rw [decoded] at decoded'
      cases decoded'
      cases decodeFrom rest <;> rfl

theorem decodeFrom_encode {is : List Instruction} (encodable : ∀ i ∈ is, i.Encodable)
    (offset : Nat) :
    decodeFrom ⟨offset, is.flatMap Instruction.encode⟩ = .ok (ofInstructions offset is) := by
  induction is generalizing offset with
  | nil => exact decodeFrom_nil offset
  | cons i is ih =>
    have first := Instruction.decode_encode
      (Instruction.isEncodable_iff.mpr (encodable i (by simp))) offset
      (is.flatMap Instruction.encode)
    have others := ih (fun j member => encodable j (by simp [member])) (offset + i.encodedLength)
    rw [List.flatMap_cons, decodeFrom_of_decode first, others, ofInstructions_cons]
    rfl

/-- The decoding loop loses no byte and reads none twice. -/
theorem encode_of_decodeFrom {input : Input} {entries : Listing}
    (decoded : decodeFrom input = .ok entries) :
    ∃ is : List Instruction, (∀ i ∈ is, i.Encodable) ∧
      input.bytes = is.flatMap Instruction.encode ∧ entries = ofInstructions input.offset is := by
  fun_induction decodeFrom input generalizing entries with
  | case1 input empty =>
    cases decoded
    exact ⟨[], by simp, empty, rfl⟩
  | case2 => cases decoded
  | case3 => cases decoded
  | case4 input _ _ _ i rest read others successful ih =>
    cases decoded
    obtain ⟨is, encodable, bytes, rfl⟩ := ih successful
    obtain ⟨spans, first⟩ := Instruction.spans_of_decode read
    refine ⟨i :: is, ?_, ?_, ?_⟩
    · intro j member
      rcases List.mem_cons.mp member with rfl | member
      · exact Instruction.isEncodable_iff.mp first
      · exact encodable j member
    · rw [spans.bytes_eq, bytes, List.flatMap_cons]
    · rw [ofInstructions_cons, spans.offset_eq, Instruction.length_encode]

theorem decode_eq_ok_iff {code : List UInt8} {entries : Listing} :
    decode code = .ok entries ↔ ∃ is : List Instruction, (∀ i ∈ is, i.Encodable) ∧
      code = is.flatMap Instruction.encode ∧ entries = ofInstructions 0 is := by
  constructor
  · exact encode_of_decodeFrom
  · rintro ⟨is, encodable, rfl, rfl⟩
    exact decodeFrom_encode encodable 0

/-- Where an entry ends, the entries up to and including it end. -/
theorem end_of_getElem? {offset k : Nat} {is : List Instruction} {e : Entry}
    (found : (ofInstructions offset is)[k]? = some e) :
    e.offset + e.instruction.encodedLength =
      offset + ((is.take (k + 1)).map Instruction.encodedLength).sum := by
  obtain ⟨here, start⟩ := getElem?_ofInstructions.mp found
  rw [List.take_add_one, here, start]
  simp [Nat.add_assoc]

theorem offset_of_next {offset k : Nat} {is : List Instruction} {e next : Entry}
    (here : (ofInstructions offset is)[k]? = some e)
    (there : (ofInstructions offset is)[k + 1]? = some next) :
    next.offset = e.offset + e.instruction.encodedLength := by
  rw [end_of_getElem? here]
  exact (getElem?_ofInstructions.mp there).2

theorem end_of_getLast? {offset : Nat} {is : List Instruction} {e : Entry}
    (last : (ofInstructions offset is).getLast? = some e) :
    e.offset + e.instruction.encodedLength =
      offset + (is.flatMap Instruction.encode).length := by
  have size : (ofInstructions offset is).length = is.length := by simp [ofInstructions]
  rw [List.getLast?_eq_getElem?, size] at last
  have stop : is.length ≤ is.length - 1 + 1 := by omega
  rw [end_of_getElem? last, List.take_of_length_le stop, length_flatMap_encode]

/-- Reading gives back what was written, and only what can be told apart can be written so. An
operand is read where it stands, whatever surrounds it, exactly when it can stand in its slot;
instructions of such operands are read one after another; and none of them begins another. -/
theorem decode_inverts_encode :
    (∀ (slot : Slot) (o : Operand) (before rest : List UInt8),
      Cursor.readOperand ⟨before ++ o.encode ++ rest, before.length⟩ slot =
          (.ok o, ⟨before ++ o.encode ++ rest, before.length + o.encodedLength⟩) ↔
        o.isEncodableIn slot = true) ∧
    (∀ is : List Instruction, (∀ i ∈ is, i.Encodable) →
      (decode (is.flatMap Instruction.encode)).map (·.map Entry.instruction) = .ok is) ∧
    (∀ i j : Instruction, i.Encodable → j.Encodable → i.encode <+: j.encode → i = j) := by
  refine ⟨?_, ?_, ?_⟩
  · intro slot o before rest
    exact Cursor.readOperand_encode_iff before rest slot o
  · intro is encodable
    rw [decode_eq_ok_iff.mpr ⟨is, encodable, rfl, rfl⟩]
    exact congrArg Except.ok (map_instruction_ofInstructions 0 is)
  · intro i j first second begins
    exact Instruction.eq_of_encode_prefix first second begins

/-- The same byte stands for itself in front and would open an immediate further back. -/
theorem decode_inverts_encode_tag_bytes :
    (∀ i ∈ [(⟨.push, [.literal 0xD0]⟩ : Instruction),
        ⟨.add, [.shortReference 7, .reference (.ofNat .word 513)]⟩], i.Encodable) ∧
    (decode [0xFD, 0xD0, 0xA0, 0xC0, 0x07, 0xC0, 0xD1, 0x02, 0x01]).map
        (·.map Entry.instruction) =
      .ok [⟨.push, [.literal 0xD0]⟩, ⟨.add, [.shortReference 7, .reference (.ofNat .word 513)]⟩] ∧
    Cursor.readOperand ⟨[0xD0, 0x01], 0⟩ .trailing ≠ (.ok (.literal 0xD0), ⟨[0xD0, 0x01], 1⟩) ∧
    ¬ (Instruction.mk .pop []).encode <+: (Instruction.mk .push [.top]).encode := by
  refine ⟨by decide, ?_, ?_, ?_⟩
  · exact decode_inverts_encode.2.1 [⟨.push, [.literal 0xD0]⟩,
      ⟨.add, [.shortReference 7, .reference (.ofNat .word 513)]⟩] (by decide)
  · exact (not_congr (decode_inverts_encode.1 .trailing (.literal 0xD0) [] [0x01])).mpr (by decide)
  · intro begins
    have same := decode_inverts_encode.2.2 _ _ (by decide) (by decide) begins
    revert same
    decide

theorem flatMap_encode_of_decode {code : List UInt8} {entries : Listing}
    (decoded : decode code = .ok entries) :
    entries.flatMap (fun e => e.instruction.encode) = code := by
  obtain ⟨is, _, rfl, rfl⟩ := decode_eq_ok_iff.mp decoded
  exact flatMap_ofInstructions 0 is Instruction.encode

/-- Writing gives back what was read: the listing of a code tiles it without gap or overlap. -/
theorem encode_inverts_decode {code : List UInt8} {entries : Listing}
    (decoded : decode code = .ok entries) :
    (∀ e ∈ entries, e.instruction.Encodable) ∧
    (∀ e, entries.head? = some e → e.offset = 0) ∧
    (∀ (k : Nat) (e next : Entry), entries[k]? = some e → entries[k + 1]? = some next →
      next.offset = e.offset + e.instruction.encodedLength) ∧
    (∀ e, entries.getLast? = some e → e.offset + e.instruction.encodedLength = code.length) ∧
    entries.flatMap (fun e => e.instruction.encode) = code := by
  obtain ⟨is, encodable, rfl, rfl⟩ := decode_eq_ok_iff.mp decoded
  refine ⟨?_, ?_, ?_, ?_, ?_⟩
  · intro e member
    exact encodable e.instruction (instruction_mem_of_mem member)
  · intro e first
    rw [List.head?_eq_getElem?] at first
    simpa using (getElem?_ofInstructions.mp first).2
  · intro k e next here there
    exact offset_of_next here there
  · intro e last
    simpa using end_of_getLast? last
  · exact flatMap_encode_of_decode decoded

theorem encode_inverts_decode_references :
    decode [0xFD, 0xD0, 0xA0, 0xC0, 0x07, 0xC0, 0xD1, 0x02, 0x01] =
      .ok [⟨0, ⟨.push, [.literal 0xD0]⟩⟩,
        ⟨2, ⟨.add, [.shortReference 7, .reference (.ofNat .word 513)]⟩⟩] ∧
    [(⟨0, ⟨.push, [.literal 0xD0]⟩⟩ : Entry),
        ⟨2, ⟨.add, [.shortReference 7, .reference (.ofNat .word 513)]⟩⟩].flatMap
        (fun e => e.instruction.encode) =
      [0xFD, 0xD0, 0xA0, 0xC0, 0x07, 0xC0, 0xD1, 0x02, 0x01] := by
  have decoded : decode [0xFD, 0xD0, 0xA0, 0xC0, 0x07, 0xC0, 0xD1, 0x02, 0x01] =
      .ok [⟨0, ⟨.push, [.literal 0xD0]⟩⟩,
        ⟨2, ⟨.add, [.shortReference 7, .reference (.ofNat .word 513)]⟩⟩] := by cbv
  exact ⟨decoded, (encode_inverts_decode decoded).2.2.2.2⟩

end Listing
end OctetMachine
