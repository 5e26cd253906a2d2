import OctetMachine.Instruction.Decoding
import OctetMachine.Parts

/-! Reading is the inverse of writing. What is written for an encodable instruction reads back as it,
whatever follows; and what is read as an instruction was written for it, byte for byte. -/
namespace OctetMachine

/-- Between two inputs lie exactly these bytes. -/
structure Input.Spans (input rest : Input) (bytes : List UInt8) : Prop where
  bytes_eq : input.bytes = bytes ++ rest.bytes
  offset_eq : rest.offset = input.offset + bytes.length

namespace Input.Spans

theorem refl (input : Input) : Spans input input [] := ⟨rfl, rfl⟩

theorem append {input middle rest : Input} {a b : List UInt8} (first : Spans input middle a)
    (last : Spans middle rest b) : Spans input rest (a ++ b) := by
  refine ⟨?_, ?_⟩
  · rw [first.bytes_eq, last.bytes_eq, List.append_assoc]
  · rw [last.offset_eq, first.offset_eq, List.length_append, Nat.add_assoc]

theorem length_eq {input rest : Input} {bytes : List UInt8} (spans : Spans input rest bytes) :
    input.bytes.length = bytes.length + rest.bytes.length := by
  rw [spans.bytes_eq, List.length_append]

end Input.Spans

theorem Input.spans_of_readByte {input rest : Input} {b : UInt8}
    (read : input.readByte = .ok (b, rest)) : Spans input rest [b] := by
  obtain ⟨offset, bytes⟩ := input
  cases bytes with
  | nil => cases read
  | cons a bytes =>
    cases read
    exact ⟨rfl, rfl⟩

theorem Input.spans_of_readValue {input rest : Input} {w : Width} {v : Value}
    (read : input.readValue w = .ok (v, rest)) : Spans input rest v.bytes ∧ v.width = w := by
  simp only [readValue] at read
  split at read
  · rename_i found value
    cases read
    simp only [Value.ofBytes?] at value
    split at value
    · rename_i size
      cases value
      refine ⟨⟨(List.take_append_drop _ _).symm, ?_⟩, rfl⟩
      dsimp only
      rw [size]
    · cases value
  · cases read

namespace Operand

/-- The bytes of an operand that was read are those that are written for it. -/
theorem spans_of_decode {slot : Slot} {input rest : Input} {o : Operand}
    (decoded : decode slot input = .ok (o, rest)) :
    Input.Spans input rest o.encode ∧ o.isEncodableIn slot = true := by
  obtain ⟨⟨b, after⟩, first, read⟩ := ok_bind_iff.mp decoded
  have front := Input.spans_of_readByte first
  clear decoded first
  dsimp only at read
  split at read
  · rename_i tag
    cases read
    rw [Tag.ofByte?_eq_some_iff.mp tag] at front
    exact ⟨front, rfl⟩
  · rename_i tag
    rw [Tag.ofByte?_eq_some_iff.mp tag] at front
    obtain ⟨⟨a, last⟩, second, found⟩ := ok_bind_iff.mp read
    have middle := front.append (Input.spans_of_readByte second)
    clear read
    dsimp only at found
    split at found
    · rename_i w sized
      obtain ⟨⟨v, final⟩, third, done⟩ := ok_bind_iff.mp found
      obtain ⟨value, same⟩ := Input.spans_of_readValue third
      cases done
      rw [Tag.eq_byte_of_widthOf? sized, ← same] at middle
      exact ⟨middle.append value, rfl⟩
    · rename_i bare
      cases found
      exact ⟨middle, by simp [isEncodableIn, bare]⟩
  · rename_i w tag
    obtain ⟨⟨v, final⟩, second, done⟩ := ok_bind_iff.mp read
    obtain ⟨value, same⟩ := Input.spans_of_readValue second
    cases done
    rw [Tag.ofByte?_eq_some_iff.mp tag, ← same] at front
    exact ⟨front.append value, rfl⟩
  · rename_i slot _ _ notTop notRef notSized
    cases read
    refine ⟨front, ?_⟩
    have unshadowed : Tag.shadowsLeading b = false := by
      rw [Bool.eq_false_iff, ne_eq, Tag.shadowsLeading_iff]
      rintro (top | ref)
      · exact notTop top
      · exact notRef ref
    cases slot with
    | leading => simp [isEncodableIn, unshadowed]
    | trailing =>
      have bare : Tag.widthOf? b = none := by
        cases sized : Tag.widthOf? b with
        | none => rfl
        | some w =>
          rw [Tag.eq_byte_of_widthOf? sized] at notSized
          exact absurd rfl (notSized w (Tag.ofByte?_byte _))
      simp [isEncodableIn, Tag.shadowsTrailing, unshadowed, bare]

/-- An operand that can stand in a slot is read back from its bytes, whatever follows them. -/
theorem decode_encode {slot : Slot} {o : Operand} (encodable : o.isEncodableIn slot = true)
    (offset : Nat) (rest : List UInt8) :
    decode slot ⟨offset, o.encode ++ rest⟩ = .ok (o, ⟨offset + o.encodedLength, rest⟩) := by
  cases o with
  | literal b =>
    have unshadowed : Tag.shadowsLeading b = false := by
      cases slot <;> simp_all [isEncodableIn, Tag.shadowsTrailing]
    have notTop : Tag.ofByte? b ≠ some .top := fun top => by
      simp [Tag.shadowsLeading_iff.mpr (.inl top)] at unshadowed
    have notRef : Tag.ofByte? b ≠ some .ref := fun ref => by
      simp [Tag.shadowsLeading_iff.mpr (.inr ref)] at unshadowed
    have notSized : ∀ w, Tag.ofByte? b = some (.sized w) → slot ≠ .trailing := by
      rintro w sized rfl
      simp [isEncodableIn, Tag.shadowsTrailing, Tag.widthOf?, Tag.width?, sized] at encodable
    simp only [decode, encode, List.singleton_append, Input.readByte_cons, bind, Except.bind]
    rfl
  | top => rfl
  | reference address =>
    have size : offset + 1 + 1 + address.width.bytes = offset + (2 + address.width.bytes) := by
      omega
    simp only [decode, encode, List.cons_append, Input.readByte_cons, Tag.ofByte?_byte,
      Tag.widthOf?_byte_sized, Input.readValue_append, bind, Except.bind, pure, Except.pure,
      encodedLength, size]
  | shortReference address =>
    simp only [isEncodableIn, Option.isNone_iff_eq_none] at encodable
    simp only [decode, encode, List.cons_append, List.nil_append, Input.readByte_cons,
      Tag.ofByte?_byte, encodable, bind, Except.bind, pure, Except.pure, encodedLength,
      Nat.add_assoc]
  | immediate value =>
    cases slot with
    | leading => cases encodable
    | trailing =>
      simp only [decode, encode, List.cons_append, Input.readByte_cons, Tag.ofByte?_byte,
        Input.readValue_append, bind, Except.bind, pure, Except.pure, encodedLength,
        Nat.add_assoc]

theorem spans_of_decodeAll {slots : List Slot} {input rest : Input} {os : List Operand}
    (decoded : decodeAll slots input = .ok (os, rest)) :
    Input.Spans input rest (os.flatMap encode) ∧ areEncodableIn slots os = true := by
  induction slots generalizing input os with
  | nil =>
    cases decoded
    exact ⟨.refl _, rfl⟩
  | cons slot slots ih =>
    obtain ⟨⟨o, after⟩, first, read⟩ := ok_bind_iff.mp decoded
    obtain ⟨⟨tail, final⟩, others, done⟩ := ok_bind_iff.mp read
    cases done
    obtain ⟨front, encodable⟩ := spans_of_decode first
    obtain ⟨back, encodables⟩ := ih others
    exact ⟨front.append back, by simp [areEncodableIn, encodable, encodables]⟩

theorem decodeAll_encode {slots : List Slot} {os : List Operand}
    (encodable : areEncodableIn slots os = true) (offset : Nat) (rest : List UInt8) :
    decodeAll slots ⟨offset, os.flatMap encode ++ rest⟩ =
      .ok (os, ⟨offset + totalLength os, rest⟩) := by
  induction slots generalizing os offset with
  | nil =>
    cases os with
    | nil => rfl
    | cons o os => cases encodable
  | cons slot slots ih =>
    cases os with
    | nil => cases encodable
    | cons o os =>
      simp only [areEncodableIn, Bool.and_eq_true] at encodable
      simp only [decodeAll, List.flatMap_cons, List.append_assoc, decode_encode encodable.1,
        ih encodable.2, bind, Except.bind, pure, Except.pure, totalLength_cons, Nat.add_assoc]

end Operand

namespace Instruction

theorem spans_of_decode {input rest : Input} {i : Instruction}
    (decoded : decode input = .ok (i, rest)) :
    Input.Spans input rest i.encode ∧ i.isEncodable = true := by
  simp only [decode] at decoded
  split at decoded
  · cases decoded
  · rename_i first
    split at decoded
    · cases decoded
    · rename_i op known
      split at decoded
      · cases decoded
      · rename_i others
        cases decoded
        obtain ⟨back, encodable⟩ := Operand.spans_of_decodeAll others
        have front := Input.spans_of_readByte first
        rw [Opcode.ofByte?_eq_some_iff.mp known] at front
        exact ⟨front.append back, encodable⟩

theorem decode_encode {i : Instruction} (encodable : i.isEncodable = true) (offset : Nat)
    (rest : List UInt8) :
    decode ⟨offset, i.encode ++ rest⟩ = .ok (i, ⟨offset + i.encodedLength, rest⟩) := by
  simp only [decode, encode, List.cons_append, Input.readByte_cons, Opcode.ofByte?_byte,
    Operand.decodeAll_encode encodable, encodedLength, Nat.add_assoc]

/-- Every instruction that is read takes at least one byte. -/
theorem length_of_decode {input rest : Input} {i : Instruction}
    (decoded : decode input = .ok (i, rest)) : rest.bytes.length < input.bytes.length := by
  have size := (spans_of_decode decoded).1.length_eq
  rw [encode, List.length_cons] at size
  omega

end Instruction
end OctetMachine
