import OctetMachine.Instruction.Basic
import OctetMachine.Tag

/-! Instructions as bytes: the opcode's byte, then the bytes of each operand. -/
namespace OctetMachine

namespace Operand

def encode : Operand → List UInt8
  | literal b => [b]
  | top => [Tag.top.byte]
  | reference address => Tag.ref.byte :: (Tag.sized address.width).byte :: address.bytes
  | shortReference address => [Tag.ref.byte, address]
  | immediate value => (Tag.sized value.width).byte :: value.bytes

def encodedLength : Operand → Nat
  | literal _ | top => 1
  | shortReference _ => 2
  | reference address => 2 + address.width.bytes
  | immediate value => 1 + value.width.bytes

/-- The length of operands side by side. -/
def totalLength (os : List Operand) : Nat :=
  os.foldr (fun o length => o.encodedLength + length) 0

/-- Whether an operand's bytes, standing in this slot, read back as the same operand. -/
def isEncodableIn (slot : Slot) : Operand → Bool
  | literal b =>
    match slot with
    | .leading => !Tag.shadowsLeading b
    | .trailing => !Tag.shadowsTrailing b
  | top | reference _ => true
  | shortReference address => (Tag.widthOf? address).isNone
  | immediate _ => slot == .trailing

/-- Whether there is one operand for each slot, and each can stand in its own. -/
def areEncodableIn : List Slot → List Operand → Bool
  | [], [] => true
  | slot :: slots, o :: os => o.isEncodableIn slot && areEncodableIn slots os
  | _, _ => false

@[simp] theorem length_encode (o : Operand) : o.encode.length = o.encodedLength := by
  cases o <;> simp [encode, encodedLength, Value.length_bytes] <;> omega

@[simp] theorem totalLength_nil : totalLength [] = 0 := rfl

@[simp] theorem totalLength_cons (o : Operand) (os : List Operand) :
    totalLength (o :: os) = o.encodedLength + totalLength os := rfl

@[simp] theorem length_flatMap_encode (os : List Operand) :
    (os.flatMap encode).length = totalLength os := by
  induction os with
  | nil => rfl
  | cons o os ih => rw [List.flatMap_cons, List.length_append, length_encode, ih, totalLength_cons]

end Operand

namespace Instruction

def encode (i : Instruction) : List UInt8 :=
  i.opcode.byte :: i.operands.flatMap Operand.encode

def encodedLength (i : Instruction) : Nat := 1 + Operand.totalLength i.operands

/-- Whether an instruction's bytes read back as the same instruction. -/
def isEncodable (i : Instruction) : Bool := Operand.areEncodableIn i.opcode.slots i.operands

@[simp] theorem length_encode (i : Instruction) : i.encode.length = i.encodedLength := by
  rw [encode, List.length_cons, Operand.length_flatMap_encode, encodedLength, Nat.add_comm]

end Instruction
end OctetMachine
