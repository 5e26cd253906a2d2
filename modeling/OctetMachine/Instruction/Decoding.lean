import OctetMachine.Code.Input
import OctetMachine.Instruction.Encoding
import OctetMachine.Text.Hex

/-! Instructions read from bytes. -/
namespace OctetMachine

namespace Operand

/-- Read one operand. A tag byte decides what follows; any other byte is a literal. A width's tag
counts as one only after a reference's tag or in a trailing slot. -/
def decode (slot : Slot) (input : Input) : Except ReadError (Operand × Input) := do
  let (b, rest) ← input.readByte
  match Tag.ofByte? b, slot with
  | some .top, _ => return (.top, rest)
  | some .ref, _ =>
    let (a, rest) ← rest.readByte
    match Tag.widthOf? a with
    | some w =>
      let (address, rest) ← rest.readValue w
      return (.reference address, rest)
    | none => return (.shortReference a, rest)
  | some (.sized w), .trailing =>
    let (value, rest) ← rest.readValue w
    return (.immediate value, rest)
  | _, _ => return (.literal b, rest)

def decodeAll : List Slot → Input → Except ReadError (List Operand × Input)
  | [], input => return ([], input)
  | slot :: slots, input => do
    let (o, rest) ← decode slot input
    let (os, rest) ← decodeAll slots rest
    return (o :: os, rest)

end Operand

/-- Why the bytes at an offset are no instruction. -/
inductive DecodeError where
  | unknownOpcode (byte : UInt8) (offset : Nat)
  /-- The code ends within the instruction. -/
  | truncated (offset : Nat)
deriving DecidableEq, Repr

namespace DecodeError

/-- Where the instruction would have begun. -/
def offset : DecodeError → Nat
  | unknownOpcode _ offset => offset
  | truncated offset => offset

def message : DecodeError → String
  | unknownOpcode byte offset =>
    "Unknown opcode 0x" ++ String.ofList (Text.hexByte byte) ++ s!" at offset {offset}"
  | truncated offset => s!"Truncated instruction at offset {offset}"

end DecodeError

def Instruction.decode (input : Input) : Except DecodeError (Instruction × Input) :=
  match input.readByte with
  | .error _ => .error (.truncated input.offset)
  | .ok (b, rest) =>
    match Opcode.ofByte? b with
    | none => .error (.unknownOpcode b input.offset)
    | some op =>
      match Operand.decodeAll op.slots rest with
      | .error _ => .error (.truncated input.offset)
      | .ok (operands, rest) => .ok (⟨op, operands⟩, rest)

end OctetMachine
