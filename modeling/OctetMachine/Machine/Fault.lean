import OctetMachine.Instruction.Decoding

/-! What can go wrong while a program runs. -/
namespace OctetMachine

/-- A fault; `pc` is the offset of the instruction at fault. -/
inductive Fault where
  | invalidOpcode (opcode : UInt8) (pc : Nat)
  | operandTypeMismatch (expected found : Width) (pc : Nat)
  | divisionByZero (pc : Nat)
  | outOfBounds (address : Nat) (width : Width)
  | stackOverflow (capacity : Nat)
  | stackUnderflow
  | truncatedInstruction (pc : Nat)
  /-- The number of operands is not the opcode's. -/
  | malformedInstruction (pc : Nat)
deriving DecidableEq, Repr

namespace Fault

def ofDecodeError : DecodeError → Fault
  | .unknownOpcode byte offset => invalidOpcode byte offset
  | .truncated offset => truncatedInstruction offset

def isRecoverable : Fault → Bool
  | operandTypeMismatch .. => true
  | _ => false

def message : Fault → String
  | invalidOpcode opcode pc =>
    "Invalid opcode 0x" ++ String.ofList (Text.hexByte opcode) ++ s!" at PC {pc}"
  | operandTypeMismatch expected found pc =>
    s!"Operand type mismatch at PC {pc}: expected " ++ expected.keyword ++ ", found " ++ found.keyword
  | divisionByZero pc => s!"Division by zero at PC {pc}"
  | outOfBounds address w => s!"Memory out of bounds: address {address}, width " ++ w.keyword
  | stackOverflow capacity => s!"Stack overflow: capacity {capacity} bytes"
  | stackUnderflow => "Stack underflow"
  | truncatedInstruction pc => s!"Truncated instruction at PC {pc}"
  | malformedInstruction pc => s!"Malformed instruction at PC {pc}"

end Fault
end OctetMachine
