import OctetMachine.Opcode

/-! Operands and instructions. -/
namespace OctetMachine

/-- The place of an operand in its instruction. Sized immediates need a trailing slot. -/
inductive Slot where
  | leading
  | trailing
deriving DecidableEq, Repr

/-- The first operand leads and the others trail. -/
def Slot.ofIndex : Nat → Slot
  | 0 => leading
  | _ + 1 => trailing

inductive Operand where
  /-- A byte that stands for itself. -/
  | literal (byte : UInt8)
  /-- The top byte of the stack. -/
  | top
  /-- The memory at an address, read in the width of the address. -/
  | reference (address : Value)
  /-- The memory byte at a one-byte address, written without a width. -/
  | shortReference (address : UInt8)
  /-- A value that stands for itself. -/
  | immediate (value : Value)
deriving DecidableEq, Repr

/-- An opcode with operands; their number is not bound to the opcode's. -/
@[ext]
structure Instruction where
  opcode : Opcode
  operands : List Operand
deriving DecidableEq, Repr

def Instruction.HasValidArity (i : Instruction) : Prop := i.operands.length = i.opcode.arity

instance (i : Instruction) : Decidable i.HasValidArity :=
  inferInstanceAs (Decidable (i.operands.length = i.opcode.arity))

def Opcode.slots (op : Opcode) : List Slot := (List.range op.arity).map Slot.ofIndex

end OctetMachine
