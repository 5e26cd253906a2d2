import OctetMachine.Code.Cursor
import OctetMachine.Machine.Memory
import OctetMachine.Machine.Stack

/-! Machines: code under execution with its stack, memory and history. -/
namespace OctetMachine

inductive HaltReason where
  /-- The instruction pointer reached or passed the end of the code. -/
  | endOfProgram
  /-- As many instructions were executed as the configuration allows. -/
  | cycleLimit
  | faulted
deriving DecidableEq, Repr

structure Config where
  /-- The number of instructions after which a machine halts. -/
  maxCycles : UInt64 := 1000000
  trace : Bool := false
  /-- Whether a mismatch of operand types halts the machine. -/
  strictOperands : Bool := false
deriving DecidableEq, Repr

structure Machine where
  cursor : Cursor
  stack : Stack := .empty
  memory : Memory := .zeros Memory.defaultSize
  /-- The instructions executed so far, the skipped ones among them. -/
  cycles : UInt64 := 0
  halt? : Option HaltReason := none
  /-- The faults of skipped instructions, in order. -/
  faults : Array Fault := #[]
deriving DecidableEq, Repr

/-- The machine as it was when it stopped, or was looked at. -/
structure Report where
  cycles : UInt64
  haltReason : HaltReason
  position : Nat
  stack : Stack
  memory : Memory
  faults : Array Fault
deriving DecidableEq, Repr

/-- A value of the final memory, where all its bytes lie within it. -/
def Report.read? (r : Report) (address : Nat) (w : Width) : Option Value :=
  Value.ofBytes? w (r.memory.cells.extract address (address + w.bytes)).toList

namespace Machine

/-- A fresh machine at the first byte of some code. -/
def boot (code : List UInt8) : Machine := { cursor := .ofCode code }

def isHalted (m : Machine) : Bool := m.halt?.isSome

/-- A report can be made at any time; a machine that has not halted reports the end of program. -/
def report (m : Machine) : Report where
  cycles := m.cycles
  haltReason := m.halt?.getD .endOfProgram
  position := m.cursor.position
  stack := m.stack
  memory := m.memory
  faults := m.faults

def resolve (m : Machine) : Operand → Except Fault Value
  | .literal b => .ok (.ofByte b)
  | .top => .ok (.ofByte m.stack.top)
  | .reference address => m.memory.read address.toNat address.width
  | .shortReference address => m.memory.read address.toNat .byte
  | .immediate value => .ok value

end Machine
end OctetMachine
