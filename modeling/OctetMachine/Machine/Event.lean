import OctetMachine.Instruction.Text
import OctetMachine.Machine.Basic

/-! What a machine logs. -/
namespace OctetMachine

inductive EventLevel where
  | trace | debug | warn
deriving DecidableEq, Repr

inductive Event where
  /-- An instruction is about to be executed, after so many others. -/
  | executing (cycle : UInt64) (pc : Nat) (instruction : Instruction)
  /-- An instruction had no effect because of a recoverable fault. -/
  | skipped (pc : Nat) (instruction : Instruction) (fault : Fault)
  | halted (reason : HaltReason) (cycles : UInt64) (pc : Nat)
  | failed (cycles : UInt64) (fault : Fault)
deriving DecidableEq, Repr

namespace Event

def level : Event → EventLevel
  | executing .. => .trace
  | skipped .. => .warn
  | halted .. => .debug
  | failed .. => .debug

def message : Event → String
  | executing _ _ i => i.text
  | skipped _ _ fault => "skipping instruction: " ++ fault.message
  | halted .. => "VM halted"
  | failed _ fault => "execution failed: " ++ fault.message

end Event
end OctetMachine
