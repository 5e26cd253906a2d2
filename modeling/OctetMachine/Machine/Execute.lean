import OctetMachine.Machine.Basic

/-! The effect of one instruction. -/
namespace OctetMachine

/-- Changes of a machine; a failing one leaves the machine as it was at that moment. -/
abbrev Exec := EStateM Fault Machine

namespace Exec

def ofExcept {α : Type} : Except Fault α → Exec α
  | .ok a => pure a
  | .error fault => throw fault

def resolve (o : Operand) : Exec Value := do ofExcept ((← get).resolve o)

/-- The value of an operand that has to be a byte. -/
def resolveByte (pc : Nat) (o : Operand) : Exec UInt8 := do
  let v ← resolve o
  match v.byte? with
  | some b => return b
  | none => throw (.operandTypeMismatch .byte v.width pc)

/-- Insist on a width, where one is asked for. -/
def requireWidth (pc : Nat) (v : Value) : Option Width → Exec Unit
  | none => pure ()
  | some w => if v.width = w then pure () else throw (.operandTypeMismatch w v.width pc)

def loadByte (address : Nat) : Exec UInt8 := do ofExcept ((← get).memory.readByte address)

/-- Write a value to memory, all its bytes or none. -/
def store (address : Nat) (v : Value) : Exec Unit := fun m =>
  if m.memory.Holds address v.width then
    .ok () { m with memory := m.memory.put address v }
  else .error (.outOfBounds address v.width) m

def push (v : Value) : Exec Unit := fun m =>
  match m.stack.push v with
  | .ok stack => .ok () { m with stack }
  | .error fault => .error fault m

def pop : Exec Unit := fun m =>
  match m.stack.pop with
  | .ok (_, stack) => .ok () { m with stack }
  | .error fault => .error fault m

def jump (target : UInt8) : Exec Unit :=
  modify fun m => { m with cursor := m.cursor.moveTo target.toNat }

end Exec

open Exec in
/-- Execute an instruction that was fetched from offset `pc`. The instruction pointer, already behind
the instruction, is moved by jumps only. -/
def execute (i : Instruction) (pc : Nat) : Exec Unit :=
  match i.opcode.action, i.operands with
  | .move width, [destination, source] => do
    let address ← resolveByte pc destination
    let value ← resolve source
    requireWidth pc value width
    store address.toNat value
  | .push, [operand] => do push (← resolve operand)
  | .pop, [] => pop
  | .jump, [target] => do jump (← resolveByte pc target)
  | .combine operation, [destination, source] => do
    let address ← resolveByte pc destination
    let right ← resolve source
    let left ← loadByte address.toNat
    match operation.apply? (.ofByte left) right with
    | some result => store address.toNat result
    | none => throw (.divisionByZero pc)
  | .compare relation, [left, right] => do
    let a ← resolve left
    let b ← resolve right
    push (.ofByte (if relation.holds a b then 1 else 0))
  | .branch relation, [left, right, target] => do
    let a ← resolve left
    let b ← resolve right
    let destination ← resolveByte pc target
    if relation.holds a b then jump destination
  | _, _ => throw (.malformedInstruction pc)

end OctetMachine
