import OctetMachine.Value.Comparison
import OctetMachine.Value.Componentwise

/-! The operation codes: their bytes, mnemonics and the actions that they stand for. -/
namespace OctetMachine

/-- What an instruction does, apart from its operands. -/
inductive Action where
  /-- Store a value; with a width, only a value of that width. -/
  | move (width : Option Width)
  | push
  | pop
  | jump
  /-- Jump when a relation holds. -/
  | branch (relation : Comparison)
  /-- Combine a memory byte with a value, in place. -/
  | combine (operation : Arithmetic)
  /-- Push whether a relation holds. -/
  | compare (relation : Comparison)
deriving DecidableEq, Repr

namespace Action

def arity : Action → Nat
  | move _ => 2
  | push => 1
  | pop => 0
  | jump => 1
  | branch _ => 3
  | combine _ => 2
  | compare _ => 2

end Action

inductive Opcode where
  | mov | movb | movw | movd | movq
  | push | pop
  | jmp | jeq | jle | jlt | jgt | jge
  | add | sub | mul | div
  | le | lt | ge | gt
deriving DecidableEq, Repr

namespace Opcode

def all : List Opcode :=
  [mov, movb, movw, movd, movq, push, pop, jmp, jeq, jle, jlt, jgt, jge,
    add, sub, mul, div, le, lt, ge, gt]

def byte : Opcode → UInt8
  | mov => 0xFF
  | movb => 0xEF
  | movw => 0xEE
  | movd => 0xED
  | movq => 0xEC
  | push => 0xFD
  | pop => 0xFC
  | jmp => 0xFE
  | jeq => 0xF0
  | jle => 0xF1
  | jlt => 0xF2
  | jgt => 0xF3
  | jge => 0xF4
  | add => 0xA0
  | sub => 0xA1
  | mul => 0xA2
  | div => 0xA3
  | le => 0xA8
  | lt => 0xA9
  | ge => 0xAA
  | gt => 0xAB

def ofByte? (b : UInt8) : Option Opcode := all.find? fun op => op.byte == b

def mnemonic : Opcode → String
  | mov => "MOV"
  | movb => "MOVB"
  | movw => "MOVW"
  | movd => "MOVD"
  | movq => "MOVQ"
  | push => "PUSH"
  | pop => "POP"
  | jmp => "JMP"
  | jeq => "JEQ"
  | jle => "JLE"
  | jlt => "JLT"
  | jgt => "JGT"
  | jge => "JGE"
  | add => "ADD"
  | sub => "SUB"
  | mul => "MUL"
  | div => "DIV"
  | le => "LE"
  | lt => "LT"
  | ge => "GE"
  | gt => "GT"

/-- The opcode with this mnemonic, in any mixture of cases; `MOVE` is a second spelling of `MOV`. -/
def ofMnemonic? (name : String) : Option Opcode :=
  if Text.sameSpelling "MOVE" name then some mov
  else all.find? fun op => Text.sameSpelling op.mnemonic name

def action : Opcode → Action
  | mov => .move none
  | movb => .move (some .byte)
  | movw => .move (some .word)
  | movd => .move (some .doubleWord)
  | movq => .move (some .quadWord)
  | push => .push
  | pop => .pop
  | jmp => .jump
  | jeq => .branch .equal
  | jle => .branch .lessOrEqual
  | jlt => .branch .less
  | jgt => .branch .greater
  | jge => .branch .greaterOrEqual
  | add => .combine .add
  | sub => .combine .sub
  | mul => .combine .mul
  | div => .combine .div
  | le => .compare .lessOrEqual
  | lt => .compare .less
  | ge => .compare .greaterOrEqual
  | gt => .compare .greater

def arity (op : Opcode) : Nat := op.action.arity

def moveWidth? (op : Opcode) : Option Width :=
  match op.action with
  | .move width => width
  | _ => none

def isMove (op : Opcode) : Bool :=
  match op.action with
  | .move _ => true
  | _ => false

def isArithmetic (op : Opcode) : Bool :=
  match op.action with
  | .combine _ => true
  | _ => false

/-- Whether the first operand names the memory cell that is written. -/
def writesDestination (op : Opcode) : Bool := op.isMove || op.isArithmetic

/-- The relation that a comparing or branching opcode tests. -/
def comparison? (op : Opcode) : Option Comparison :=
  match op.action with
  | .branch relation | .compare relation => some relation
  | _ => none

theorem byte_injective {a b : Opcode} (same : a.byte = b.byte) : a = b := by
  revert same
  cases a <;> cases b <;> decide

@[simp] theorem ofByte?_byte (op : Opcode) : ofByte? op.byte = some op := by
  cases op <;> rfl

theorem ofByte?_eq_some_iff {b : UInt8} {op : Opcode} : ofByte? b = some op ↔ b = op.byte := by
  constructor
  · intro found
    have same := List.find?_some found
    exact (eq_of_beq same).symm
  · rintro rfl
    exact ofByte?_byte op

end Opcode
end OctetMachine
