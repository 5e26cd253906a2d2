import OctetMachine.Machine.Fault

/-! The stack of bytes. -/
namespace OctetMachine

/-- The bytes on the stack, bottom first. -/
structure Stack where
  bytes : Array UInt8
deriving DecidableEq, Repr

namespace Stack

/-- The number of bytes that pushing never exceeds. -/
def capacity : Nat := 1024

def empty : Stack := ⟨#[]⟩

def size (s : Stack) : Nat := s.bytes.size

/-- Push all bytes of a value, so that its low byte is on top, or none of them. -/
def push (s : Stack) (v : Value) : Except Fault Stack :=
  if capacity < s.size + v.width.bytes then .error (.stackOverflow capacity)
  else .ok ⟨s.bytes ++ v.bytes⟩

def pop (s : Stack) : Except Fault (UInt8 × Stack) :=
  match s.bytes.back? with
  | some b => .ok (b, ⟨s.bytes.pop⟩)
  | none => .error .stackUnderflow

/-- The top byte; zero when the stack is empty. -/
def top (s : Stack) : UInt8 := s.bytes.back?.getD 0

end Stack
end OctetMachine
