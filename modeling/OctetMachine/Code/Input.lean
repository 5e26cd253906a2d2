import OctetMachine.Value.Basic

/-! Reading code from front to back. An input is the bytes still unread together with their offset
in the code; a read gives what it read and the input after it, or says where the code ended. -/
namespace OctetMachine

/-- The unread bytes of some code, and where they begin. -/
@[ext]
structure Input where
  offset : Nat
  bytes : List UInt8
deriving DecidableEq, Repr

/-- Why bytes could not be read. -/
inductive ReadError where
  /-- The read began here and needed so many bytes more than there were. -/
  | unexpectedEnd (offset missing : Nat)
  /-- Nothing was asked for, at a place strictly beyond the end, where there is no byte string. -/
  | outside (offset : Nat)
deriving DecidableEq, Repr

namespace ReadError

def offset : ReadError → Nat
  | unexpectedEnd offset _ => offset
  | outside offset => offset

def message : ReadError → String
  | unexpectedEnd offset missing =>
    s!"Unexpected end of bytecode at offset {offset}: {missing} more byte(s) needed"
  | outside offset => s!"Empty read beyond the end of bytecode at offset {offset}"

end ReadError

namespace Input

/-- The error of a read that asks for more than the unread bytes. -/
def shortfall (input : Input) (count : Nat) : ReadError :=
  .unexpectedEnd input.offset (count - input.bytes.length)

def readByte (input : Input) : Except ReadError (UInt8 × Input) :=
  match input.bytes with
  | [] => .error (input.shortfall 1)
  | b :: rest => .ok (b, ⟨input.offset + 1, rest⟩)

def readBytes (input : Input) (count : Nat) : Except ReadError (List UInt8 × Input) :=
  let taken := input.bytes.take count
  if taken.length = count then .ok (taken, ⟨input.offset + count, input.bytes.drop count⟩)
  else .error (input.shortfall count)

def readValue (input : Input) (w : Width) : Except ReadError (Value × Input) :=
  match Value.ofBytes? w (input.bytes.take w.bytes) with
  | some v => .ok (v, ⟨input.offset + w.bytes, input.bytes.drop w.bytes⟩)
  | none => .error (input.shortfall w.bytes)

@[simp] theorem readByte_cons (offset : Nat) (b : UInt8) (rest : List UInt8) :
    readByte ⟨offset, b :: rest⟩ = .ok (b, ⟨offset + 1, rest⟩) := rfl

@[simp] theorem readByte_nil (offset : Nat) :
    readByte ⟨offset, []⟩ = .error (.unexpectedEnd offset 1) := rfl

@[simp] theorem readValue_append (offset : Nat) (v : Value) (rest : List UInt8) :
    readValue ⟨offset, v.bytes ++ rest⟩ v.width = .ok (v, ⟨offset + v.width.bytes, rest⟩) := by
  have taken : (v.bytes ++ rest).take v.width.bytes = v.bytes := by
    rw [← v.length_bytes, List.take_left]
  have dropped : (v.bytes ++ rest).drop v.width.bytes = rest := by
    rw [← v.length_bytes, List.drop_left]
  simp [readValue, taken, dropped]

end Input
end OctetMachine
