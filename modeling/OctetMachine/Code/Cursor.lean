import OctetMachine.Instruction.Decoding

/-! Code with a place in it. The place may lie anywhere, also beyond the end. -/
namespace OctetMachine

@[ext]
structure Cursor where
  code : List UInt8
  position : Nat
deriving DecidableEq, Repr

namespace Cursor

def ofCode (code : List UInt8) : Cursor := ⟨code, 0⟩

/-- What lies ahead of the cursor. -/
def input (c : Cursor) : Input := ⟨c.position, c.code.drop c.position⟩

def atEnd (c : Cursor) : Bool := c.input.bytes.isEmpty

def remaining (c : Cursor) : Nat := c.code.length - c.position

def peek? (c : Cursor) : Option UInt8 := c.code[c.position]?

def moveTo (c : Cursor) (position : Nat) : Cursor := { c with position }

def rewind (c : Cursor) : Cursor := c.moveTo 0

/-- Read with one of the readers of inputs and move behind what was read. A read that fails leaves
the cursor where its failing part began. -/
def read {α : Type} (c : Cursor) (reader : Input → Except ReadError (α × Input)) :
    Except ReadError α × Cursor :=
  match reader c.input with
  | .ok (a, rest) => (.ok a, c.moveTo rest.offset)
  | .error e => (.error e, c.moveTo e.offset)

def readByte (c : Cursor) : Except ReadError UInt8 × Cursor := c.read Input.readByte

/-- Read so many bytes. Beyond the end there is nothing to read, not even the empty byte string. -/
def readBytes (c : Cursor) (count : Nat) : Except ReadError (List UInt8) × Cursor :=
  if count = 0 ∧ c.code.length < c.position then (.error (.outside c.position), c)
  else c.read fun input => input.readBytes count

def readValue (c : Cursor) (w : Width) : Except ReadError Value × Cursor :=
  c.read fun input => input.readValue w

def readOperand (c : Cursor) (slot : Slot) : Except ReadError Operand × Cursor :=
  c.read (Operand.decode slot)

/-- The instruction at the cursor, and the cursor behind it. -/
def fetch (c : Cursor) : Except DecodeError (Instruction × Cursor) :=
  match Instruction.decode c.input with
  | .ok (i, rest) => .ok (i, c.moveTo rest.offset)
  | .error e => .error e

theorem atEnd_iff {c : Cursor} : c.atEnd = true ↔ c.code.length ≤ c.position := by
  simp [atEnd, input]

end Cursor
end OctetMachine
