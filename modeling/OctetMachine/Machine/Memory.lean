import OctetMachine.Machine.Fault

/-! Byte-addressed memory. A value lies in memory with its most significant byte first; an access is
in bounds when all its bytes are. -/
namespace OctetMachine

structure Memory where
  cells : Array UInt8
deriving DecidableEq, Repr

namespace Memory

/-- The number of bytes of a machine's memory. -/
def defaultSize : Nat := 1024

def zeros (size : Nat) : Memory := ⟨Array.replicate size 0⟩

def size (m : Memory) : Nat := m.cells.size

/-- Whether a value of this width at this address lies within memory. -/
def Holds (m : Memory) (address : Nat) (w : Width) : Prop := address + w.bytes ≤ m.size

instance (m : Memory) (address : Nat) (w : Width) : Decidable (m.Holds address w) :=
  inferInstanceAs (Decidable (address + w.bytes ≤ m.size))

def read (m : Memory) (address : Nat) (w : Width) : Except Fault Value :=
  if h : m.Holds address w then
    .ok ⟨w, (m.cells.extract address (address + w.bytes)).toList, by
      simp only [Holds, size] at h
      simp; omega⟩
  else .error (.outOfBounds address w)

def readByte (m : Memory) (address : Nat) : Except Fault UInt8 :=
  match m.cells[address]? with
  | some b => .ok b
  | none => .error (.outOfBounds address .byte)

/-- Put bytes into the cells from an address on; what falls beyond the cells is dropped. -/
def overwrite (address : Nat) : List UInt8 → Array UInt8 → Array UInt8
  | [], cells => cells
  | b :: bytes, cells => overwrite (address + 1) bytes (cells.setIfInBounds address b)

/-- The memory with a value's bytes at an address. -/
def put (m : Memory) (address : Nat) (v : Value) : Memory :=
  ⟨overwrite address v.bytes m.cells⟩

theorem exists_read_iff {m : Memory} {address : Nat} {w : Width} :
    (∃ v, m.read address w = .ok v) ↔ m.Holds address w := by
  unfold read
  split <;> simp [*]

theorem read_eq_error_iff {m : Memory} {address : Nat} {w : Width} {fault : Fault} :
    m.read address w = .error fault ↔ ¬ m.Holds address w ∧ fault = .outOfBounds address w := by
  unfold read
  split <;> simp [*, eq_comm]

theorem readByte_eq_ok_iff {m : Memory} {address : Nat} {b : UInt8} :
    m.readByte address = .ok b ↔ m.cells[address]? = some b := by
  unfold readByte
  cases m.cells[address]? <;> simp

end Memory
end OctetMachine
