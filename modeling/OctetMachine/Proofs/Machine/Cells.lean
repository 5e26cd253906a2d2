import Mathlib
import OctetMachine.Proofs.Machine.Invariant

/-! Memory cell by cell. A write puts a value's bytes into the cells from an address on, most
significant first, and no other cell notices. -/
namespace OctetMachine.Memory

theorem getElem?_overwrite {address : Nat} {bytes : List UInt8} {cells : Array UInt8}
    (inside : address + bytes.length ≤ cells.size) (place : Nat) :
    (overwrite address bytes cells)[place]? =
      if address ≤ place ∧ place < address + bytes.length then bytes[place - address]?
      else cells[place]? := by
  induction bytes generalizing address cells with
  | nil =>
    rw [overwrite, if_neg]
    rw [List.length_nil]
    omega
  | cons b bytes ih =>
    rw [List.length_cons] at inside
    have room : address + 1 + bytes.length ≤ (cells.setIfInBounds address b).size := by
      rw [Array.size_setIfInBounds]
      omega
    rw [overwrite, ih room, List.length_cons]
    rcases Nat.lt_trichotomy place address with before | rfl | behind
    · rw [if_neg (by omega), if_neg (by omega), Array.getElem?_setIfInBounds_ne (by omega)]
    · rw [if_neg (by omega), if_pos (by omega), Nat.sub_self, List.getElem?_cons_zero,
        Array.getElem?_setIfInBounds_self_of_lt (by omega)]
    · obtain ⟨k, rfl⟩ := Nat.exists_eq_add_of_lt behind
      have first : address + k + 1 - (address + 1) = k := by omega
      have second : address + k + 1 - address = k + 1 := by omega
      rw [Array.getElem?_setIfInBounds_ne (by omega), first, second, List.getElem?_cons_succ]
      exact if_congr (by omega) rfl rfl

/-- The memory `after` is the memory `before` with some bytes at an address, all within it. -/
structure Rewritten (before : Memory) (address : Nat) (bytes : List UInt8) (after : Memory) :
    Prop where
  inside : address + bytes.length ≤ before.size
  size : after.size = before.size
  written : ∀ k < bytes.length, after.cells[address + k]? = bytes[k]?
  kept : ∀ place, place < address ∨ address + bytes.length ≤ place →
    after.cells[place]? = before.cells[place]?

theorem Rewritten.getElem? {before after : Memory} {address : Nat} {bytes : List UInt8}
    (rewritten : before.Rewritten address bytes after) (place : Nat) :
    after.cells[place]? =
      if address ≤ place ∧ place < address + bytes.length then bytes[place - address]?
      else before.cells[place]? := by
  split
  · rename_i within
    have cell := rewritten.written (place - address) (by omega)
    rwa [Nat.add_sub_cancel' within.1] at cell
  · rename_i beyond
    exact rewritten.kept place (by omega)

theorem holds_iff {m : Memory} {address : Nat} {v : Value} :
    m.Holds address v.width ↔ address + v.bytes.length ≤ m.size := by
  rw [Holds, v.length_bytes]

/-- Writing a value rewrites its bytes, and nothing else does. -/
theorem rewritten_iff {before after : Memory} {address : Nat} {v : Value} :
    before.Rewritten address v.bytes after ↔
      before.Holds address v.width ∧ after = before.put address v := by
  rw [holds_iff]
  constructor
  · intro rewritten
    refine ⟨rewritten.inside, ?_⟩
    have cells : after.cells = (before.put address v).cells := by
      apply Array.ext_getElem?
      intro place
      rw [rewritten.getElem?]
      exact (getElem?_overwrite rewritten.inside place).symm
    cases after
    cases cells
    rfl
  · rintro ⟨inside, rfl⟩
    refine ⟨inside, size_put before address v, fun k within => ?_, fun place beyond => ?_⟩
    · rw [put, getElem?_overwrite inside, if_pos (by omega), Nat.add_sub_cancel_left]
    · rw [put, getElem?_overwrite inside, if_neg (by omega)]

end OctetMachine.Memory
