import Mathlib
import OctetMachine.Proofs.Machine.Cells
import OctetMachine.Proofs.Value.Halves

/-! Reading memory. A read gives the bytes that memory spells from an address on. So a read behind a
write is told cell by cell, a wide read is two reads side by side, and the ways to read agree. -/
namespace OctetMachine

namespace Memory

/-- These bytes stand in memory from an address on. -/
def Spells (m : Memory) (address : Nat) (bytes : List UInt8) : Prop :=
  ∀ k < bytes.length, m.cells[address + k]? = bytes[k]?

variable {m : Memory} {address : Nat} {bytes : List UInt8} {w : Width} {v : Value}

theorem Spells.unique {others : List UInt8} (spells : m.Spells address bytes)
    (spells' : m.Spells address others) (size : bytes.length = others.length) :
    bytes = others := by
  refine List.ext_getElem? fun k => ?_
  by_cases inside : k < bytes.length
  · rw [← spells k inside, ← spells' k (size ▸ inside)]
  · rw [List.getElem?_eq_none (by omega), List.getElem?_eq_none (by omega)]

theorem Spells.holds (spells : m.Spells address v.bytes) : m.Holds address v.width := by
  have size := v.length_bytes
  have positive := v.width.bytes_pos
  have last : v.width.bytes - 1 < v.bytes.length := by omega
  have cell := spells _ last
  rw [List.getElem?_eq_getElem last] at cell
  obtain ⟨inside, -⟩ := Array.getElem?_eq_some_iff.mp cell
  change address + v.width.bytes ≤ m.cells.size
  omega

theorem spells_append_iff {front back : List UInt8} :
    m.Spells address (front ++ back) ↔
      m.Spells address front ∧ m.Spells (address + front.length) back := by
  constructor
  · intro spells
    refine ⟨fun k inside => ?_, fun k inside => ?_⟩
    · rw [spells k (by rw [List.length_append]; omega), List.getElem?_append_left inside]
    · rw [Nat.add_assoc, spells _ (by rw [List.length_append]; omega),
        List.getElem?_append_right (by omega), Nat.add_sub_cancel_left]
  · rintro ⟨first, second⟩ k inside
    rw [List.length_append] at inside
    by_cases early : k < front.length
    · rw [first k early, List.getElem?_append_left early]
    · obtain ⟨j, rfl⟩ := Nat.exists_eq_add_of_le (Nat.not_lt.mp early)
      rw [← Nat.add_assoc, second j (by omega), List.getElem?_append_right (by omega),
        Nat.add_sub_cancel_left]

theorem spells_of_read (loaded : m.read address w = .ok v) :
    v.width = w ∧ m.Spells address v.bytes := by
  unfold read at loaded
  split at loaded
  · cases loaded
    refine ⟨rfl, fun k inside => ?_⟩
    simp only [Array.length_toList, Array.size_extract] at inside
    rw [Array.getElem?_toList, Array.getElem?_extract_of_lt inside]
    exact Array.getElem?_eq_getElem (by omega)
  · cases loaded

/-- A read gives the value of the width that memory spells at the address. -/
theorem read_eq_ok_iff : m.read address w = .ok v ↔ v.width = w ∧ m.Spells address v.bytes := by
  refine ⟨spells_of_read, ?_⟩
  rintro ⟨rfl, spells⟩
  obtain ⟨u, loaded⟩ := exists_read_iff.mpr spells.holds
  obtain ⟨width, spells'⟩ := spells_of_read loaded
  have size : u.bytes.length = v.bytes.length := by rw [u.length_bytes, v.length_bytes, width]
  rw [loaded, Value.ext width (spells'.unique spells size)]

theorem spells_iff_readByte :
    m.Spells address bytes ↔
      ∀ k < bytes.length, ∃ b, m.readByte (address + k) = .ok b ∧ bytes[k]? = some b := by
  refine forall₂_congr fun k inside => ?_
  rw [List.getElem?_eq_getElem inside]
  simp [readByte_eq_ok_iff]

/-- Reading one byte as a value is reading it as a byte, with the same fault outside. -/
theorem read_byte_eq (m : Memory) (address : Nat) :
    m.read address .byte = (m.readByte address).map Value.ofByte := by
  cases loaded : m.readByte address with
  | ok b =>
    refine read_eq_ok_iff.mpr ⟨rfl, fun k inside => ?_⟩
    obtain rfl : k = 0 := Nat.lt_one_iff.mp inside
    exact readByte_eq_ok_iff.mp loaded
  | error fault =>
    unfold readByte at loaded
    split at loaded
    · cases loaded
    · rename_i none
      cases loaded
      refine read_eq_error_iff.mpr ⟨fun holds => ?_, rfl⟩
      have outside : m.size ≤ address := Array.getElem?_eq_none_iff.mp none
      exact absurd holds (Nat.not_le.mpr (Nat.lt_succ_of_le outside))

/-- A wide read is a read of the high half and, behind it, one of the low half. -/
theorem read_eq_ok_iff_halves {h : Width} (half : w.half? = some h) :
    m.read address w = .ok v ↔ ∃ high low, m.read address h = .ok high ∧
      m.read (address + h.bytes) h = .ok low ∧ Value.ofHalves? high low = some v := by
  constructor
  · intro loaded
    obtain ⟨rfl, spells⟩ := read_eq_ok_iff.mp loaded
    have wide : v.width ≠ .byte := by
      intro byte
      rw [byte] at half
      cases half
    obtain ⟨high, low, halves⟩ := Value.exists_halves wide
    obtain ⟨half', same, bytes⟩ := Value.halves_iff.mp halves
    cases half.symm.trans half'
    rw [bytes, spells_append_iff, high.length_bytes] at spells
    exact ⟨high, low, read_eq_ok_iff.mpr ⟨rfl, spells.1⟩,
      read_eq_ok_iff.mpr ⟨same.symm, spells.2⟩, halves.joined⟩
  · rintro ⟨high, low, upper, lower, joined⟩
    obtain ⟨rfl, first⟩ := read_eq_ok_iff.mp upper
    obtain ⟨-, second⟩ := read_eq_ok_iff.mp lower
    obtain ⟨half', -, bytes⟩ := Value.ofHalves?_eq_some_iff.mp joined
    refine read_eq_ok_iff.mpr ⟨?_, ?_⟩
    · rw [← Width.double?_eq_some_iff] at half half'
      exact Option.some.inj (half'.symm.trans half)
    · rw [bytes, spells_append_iff, high.length_bytes]
      exact ⟨first, second⟩

/-- Behind a write, a read sees the bytes written where it overlaps them and the old cells
elsewhere. -/
theorem Rewritten.getElem?_of_read {before after : Memory} {place : Nat} {u : Value}
    (rewritten : before.Rewritten address bytes after) (loaded : after.read place w = .ok u)
    {k : Nat} (inside : k < w.bytes) :
    u.bytes[k]? = if address ≤ place + k ∧ place + k < address + bytes.length then
      bytes[place + k - address]? else before.cells[place + k]? := by
  obtain ⟨rfl, spells⟩ := read_eq_ok_iff.mp loaded
  rw [← rewritten.getElem?, spells k (u.length_bytes ▸ inside)]

theorem Rewritten.read_eq {before after : Memory}
    (rewritten : before.Rewritten address v.bytes after) : after.read address v.width = .ok v :=
  read_eq_ok_iff.mpr ⟨rfl, rewritten.written⟩

end Memory

theorem Report.read?_eq (r : Report) (address : Nat) (w : Width) :
    r.read? address w = (r.memory.read address w).toOption := by
  cases loaded : r.memory.read address w with
  | ok v =>
    unfold Memory.read at loaded
    split at loaded
    · cases loaded
      exact Value.ofBytes?_eq_some_iff.mpr ⟨rfl, rfl⟩
    · cases loaded
  | error fault =>
    obtain ⟨outside, -⟩ := Memory.read_eq_error_iff.mp loaded
    have short : ¬ (r.memory.cells.extract address (address + w.bytes)).toList.length = w.bytes := by
      intro size
      apply outside
      have positive := w.bytes_pos
      simp only [Array.length_toList, Array.size_extract] at size
      change address + w.bytes ≤ r.memory.cells.size
      omega
    exact dif_neg short

namespace Memory

theorem store_eq_ok {m : Machine} {address : Nat} {v : Value}
    (inside : address + v.width.bytes ≤ m.memory.size) : ∃ after : Memory,
      Exec.store address v m = .ok () { m with memory := after } ∧
      m.memory.Rewritten address v.bytes after :=
  ⟨m.memory.put address v, if_pos inside, rewritten_iff.mpr ⟨inside, rfl⟩⟩

/-- The laws of memory. A write puts all bytes of its value into their cells or, where they do not
all lie within memory, is refused and changes nothing. What is read behind it comes from the write
where the two overlap and from the old cells elsewhere. A wide read is the two halves joined. To read
as a value, as a byte, or from a report succeeds within the same bounds and gives the same bytes. -/
theorem access_laws :
    (∀ (m : Machine) (address : Nat) (v : Value),
      (m.memory.size < address + v.width.bytes →
        Exec.store address v m = .error (.outOfBounds address v.width) m) ∧
      (address + v.width.bytes ≤ m.memory.size → ∃ after : Memory,
        Exec.store address v m = .ok () { m with memory := after } ∧
        m.memory.Rewritten address v.bytes after ∧
        after.read address v.width = .ok v ∧
        ∀ (place : Nat) (w : Width), place + w.bytes ≤ m.memory.size →
          ∃ u, after.read place w = .ok u ∧ u.width = w ∧ ∀ k < w.bytes, u.bytes[k]? =
            if address ≤ place + k ∧ place + k < address + v.width.bytes then
              v.bytes[place + k - address]?
            else m.memory.cells[place + k]?)) ∧
    (∀ (m : Memory) (address : Nat) (w h : Width) (v : Value), w.half? = some h →
      (m.read address w = .ok v ↔ ∃ high low, m.read address h = .ok high ∧
        m.read (address + h.bytes) h = .ok low ∧ Value.ofHalves? high low = some v)) ∧
    (∀ (m : Memory) (address : Nat) (w : Width),
      ((∃ v, m.read address w = .ok v) ↔ address + w.bytes ≤ m.size) ∧
      (m.size < address + w.bytes → m.read address w = .error (.outOfBounds address w)) ∧
      (∀ v, m.read address w = .ok v ↔ v.width = w ∧
        ∀ k < v.bytes.length, ∃ b, m.readByte (address + k) = .ok b ∧ v.bytes[k]? = some b) ∧
      m.read address .byte = (m.readByte address).map Value.ofByte ∧
      ∀ r : Report, r.memory = m → r.read? address w = (m.read address w).toOption) := by
  refine ⟨fun m address v => ⟨fun outside => ?_, fun inside => ?_⟩,
    fun m address w h v half => read_eq_ok_iff_halves half,
    fun m address w => ⟨exists_read_iff, fun outside => ?_, fun v => ?_, read_byte_eq m address, ?_⟩⟩
  · exact if_neg (Nat.not_le.mpr outside)
  · obtain ⟨after, stored, rewritten⟩ := store_eq_ok inside
    refine ⟨after, stored, rewritten, rewritten.read_eq, fun place w within => ?_⟩
    have holds : after.Holds place w := by
      unfold Holds
      rwa [rewritten.size]
    obtain ⟨u, loaded⟩ := exists_read_iff.mpr holds
    refine ⟨u, loaded, (read_eq_ok_iff.mp loaded).1, fun k least => ?_⟩
    rw [← v.length_bytes]
    exact rewritten.getElem?_of_read loaded least
  · exact read_eq_error_iff.mpr ⟨Nat.not_le.mpr outside, rfl⟩
  · rw [read_eq_ok_iff, spells_iff_readByte]
  · rintro r rfl
    exact r.read?_eq address w

/-- A word written into six cells, a double word read across its end, and accesses beyond the end. -/
theorem access_laws_overlap :
    let m : Machine := { cursor := .ofCode [], memory := ⟨#[1, 2, 3, 4, 5, 6]⟩ }
    let n : Machine := { m with memory := ⟨#[1, 0xAB, 0xCD, 4, 5, 6]⟩ }
    let v := Value.ofNat .word 0xABCD
    let u := Value.ofNat .doubleWord 0xCD040506
    (m.memory.size < 5 + 2 ∧ Exec.store 5 v m = .error (.outOfBounds 5 .word) m) ∧
    (1 + 2 ≤ m.memory.size ∧ Exec.store 1 v m = .ok () n) ∧
    (2 + 4 ≤ m.memory.size ∧ n.memory.read 2 .doubleWord = .ok u ∧
      u.bytes[0]? = v.bytes[1]? ∧ u.bytes[1]? = m.memory.cells[3]?) ∧
    (∃ high low, n.memory.read 2 .word = .ok high ∧ n.memory.read 4 .word = .ok low ∧
      Value.ofHalves? high low = some u) ∧
    (n.memory.size < 3 + 4 ∧ n.memory.read 3 .doubleWord = .error (.outOfBounds 3 .doubleWord) ∧
      n.report.read? 3 .doubleWord = (n.memory.read 3 .doubleWord).toOption) := by
  intro m n v u
  obtain ⟨writes, halves, reads⟩ := access_laws
  have outside : m.memory.size < 5 + 2 := by decide
  have inside : 1 + 2 ≤ m.memory.size := by decide
  have within : 2 + 4 ≤ m.memory.size := by decide
  have beyond : n.memory.size < 3 + 4 := by decide
  have done : Exec.store 1 v m = .ok () n := rfl
  have found : n.memory.read 2 .doubleWord = .ok u := rfl
  obtain ⟨after, stored, -, -, overlap⟩ := (writes m 1 v).2 inside
  obtain rfl : n.memory = after :=
    congrArg Machine.memory (EStateM.Result.ok.inj (done.symm.trans stored)).2
  obtain ⟨u', loaded, -, cells⟩ := overlap 2 .doubleWord within
  obtain rfl : u = u' := Except.ok.inj (found.symm.trans loaded)
  refine ⟨⟨outside, (writes m 5 v).1 outside⟩, ⟨inside, done⟩,
    ⟨within, found, cells 0 (by decide), cells 1 (by decide)⟩,
    (halves n.memory 2 .doubleWord .word u rfl).mp found, beyond, ?_, ?_⟩
  · exact (reads n.memory 3 .doubleWord).2.1 beyond
  · exact (reads n.memory 3 .doubleWord).2.2.2.2 n.report rfl

end Memory
end OctetMachine
