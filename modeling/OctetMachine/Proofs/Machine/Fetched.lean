import Mathlib
import OctetMachine.Proofs.Machine.Program

/-! Code that is not fetched does not matter. What is fetched at some place depends on the bytes of
that instruction alone, so that a machine on other code, which has these bytes in the same places,
goes the same way. -/
namespace OctetMachine

namespace Cursor

/-- The offsets of the bytes that an instruction is fetched from. -/
def window (c : Cursor) : List Nat :=
  match c.fetch with
  | .ok (i, _) => List.range' c.position i.encodedLength
  | .error _ => []

variable {c next : Cursor} {i : Instruction}

theorem mem_window_of_fetch (fetched : c.fetch = .ok (i, next)) {x : Nat} :
    x ∈ c.window ↔ c.position ≤ x ∧ x < c.position + i.encodedLength := by
  rw [window, fetched]
  exact List.mem_range'_1

/-- An instruction is fetched where its bytes stand, whatever stands behind them. -/
theorem fetch_eq_ok_iff : c.fetch = .ok (i, next) ↔
    i.Encodable ∧ i.encode <+: c.code.drop c.position ∧
      next = c.moveTo (c.position + i.encodedLength) := by
  constructor
  · intro fetched
    have behind := (fetch_eq_ok fetched).1
    simp only [fetch] at fetched
    split at fetched
    · rename_i decoded
      cases fetched
      obtain ⟨spans, encodable⟩ := Instruction.spans_of_decode decoded
      exact ⟨Instruction.isEncodable_iff.mp encodable, ⟨_, spans.bytes_eq.symm⟩, behind⟩
    · cases fetched
  · rintro ⟨encodable, ⟨rest, ahead⟩, rfl⟩
    exact fetch_of_drop encodable ahead.symm

/-- Code with the same bytes in the window gives the same instruction. -/
theorem fetch_of_window {other : List UInt8} (fetched : c.fetch = .ok (i, next))
    (agree : ∀ x ∈ c.window, other[x]? = c.code[x]?) :
    fetch ⟨other, c.position⟩ = .ok (i, ⟨other, c.position + i.encodedLength⟩) := by
  obtain ⟨encodable, begins, _⟩ := fetch_eq_ok_iff.mp fetched
  refine fetch_eq_ok_iff.mpr ⟨encodable, ?_, rfl⟩
  rw [List.prefix_iff_getElem?] at begins ⊢
  intro k inside
  have here : c.position + k ∈ c.window := by
    rw [Instruction.length_encode] at inside
    exact (mem_window_of_fetch fetched).mpr ⟨by omega, by omega⟩
  rw [← begins k inside, List.getElem?_drop, List.getElem?_drop]
  exact agree _ here

end Cursor

namespace Machine

variable {config : Config} {m : Machine} {other : List UInt8} {count : Nat}

theorem exists_fetches_of_running (running : (m.step config).outcome = .running) :
    ∃ i, m.Fetches config i := by
  have way := steps config m
  generalize m.step config = result at way running
  cases way with
  | succeed fetches | skip fetches => exact ⟨_, fetches⟩
  | rest | finish | exhaust | misread | abort => cases running

theorem Fetches.withCode {i : Instruction} (fetches : m.Fetches config i)
    (agree : ∀ x ∈ m.cursor.window, other[x]? = m.cursor.code[x]?) :
    (m.withCode other).Fetches config i := by
  have fetched := Cursor.fetch_of_window fetches.fetched agree
  have fits : m.cursor.position + i.encodedLength ≤ other.length := (Cursor.fetch_eq_ok fetched).2
  have inside : m.cursor.position < other.length := by
    have positive := i.encodedLength_pos
    omega
  exact ⟨⟨fetches.live, inside, fetches.below⟩, fetched, fits⟩

/-- One step on other code with the same bytes in the window. -/
theorem Fetches.step_withCode {i : Instruction} (fetches : m.Fetches config i)
    (agree : ∀ x ∈ m.cursor.window, other[x]? = m.cursor.code[x]?) :
    (m.withCode other).step config = (m.step config).withCode other := by
  have there := fetches.withCode agree
  rw [step_of_ready fetches.toReady fetches.fetched, step_of_ready there.toReady there.fetched,
    ← perform_withCode]
  rfl

theorem Survives.after_withCode (survives : m.Survives config count)
    (agree : ∀ k < count, ∀ x ∈ (m.after config k).cursor.window, other[x]? = m.cursor.code[x]?) :
    (m.withCode other).after config count = (m.after config count).withCode other := by
  induction count with
  | zero => rfl
  | succ count ih =>
    have before := ih (fun k less => survives k (by omega)) fun k less => agree k (by omega)
    obtain ⟨i, fetches⟩ := exists_fetches_of_running (survives count (by omega))
    have here := agree count (by omega)
    rw [← code_after config count m] at here
    rw [after_succ, before, fetches.step_withCode here, after_succ]
    rfl

/-- Bytes that are never fetched cannot influence a machine. While it keeps running, other code that
has, in the same places, the bytes of the instructions it fetches makes it fetch the same
instructions, take the same steps with the same events, and come to the same states. -/
theorem unfetched_bytes_do_not_matter {code other : List UInt8} {memory : Memory}
    (survives : (seeded code memory).Survives config count)
    (agree : ∀ k < count, ∀ x ∈ ((seeded code memory).after config k).cursor.window,
      other[x]? = code[x]?) :
    let here := fun k => (seeded code memory).after config k
    let there := fun k => (seeded other memory).after config k
    (seeded other memory).Survives config count ∧
    (∀ k ≤ count, there k = (here k).withCode other) ∧
    ∀ k < count, ∃ i, (here k).Fetches config i ∧ (there k).Fetches config i ∧
      (there k).step config = ((here k).step config).withCode other := by
  intro here there
  have states : ∀ k ≤ count, there k = (here k).withCode other := by
    intro k le
    exact Survives.after_withCode (fun j less => survives j (by omega))
      fun j less => agree j (by omega)
  have steps : ∀ k < count, ∃ i, (here k).Fetches config i ∧ (there k).Fetches config i ∧
      (there k).step config = ((here k).step config).withCode other := by
    intro k less
    obtain ⟨i, fetches⟩ := exists_fetches_of_running (survives k less)
    have window : ∀ x ∈ (here k).cursor.window, other[x]? = (here k).cursor.code[x]? := by
      rw [code_after]
      exact agree k less
    rw [states k less.le]
    exact ⟨i, fetches, fetches.withCode window, fetches.step_withCode window⟩
  refine ⟨fun k less => ?_, states, steps⟩
  obtain ⟨_, _, _, same⟩ := steps k less
  rw [same]
  exact survives k less

/-- A jump over two bytes to a push: they may be others, and more may stand behind the push. -/
theorem unfetched_bytes_do_not_matter_jump :
    let code : List UInt8 := [0xFE, 4, 0, 0, 0xFD, 7]
    let other : List UInt8 := [0xFE, 4, 0xD3, 9, 0xFD, 7, 0xFC, 0xFC]
    let here := seeded code (.zeros 4)
    let there := seeded other (.zeros 4)
    here.Survives {} 2 ∧
    (∀ k < 2, ∀ x ∈ (here.after {} k).cursor.window, other[x]? = code[x]?) ∧
    there.Survives {} 2 ∧ there.after {} 2 = (here.after {} 2).withCode other ∧
    (there.after {} 2).stack = ⟨#[7]⟩ := by
  intro code other here there
  have survives : here.Survives {} 2 := by
    unfold Survives
    decide +kernel
  have agree : ∀ k < 2, ∀ x ∈ (here.after {} k).cursor.window, other[x]? = code[x]? := by
    decide +kernel
  obtain ⟨lives, states, _⟩ := unfetched_bytes_do_not_matter survives agree
  exact ⟨survives, agree, lives, states 2 le_rfl, by decide +kernel⟩

end Machine
end OctetMachine
