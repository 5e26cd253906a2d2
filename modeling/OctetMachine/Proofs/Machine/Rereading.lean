import Mathlib
import OctetMachine.Proofs.Instruction.Rereading
import OctetMachine.Proofs.Machine.Safety

/-! What a machine makes of an instruction that was written as text and read again. Operands that come
back in another form resolve alike, with one exception: a bare byte is no value for a move of a wider
width, and comes back as one. -/
namespace OctetMachine

/-- The moves of more than a byte. -/
def Opcode.wideMoves : List Opcode := [.movw, .movd, .movq]

theorem Opcode.moveWidth?_eq_some_iff {op : Opcode} {w : Width} :
    op.moveWidth? = some w ↔ op.action = .move (some w) := by
  cases op <;> simp [moveWidth?, action]

theorem Opcode.mem_wideMoves_iff {op : Opcode} :
    op ∈ wideMoves ↔ ∃ w, op.moveWidth? = some w ∧ w ≠ .byte := by
  cases op <;> simp [wideMoves, moveWidth?, action]

/-- Any other move takes a bare byte for a byte. -/
theorem Opcode.getD_moveWidth? {op : Opcode} (narrow : op ∉ wideMoves) :
    op.moveWidth?.getD .byte = .byte := by
  revert narrow
  cases op <;> decide

theorem Opcode.slots_of_wide {op : Opcode} (wide : op ∈ wideMoves) :
    op.slots = [.leading, .trailing] := by
  obtain ⟨w, move, _⟩ := mem_wideMoves_iff.mp wide
  unfold slots arity
  rw [moveWidth?_eq_some_iff.mp move]
  rfl

namespace Operand

variable {op : Opcode} {slot : Slot} {slots : List Slot} {o o' : Operand} {os os' : List Operand}

theorem Rereads.resolve_eq (rereads : Rereads op slot o o')
    (kept : op ∈ Opcode.wideMoves → slot = .trailing → ∀ b, o ≠ .literal b) (m : Machine) :
    m.resolve o' = m.resolve o := by
  cases rereads with
  | same => rfl
  | short address =>
    simp only [Machine.resolve, Value.toNat_ofByte]
    rfl
  | escaped => rfl
  | source b move =>
    have narrow : op ∉ Opcode.wideMoves := fun wide => kept wide rfl b rfl
    rw [Opcode.getD_moveWidth? narrow, Value.ofNat_byte]
    rfl

theorem Rereads.resolveByte_eq (rereads : Rereads op .leading o o') (pc : Nat) (m : Machine) :
    m.resolveByte pc o' = m.resolveByte pc o := by
  unfold Machine.resolveByte
  rw [rereads.resolve_eq (fun _ trailing => by cases trailing) m]

/-- A bare byte that a move of a width stores is read as a value of that width. -/
theorem Rereads.eq_immediate {w : Width} {b : UInt8}
    (rereads : Rereads op .trailing (.literal b) o') (width : op.moveWidth? = some w) :
    o' = .immediate (.ofNat w b.toNat) := by
  have move := Opcode.isMove_of_moveWidth? width
  cases rereads with
  | same plain => exact absurd rfl (plain rfl move b)
  | escaped _ other => simp [move] at other
  | source =>
    rw [width]
    rfl

theorem AllReread.resolve_eq (rereads : AllReread op slots os os')
    (kept : op ∈ Opcode.wideMoves → ∀ (k : Nat) (b : UInt8),
      slots[k]? = some .trailing → os[k]? ≠ some (.literal b))
    (m : Machine) : List.Forall₂ (fun o o' => m.resolve o' = m.resolve o) os os' := by
  induction rereads with
  | nil => exact .nil
  | cons first others ih =>
    refine .cons (first.resolve_eq ?_ m) (ih ?_)
    · rintro wide rfl b rfl
      exact kept wide 0 b rfl rfl
    · intro wide k b trailing
      exact kept wide (k + 1) b trailing

end Operand

namespace Instruction

variable {i j : Instruction}

/-- An instruction sees its operands only through what they resolve to. -/
theorem effect_eq_of_resolve {m : Machine} (opcode : j.opcode = i.opcode)
    (alike : List.Forall₂ (fun o o' => m.resolve o' = m.resolve o) i.operands j.operands)
    (pc : Nat) : j.effect pc m = i.effect pc m := by
  obtain ⟨op, os⟩ := i
  obtain ⟨_, os'⟩ := j
  cases opcode
  simp only [effect]
  generalize op.action = action
  -- Either the operands have the one shape that the action takes, or both are malformed.
  rcases alike with _ | ⟨a, _ | ⟨b, _ | ⟨c, _ | ⟨d, _⟩⟩⟩⟩ <;> cases action <;>
    simp_all [Machine.resolveByte]

theorem execute_eq_of_resolve {m : Machine} (opcode : j.opcode = i.opcode)
    (alike : List.Forall₂ (fun o o' => m.resolve o' = m.resolve o) i.operands j.operands)
    (pc : Nat) : execute i pc m = execute j pc m := by
  rw [performs_execute i pc m, performs_execute j pc m, effect_eq_of_resolve opcode alike]

theorem Rereads.execute_eq (rereads : i.Rereads j)
    (kept : ¬ (i.opcode ∈ Opcode.wideMoves ∧ ∃ b, i.operands[1]? = some (.literal b)))
    (pc : Nat) (m : Machine) : execute i pc m = execute j pc m := by
  refine execute_eq_of_resolve rereads.opcode (rereads.operands.resolve_eq ?_ m) pc
  intro wide k b trailing literal
  rw [Opcode.slots_of_wide wide] at trailing
  rcases k with _ | _ | k
  · cases trailing
  · exact kept ⟨wide, b, literal⟩
  · cases trailing

theorem Rereads.exists_operands (rereads : i.Rereads j) (wide : i.opcode ∈ Opcode.wideMoves) :
    ∃ destination source destination' source', i.operands = [destination, source] ∧
      j.operands = [destination', source'] ∧
      Operand.Rereads i.opcode .leading destination destination' ∧
      Operand.Rereads i.opcode .trailing source source' := by
  have all := rereads.operands
  rw [Opcode.slots_of_wide wide] at all
  generalize i.operands = os, j.operands = os' at all
  cases all with
  | cons first all =>
    cases all with
    | cons second none =>
      cases none
      exact ⟨_, _, _, _, rfl, rfl, first, second⟩

/-- A move of more than a byte refuses a bare byte, but what its text is read as stores it. -/
theorem Rereads.store_of_mismatch (rereads : i.Rereads j) {w : Width} {destination : Operand}
    {b : UInt8} (width : i.opcode.moveWidth? = some w) (wide : w ≠ .byte)
    (operands : i.operands = [destination, .literal b]) {pc : Nat} {m : Machine} {address : UInt8}
    (resolved : m.resolveByte pc destination = .ok address) :
    execute i pc m = .error (.operandTypeMismatch w .byte pc) m ∧
      execute j pc m = Exec.store address.toNat (.ofNat w b.toNat) m := by
  have move := Opcode.moveWidth?_eq_some_iff.mp width
  obtain ⟨_, _, destination', source', same, others, first, second⟩ :=
    rereads.exists_operands (Opcode.mem_wideMoves_iff.mpr ⟨w, width, wide⟩)
  cases operands.symm.trans same
  cases second.eq_immediate width
  have again : m.resolveByte pc destination' = .ok address :=
    (first.resolveByte_eq pc m).trans resolved
  constructor
  · have refused : (Value.ofByte b).expectWidth pc (some w) =
        .error (.operandTypeMismatch w .byte pc) := if_neg wide.symm
    apply execute_of_refusal
    simp only [effect, move, operands, resolved, Machine.resolve, bind, Except.bind, refused]
  · have accepted : (Value.ofNat w b.toNat).expectWidth pc (some w) = .ok () := if_pos rfl
    have planned : j.effect pc m = .ok (.store address (.ofNat w b.toNat)) := by
      simp only [effect, rereads.opcode, move, others, again, Machine.resolve, bind, Except.bind,
        accepted]
      rfl
    rw [execute_of_effect planned]
    exact (Exec.performs_store address _ m).symm

end Instruction

theorem Memory.width_of_read {m : Memory} {address : Nat} {w : Width} {v : Value}
    (found : m.read address w = .ok v) : v.width = w := by
  unfold read at found
  split at found
  · cases found
    rfl
  · cases found

/-- A machine with its whole memory finds a byte for every first operand that tokens can express. -/
theorem Operand.Expressible.exists_byte {op : Opcode} {o : Operand} {m : Machine}
    (expressible : Expressible op .leading o) (sized : m.memory.size = Memory.defaultSize)
    (pc : Nat) : ∃ address, m.resolveByte pc o = .ok address := by
  obtain ⟨v, resolved⟩ := expressible.resolves sized
  have narrow : v.width = .byte := by
    cases expressible with
    | leading | top =>
      cases resolved
      rfl
    | reference address => exact Memory.width_of_read resolved
  obtain ⟨b, rfl⟩ := Value.exists_ofByte narrow
  refine ⟨b, ?_⟩
  rw [Machine.resolveByte, resolved]
  rfl

namespace Instruction

/-- The text of an instruction, where it can be read, means what the instruction does. What it is
read as has the same opcode, and does the same on every machine, from every place; a bare byte as the
source of a move of more than a byte is the only exception, since a mismatch of widths is read as a
store. -/
theorem text_means_what_it_does {i j : Instruction} (reread : ofSource i.text = .ok j) :
    j.opcode = i.opcode ∧
    ((∀ (pc : Nat) (m : Machine), execute i pc m = execute j pc m) ↔
      ¬ (i.opcode ∈ [.movw, .movd, .movq] ∧ ∃ b, i.operands[1]? = some (.literal b))) ∧
    ∀ (w : Width) (destination : Operand) (b : UInt8), i.opcode.moveWidth? = some w → w ≠ .byte →
      i.operands = [destination, .literal b] →
      ∀ (pc : Nat) (m : Machine) (address : UInt8), m.resolveByte pc destination = .ok address →
        execute i pc m = .error (.operandTypeMismatch w .byte pc) m ∧
          execute j pc m = Exec.store address.toNat (.ofNat w b.toNat) m := by
  have rereads := rereads_of_ofSource reread
  refine ⟨rereads.opcode, ⟨?_, rereads.execute_eq⟩, ?_⟩
  · rintro alike ⟨wide, b, literal⟩
    obtain ⟨w, width, more⟩ := Opcode.mem_wideMoves_iff.mp wide
    obtain ⟨destination, source, destination', _, operands, others, first, _⟩ :=
      rereads.exists_operands wide
    rw [operands] at literal
    cases literal
    -- On a fresh machine the destination is found, the move is refused and the store succeeds.
    have sized : (Machine.boot []).memory.size = Memory.defaultSize :=
      (Machine.sound_boot {} []).memory_eq
    have expressible : Operand.Expressible j.opcode .leading destination' :=
      ((canonical_of_ofSource reread).operands 0 destination' (by simp [others])).expressible
    obtain ⟨address, found⟩ := expressible.exists_byte sized 0
    obtain ⟨refused, stored⟩ := rereads.store_of_mismatch width more operands
      ((first.resolveByte_eq 0 _).symm.trans found)
    rw [alike, stored, Exec.store, if_pos (Memory.holds_of_size sized address _)] at refused
    cases refused
  · intro w destination b width more operands pc m address
    exact rereads.store_of_mismatch width more operands

/-- A move of a word that refuses its bare byte, and an addition with a short reference. -/
theorem text_means_what_it_does_word :
    let i : Instruction := ⟨.movw, [.literal 5, .literal 7]⟩
    let j : Instruction := ⟨.movw, [.literal 5, .immediate (.ofNat .word 7)]⟩
    let k : Instruction := ⟨.add, [.shortReference 7, .literal 3]⟩
    let l : Instruction := ⟨.add, [.reference (.ofByte 7), .literal 3]⟩
    decode ⟨0, [0xEE, 5, 7]⟩ = .ok (i, ⟨3, []⟩) ∧ ofSource i.text = .ok j ∧
    ¬ (∀ (pc : Nat) (m : Machine), execute i pc m = execute j pc m) ∧
    decode ⟨0, [0xA0, 0xC0, 7, 3]⟩ = .ok (k, ⟨4, []⟩) ∧ ofSource k.text = .ok l ∧
    ∀ (pc : Nat) (m : Machine), execute k pc m = execute l pc m := by
  intro i j k l
  have first : ofSource i.text = .ok j := by decide +kernel
  have second : ofSource k.text = .ok l := by decide +kernel
  refine ⟨by decide +kernel, first, fun alike => ?_, by decide +kernel, second, ?_⟩
  · exact (text_means_what_it_does first).2.1.mp alike ⟨by decide, 7, rfl⟩
  · exact (text_means_what_it_does second).2.1.mpr fun ⟨wide, _⟩ => by simp [k] at wide

end Instruction
end OctetMachine
