import Mathlib
import OctetMachine.Proofs.Assembly.Source
import OctetMachine.Proofs.Machine.Invariant
import OctetMachine.Proofs.Machine.StraightLine

/-! Assembled code does not go wrong. Its instructions read back, name no address beyond the first
256 and have all their operands, so that as long as the instruction pointer meets the beginnings of
instructions, a step can only fail for what is on the stack, for a divisor and, where the
configuration insists, for a width. -/
namespace OctetMachine

/-- The faults that are left for code whose instructions are all well formed. -/
def Fault.Tame (config : Config) : Fault → Prop
  | stackOverflow _ | stackUnderflow | divisionByZero _ => True
  | operandTypeMismatch .. => config.strictOperands = true
  | invalidOpcode .. | truncatedInstruction _ | malformedInstruction _ | outOfBounds .. => False

namespace Memory

variable {m : Memory} (sized : m.size = defaultSize) (address : UInt8)

include sized

/-- Whatever a byte can address lies in memory with room to spare. -/
theorem holds_of_size (w : Width) : m.Holds address.toNat w := by
  have small : address.toNat < 256 := address.toNat_lt
  have narrow := w.bytes_le_eight
  unfold Holds
  rw [sized, defaultSize]
  omega

theorem exists_read (w : Width) : ∃ v, m.read address.toNat w = .ok v :=
  exists_read_iff.mpr (holds_of_size sized address w)

theorem exists_readByte : ∃ b, m.readByte address.toNat = .ok b := by
  have inside : address.toNat < m.cells.size := holds_of_size sized address .byte
  exact ⟨_, readByte_eq_ok_iff.mpr (Array.getElem?_eq_getElem inside)⟩

end Memory

section Execute

variable {i : Instruction} {pc : Nat} {m n : Machine} {fault : Fault}

theorem Operand.Expressible.resolves {op : Opcode} {slot : Slot} {o : Operand}
    (expressible : Expressible op slot o) (sized : m.memory.size = Memory.defaultSize) :
    ∃ v, m.resolve o = .ok v := by
  cases expressible with
  | leading | trailing | top | immediate => exact ⟨_, rfl⟩
  | reference address =>
    simp only [Machine.resolve, Value.toNat_ofByte]
    exact Memory.exists_read sized address _

open Exec in
/-- An instruction that tokens can express is refused for a width or a divisor, or not at all. -/
theorem Instruction.Expressible.meets_effect (expressible : i.Expressible)
    (sized : m.memory.size = Memory.defaultSize) :
    Meets (fun fault => fault.isRecoverable = true ∨ fault = .divisionByZero pc) (fun _ => True)
      (i.effect pc m) := by
  obtain ⟨arity, operands⟩ := forall₂_slots_iff.mp expressible
  refine ⟨(meets_effect_of ?_ ?_ ?_ ?_ ?_).error, fun _ _ => trivial⟩
  · intro o member
    obtain ⟨k, found⟩ := List.mem_iff_getElem?.mp member
    obtain ⟨v, resolved⟩ := (operands k o found).resolves sized
    rw [resolved]
    exact meets_ok trivial
  · intro expected found _
    exact .inl rfl
  · intro address
    obtain ⟨b, loaded⟩ := Memory.exists_readByte sized address
    rw [loaded]
    exact meets_ok trivial
  · intro _
    exact .inr rfl
  · intro wrong
    exact absurd arity wrong

/-- Only the stack can stand in the way of an effect. -/
theorem Effect.tame_of_obstacle? {e : Effect} (config : Config)
    (sized : m.memory.size = Memory.defaultSize) (hindered : e.obstacle? m = some fault) :
    fault.Tame config := by
  rcases obstacle?_eq_some hindered with
    ⟨address, v, _, beyond, _⟩ | ⟨_, _, _, rfl⟩ | ⟨_, _, rfl⟩
  · exact absurd (Memory.holds_of_size sized address v.width) beyond
  · trivial
  · trivial

theorem Instruction.Expressible.tame_of_execute (expressible : i.Expressible) (config : Config)
    (sized : m.memory.size = Memory.defaultSize) (failed : execute i pc m = .error fault n) :
    fault.isRecoverable = true ∨ fault.Tame config := by
  obtain ⟨refused | ⟨e, _, hindered⟩, _⟩ := execute_eq_error_iff.mp failed
  · rcases (expressible.meets_effect sized).error fault refused with mild | rfl
    · exact .inl mild
    · exact .inr trivial
  · exact .inr (Effect.tame_of_obstacle? config sized hindered)

end Execute

theorem Fault.tame_of_isRecoverable {config : Config} {fault : Fault}
    (mild : fault.isRecoverable = true) (strict : config.strictOperands = true) :
    fault.Tame config := by
  cases fault with
  | operandTypeMismatch => exact strict
  | _ => cases mild

namespace Machine

variable {config : Config} {m : Machine}

/-- What the machine fetches, if it fetches anything, begins where an entry does. -/
def OnEntry (config : Config) (entries : Listing) (m : Machine) : Prop :=
  m.Ready config → ∃ e ∈ entries, e.offset = m.cursor.position

/-- One step on well-formed code, of a machine whose memory has the usual size. -/
theorem tame_of_step {p : Program} {fault : Fault} (lists : p.Lists m.cursor.code)
    (expressible : ∀ e ∈ p.entries, e.instruction.Expressible)
    (sized : m.memory.size = Memory.defaultSize) (placed : m.OnEntry config p.entries)
    (failed : (m.step config).outcome = .failed fault) : fault.Tame config := by
  have way := steps config m
  generalize m.step config = result at way failed
  cases way with
  | rest | finish | exhaust | succeed | skip => cases failed
  | misread ready unread =>
    obtain ⟨e, member, place⟩ := placed ready
    have fetched := (lists.fetch member).1
    rw [place] at fetched
    cases unread.symm.trans fetched
  | abort fetches thrown fatal =>
    cases failed
    obtain ⟨e, member, place⟩ := placed fetches.toReady
    have fetched := (lists.fetch member).1
    rw [place] at fetched
    cases fetches.fetched.symm.trans fetched
    have before : (m.past e.instruction).memory.size = Memory.defaultSize := sized
    rcases (expressible e member).tame_of_execute config before thrown with mild | tame
    · exact Fault.tame_of_isRecoverable mild (fatal mild)
    · exact tame

theorem sound_seeded {code : List UInt8} {memory : Memory} (config : Config)
    (sized : memory.size = Memory.defaultSize) : Sound config code (seeded code memory) :=
  { sound_boot config code with memory_eq := sized }

theorem Sound.after {code : List UInt8} (sound : Sound config code m) (count : Nat) :
    Sound config code (m.after config count) := by
  induction count with
  | zero => exact sound
  | succ count ih =>
    rw [after_succ]
    exact ih.step

end Machine

namespace Assembly

/-- What was assembled has a listing of expressible instructions. -/
theorem exists_listing {s : TokenStream} {a : Assembly} (assembled : ofStream s = .ok a) :
    ∃ entries, Listing.decode a.code = .ok entries ∧
      ∀ e ∈ entries, e.instruction.Expressible := by
  refine ⟨_, decode_code assembled, fun e member => ?_⟩
  exact Parsed.expressible_of_mem (Listing.instruction_mem_of_mem member)

/-- Assembled code does not go wrong. Its listing tells where its instructions begin; where a machine
fetches one of these, the step fails for an overfull or empty stack, a zero divisor or, if the
configuration insists, a width, and for nothing else. So it is with every run that fetches nothing
but these, and without jumps there are no other runs. -/
theorem code_does_not_go_wrong {a : Assembly}
    (assembled : (∃ s, ofStream s = .ok a) ∨ ∃ source, ofSource source = .ok a) (config : Config)
    {memory : Memory} (sized : memory.size = Memory.defaultSize) :
    ∃ entries, Listing.decode a.code = .ok entries ∧
      let start := Machine.seeded a.code memory
      (∀ count, (start.after config count).OnEntry config entries →
        ∀ fault, ((start.after config count).step config).outcome = .failed fault →
          fault.Tame config) ∧
      ((∀ count, (start.after config count).OnEntry config entries) →
        ∀ fault, (start.run config).result = .error fault → fault.Tame config) ∧
      ((∀ e ∈ entries, e.instruction.opcode.jumps = false) →
        ∀ count, (start.after config count).OnEntry config entries) := by
  obtain ⟨s, assembled⟩ : ∃ s, ofStream s = .ok a := by
    rcases assembled with assembled | ⟨source, assembled⟩
    · exact assembled
    · obtain ⟨s, _, assembled⟩ := ofSource_eq_ok_iff.mp assembled
      exact ⟨s, assembled⟩
  obtain ⟨entries, decoded, expressible⟩ := exists_listing assembled
  have lists : Program.Lists ⟨entries, a.code.length⟩ a.code := ⟨decoded, rfl⟩
  refine ⟨entries, decoded, ?_⟩
  intro start
  have sound : ∀ count, Machine.Sound config a.code (start.after config count) :=
    (Machine.sound_seeded config sized).after
  have step : ∀ count, (start.after config count).OnEntry config entries → ∀ fault,
      ((start.after config count).step config).outcome = .failed fault → fault.Tame config := by
    intro count placed fault failed
    have here : Program.Lists ⟨entries, a.code.length⟩ (start.after config count).cursor.code := by
      rwa [(sound count).code_eq]
    exact Machine.tame_of_step here expressible (sound count).memory_eq placed failed
  refine ⟨step, ?_, ?_⟩
  · intro placed fault failed
    obtain ⟨count, _, lasts⟩ := Machine.exists_lasts config start
    rcases lasts.ending rfl UInt64.zero_le with ⟨fault', failed', last⟩ | ⟨r, completed, _⟩
    · cases failed.symm.trans failed'
      exact step count (placed count) fault last
    · cases failed.symm.trans completed
  · intro level count ready
    have admits : Program.Admits ⟨entries, a.code.length⟩
        (start.after config count).cursor.position :=
      Program.Lists.admits_after lists level lists.admits_zero count
    have inside := ready.inside
    rw [(sound count).code_eq] at inside
    exact admits.resolve_left (Nat.not_le.mpr inside)

/-- A jump over a push to a division by zero, which is all that can happen there. -/
theorem code_does_not_go_wrong_division :
    let source := "push 7\njmp 6\npush 8\ndiv 1, [9]"
    let code : List UInt8 := [0xFD, 7, 0xFE, 6, 0xFD, 8, 0xA3, 1, 0xC0, 0xD0, 9]
    let entries : Listing := [⟨0, ⟨.push, [.literal 7]⟩⟩, ⟨2, ⟨.jmp, [.literal 6]⟩⟩,
      ⟨4, ⟨.push, [.literal 8]⟩⟩, ⟨6, ⟨.div, [.literal 1, .reference (.ofByte 9)]⟩⟩]
    let m := (Machine.seeded code (.zeros 1024)).after {} 2
    ofSource source = .ok ⟨code, []⟩ ∧ Listing.decode code = .ok entries ∧ m.OnEntry {} entries ∧
    (m.step {}).outcome = .failed (.divisionByZero 6) ∧
    ∀ fault, (m.step {}).outcome = .failed fault → fault.Tame {} := by
  intro source code entries m
  have assembled : ofSource source = .ok ⟨code, []⟩ := by decide +kernel
  have decoded : Listing.decode code = .ok entries := by cbv
  have sized : (Memory.zeros 1024).size = Memory.defaultSize := by decide +kernel
  have placed : m.OnEntry {} entries := by
    intro _
    exact ⟨⟨6, ⟨.div, [.literal 1, .reference (.ofByte 9)]⟩⟩, by simp [entries], by decide +kernel⟩
  refine ⟨assembled, decoded, placed, by decide +kernel, ?_⟩
  obtain ⟨_, listed, tame, _⟩ := code_does_not_go_wrong (.inr ⟨source, assembled⟩) {} sized
  cases decoded.symm.trans listed
  exact tame 2 placed

end Assembly
end OctetMachine
