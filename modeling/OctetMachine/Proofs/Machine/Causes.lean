import Mathlib
import OctetMachine.Proofs.Instruction.Truncation
import OctetMachine.Proofs.Machine.Fetched
import OctetMachine.Proofs.Machine.Safety

/-! Why a step fails. Whatever fault a machine returns or records can be seen in the machine before
the step: in its code at the instruction pointer, in its stack, or in the operands of the
instruction there. -/
namespace OctetMachine

theorem Opcode.mem_of_action_eq_compare {op : Opcode} {relation : Comparison}
    (compares : op.action = .compare relation) : op ∈ [le, lt, ge, gt] := by
  cases op <;> simp_all [action]

/-- What an instruction pushes: the value of its operand, or the byte that answers a comparison. -/
inductive Instruction.Pushes (i : Instruction) (m : Machine) : Value → Prop
  | operand {o : Operand} {v : Value} (push : i.opcode = .push) (only : i.operands = [o])
    (resolved : m.resolve o = .ok v) : Pushes i m v
  | answer {v : Value} (compares : i.opcode ∈ [.le, .lt, .ge, .gt]) (byte : v.width = .byte) :
    Pushes i m v

theorem Instruction.pushes_of_effect {i : Instruction} {pc : Nat} {m : Machine} {v : Value}
    (planned : i.effect pc m = .ok (.push v)) : i.Pushes m v := by
  unfold Instruction.effect at planned
  split at planned
  · obtain ⟨_, _, planned⟩ := ok_bind_iff.mp planned
    obtain ⟨_, _, planned⟩ := ok_bind_iff.mp planned
    obtain ⟨_, _, planned⟩ := ok_bind_iff.mp planned
    cases planned
  · obtain ⟨_, _, planned⟩ := ok_bind_iff.mp planned
    obtain ⟨_, _, planned⟩ := ok_bind_iff.mp planned
    obtain ⟨_, _, planned⟩ := ok_bind_iff.mp planned
    split at planned <;> cases planned
  · rename_i push only
    obtain ⟨_, resolved, planned⟩ := ok_bind_iff.mp planned
    cases planned
    exact .operand (Opcode.action_eq_push_iff.mp push) only resolved
  · rename_i compares _
    obtain ⟨_, _, planned⟩ := ok_bind_iff.mp planned
    obtain ⟨_, _, planned⟩ := ok_bind_iff.mp planned
    cases planned
    exact .answer (Opcode.mem_of_action_eq_compare compares) rfl
  · cases planned
  · obtain ⟨_, _, planned⟩ := ok_bind_iff.mp planned
    cases planned
  · obtain ⟨_, _, planned⟩ := ok_bind_iff.mp planned
    obtain ⟨_, _, planned⟩ := ok_bind_iff.mp planned
    obtain ⟨_, _, planned⟩ := ok_bind_iff.mp planned
    split at planned <;> cases planned
  · cases planned

theorem Cursor.fetch_eq_error_iff {c : Cursor} {e : DecodeError} :
    c.fetch = .error e ↔ Instruction.decode c.input = .error e := by
  unfold fetch
  cases Instruction.decode c.input <;> simp

namespace Machine

variable {config : Config} {code : List UInt8} {m : Machine} {fault : Fault}

/-- The fault that the next step returns or, if it goes on, records. -/
def raised? (config : Config) (m : Machine) : Option Fault :=
  match (m.step config).outcome with
  | .failed fault => some fault
  | _ => (m.step config).machine.faults[m.faults.size]?

/-- The causes that a fault can have. -/
inductive Cause (config : Config) (code : List UInt8) (m : Machine) : Fault → Prop
  | invalidOpcode {b : UInt8} (here : code[m.cursor.position]? = some b)
    (unknown : Opcode.ofByte? b = none) : Cause config code m (.invalidOpcode b m.cursor.position)
  /-- The code ends within the operands of an instruction. -/
  | truncated {i : Instruction} (encodable : i.Encodable)
    (here : code[m.cursor.position]? = some i.opcode.byte)
    (within : EndsWithin (code.drop m.cursor.position) i.encode) :
    Cause config code m (.truncatedInstruction m.cursor.position)
  | mismatch {i : Instruction} {expected found : Width} (fetches : m.Fetches config i)
    (unequal : expected ≠ found) :
    Cause config code m (.operandTypeMismatch expected found m.cursor.position)
  | outOfBounds {i : Instruction} {address : Value} (fetches : m.Fetches config i)
    (refers : .reference address ∈ i.operands) (wide : 2 ≤ address.width.bytes)
    (beyond : 1024 < address.toNat + address.width.bytes) :
    Cause config code m (.outOfBounds address.toNat address.width)
  | stackUnderflow {i : Instruction} (fetches : m.Fetches config i) (pop : i.opcode = .pop)
    (empty : m.stack.size = 0) : Cause config code m .stackUnderflow
  | stackOverflow {i : Instruction} {v : Value} (fetches : m.Fetches config i)
    (pushes : i.Pushes m v) (full : 1024 - m.stack.size < v.width.bytes) :
    Cause config code m (.stackOverflow 1024)
  | divisionByZero {i : Instruction} (fetches : m.Fetches config i) (divides : i.DividesByZero m) :
    Cause config code m (.divisionByZero m.cursor.position)

/-- A step raises what keeps it from fetching an instruction, or from executing it. -/
theorem exists_of_raised? (raised : m.raised? config = some fault) :
    (m.Ready config ∧ ∃ e, m.cursor.fetch = .error e ∧ fault = .ofDecodeError e) ∨
    ∃ i, m.Fetches config i ∧
      execute i m.cursor.position (m.past i) = .error fault (m.past i) := by
  have way := steps config m
  unfold raised? at raised
  generalize m.step config = result at way raised
  cases way with
  | rest halted => simp at raised
  | finish live ended => simp [stop] at raised
  | exhaust live inside spent => simp [stop] at raised
  | misread ready unread =>
    cases raised
    exact .inl ⟨ready, _, unread, rfl⟩
  | succeed fetches done =>
    have kept : _ = m.faults := (sameBooks_of_execute done).faults
    simp [kept] at raised
  | skip fetches failed mild lenient =>
    simp only [Array.getElem?_push_size, Option.some.injEq] at raised
    cases raised
    exact .inr ⟨_, fetches, failed⟩
  | abort fetches failed fatal =>
    cases raised
    exact .inr ⟨_, fetches, failed⟩

theorem raised?_of_unread {e : DecodeError} (ready : m.Ready config)
    (unread : m.cursor.fetch = .error e) : m.raised? config = some (.ofDecodeError e) := by
  rw [raised?, step_of_unread ready unread]
  rfl

section Execute

variable {i : Instruction} (fetches : m.Fetches config i) (sized : m.memory.size = 1024)

include fetches sized

/-- Of all operands only a wide reference may lead out of memory. -/
theorem cause_of_resolve {o : Operand} (member : o ∈ i.operands)
    (failed : m.resolve o = .error fault) : Cause config code m fault := by
  cases o with
  | literal | top | immediate => cases failed
  | shortReference address =>
    obtain ⟨v, found⟩ := Memory.exists_read sized address .byte
    cases failed.symm.trans found
  | reference address =>
    obtain ⟨outside, rfl⟩ := Memory.read_eq_error_iff.mp failed
    have beyond := Nat.lt_of_not_le outside
    rw [sized] at beyond
    refine .outOfBounds fetches member ?_ beyond
    have fits := address.fits_toNat
    unfold Width.Fits at fits
    cases width : address.width with
    | byte =>
      -- an address of one byte cannot reach that far
      rw [width] at fits beyond
      simp [Width.bytes, BigEndian.span] at fits beyond
      omega
    | word | doubleWord | quadWord => decide

theorem cause_of_effect (refused : i.effect m.cursor.position m = .error fault) :
    Cause config code m fault := by
  have arity := (Cursor.fetch_eq_ok_iff.mp fetches.fetched).1.arity
  refine (meets_effect_of ?_ ?_ ?_ ?_ ?_).error fault refused
  · intro o member
    exact ⟨fun _ failed => cause_of_resolve fetches sized member failed, fun _ _ => trivial⟩
  · intro expected found unequal
    exact .mismatch fetches unequal
  · intro address
    obtain ⟨b, loaded⟩ := Memory.exists_readByte sized address
    rw [loaded]
    exact Exec.meets_ok trivial
  · intro divides
    exact .divisionByZero fetches divides
  · intro wrong
    exact absurd arity wrong

theorem cause_of_obstacle? {e : Effect} (planned : i.effect m.cursor.position m = .ok e)
    (hindered : e.obstacle? m = some fault) : Cause config code m fault := by
  rcases Effect.obstacle?_eq_some hindered with
    ⟨address, v, _, beyond, _⟩ | ⟨v, rfl, full, rfl⟩ | ⟨rfl, empty, rfl⟩
  · exact absurd (Memory.holds_of_size sized address v.width) beyond
  · refine .stackOverflow fetches (Instruction.pushes_of_effect planned) ?_
    have capacity : Stack.capacity = 1024 := rfl
    have positive := v.width.bytes_pos
    omega
  · have allowed := (meets_effect i m.cursor.position m).ok _ planned
    generalize action : i.opcode.action = a at allowed
    cases allowed
    exact .stackUnderflow fetches (Opcode.action_eq_pop_iff.mp action) empty

theorem cause_of_execute
    (failed : execute i m.cursor.position (m.past i) = .error fault (m.past i)) :
    Cause config code m fault := by
  have same : i.effect m.cursor.position (m.past i) = i.effect m.cursor.position m :=
    Instruction.effect_congr rfl rfl i m.cursor.position
  obtain ⟨refused | ⟨e, planned, hindered⟩, _⟩ := execute_eq_error_iff.mp failed
  · exact cause_of_effect fetches sized (same ▸ refused)
  · have hindered' : e.obstacle? m = some fault := by
      rw [← hindered]
      cases e <;> rfl
    exact cause_of_obstacle? fetches sized (same ▸ planned) hindered'

end Execute

theorem cause_of_fetch {e : DecodeError} (unread : m.cursor.fetch = .error e)
    (inside : m.cursor.position < m.cursor.code.length) :
    Cause config m.cursor.code m (.ofDecodeError e) := by
  have refused := Cursor.fetch_eq_error_iff.mp unread
  have first : m.cursor.input.bytes.head? = m.cursor.code[m.cursor.position]? :=
    List.head?_drop ..
  cases e with
  | unknownOpcode b offset =>
    obtain ⟨rfl, head, unknown⟩ := Instruction.decode_eq_unknownOpcode_iff.mp refused
    exact .invalidOpcode (first ▸ head) unknown
  | truncated offset =>
    obtain ⟨rfl, i, encodable, within⟩ := Instruction.decode_eq_truncated_iff.mp refused
    have here := List.getElem?_eq_getElem inside
    exact .truncated encodable (here.trans (within.head?_eq (first.trans here)).symm) within

theorem cause_of_raised? (sized : m.memory.size = 1024) (raised : m.raised? config = some fault) :
    m.Ready config ∧ Cause config m.cursor.code m fault := by
  rcases exists_of_raised? raised with ⟨ready, e, unread, rfl⟩ | ⟨i, fetches, failed⟩
  · exact ⟨ready, cause_of_fetch unread ready.inside⟩
  · exact ⟨fetches.toReady, cause_of_execute fetches sized failed⟩

theorem size_memory_step (config : Config) (m : Machine) :
    (m.step config).machine.memory.size = m.memory.size := by
  have way := steps config m
  generalize m.step config = result at way ⊢
  cases way with
  | succeed fetches done =>
    obtain ⟨e, _, _, rfl⟩ := execute_eq_ok_iff.mp done
    cases e with
    | store => exact Memory.size_put _ _ _
    | nothing | push | pop | jump => rfl
  | rest | finish | exhaust | misread | skip | abort => rfl

theorem Reachable.frame (reached : Reachable config code m) :
    m.cursor.code = code ∧ m.memory.size = 1024 := by
  induction reached with
  | boot => exact ⟨rfl, (sound_boot config code).memory_eq⟩
  | step _ ih => rwa [code_step, size_memory_step]
  | write _ address v ih =>
    unfold Exec.store
    split
    · exact ⟨ih.1, (Memory.size_put _ _ _).trans ih.2⟩
    · exact ih

/-- Every fault has its true cause. Where a machine is ready to fetch an instruction, the bytes at
the instruction pointer alone decide whether it fails for want of an opcode or of further bytes.
Nothing that a byte can address lies out of bounds, however wide it is. -/
theorem faults_have_causes (reached : Reachable config code m) :
    (∀ fault, m.raised? config = some fault → Cause config code m fault) ∧
    (∀ b, m.raised? config = some (.invalidOpcode b m.cursor.position) ↔
      m.Ready config ∧ code[m.cursor.position]? = some b ∧ Opcode.ofByte? b = none) ∧
    (m.raised? config = some (.truncatedInstruction m.cursor.position) ↔
      m.Ready config ∧ ∃ i : Instruction, i.Encodable ∧
        code[m.cursor.position]? = some i.opcode.byte ∧
        EndsWithin (code.drop m.cursor.position) i.encode) ∧
    ∀ (address : UInt8) (w : Width), m.memory.Holds address.toNat w := by
  obtain ⟨rfl, sized⟩ := reached.frame
  refine ⟨fun fault raised => (cause_of_raised? sized raised).2, fun b => ⟨?_, ?_⟩, ⟨?_, ?_⟩, ?_⟩
  · intro raised
    obtain ⟨ready, cause⟩ := cause_of_raised? sized raised
    cases cause with
    | invalidOpcode here unknown => exact ⟨ready, here, unknown⟩
  · rintro ⟨ready, here, unknown⟩
    have refused : Instruction.decode m.cursor.input =
        .error (.unknownOpcode b m.cursor.position) := by
      apply Instruction.decode_eq_unknownOpcode_iff.mpr
      exact ⟨rfl, (List.head?_drop ..).trans here, unknown⟩
    exact raised?_of_unread ready (Cursor.fetch_eq_error_iff.mpr refused)
  · intro raised
    obtain ⟨ready, cause⟩ := cause_of_raised? sized raised
    cases cause with
    | truncated encodable here within => exact ⟨ready, _, encodable, here, within⟩
  · rintro ⟨ready, i, encodable, _, within⟩
    have refused : Instruction.decode m.cursor.input = .error (.truncated m.cursor.position) := by
      apply Instruction.decode_eq_truncated_iff.mpr
      exact ⟨rfl, i, encodable, within⟩
    exact raised?_of_unread ready (Cursor.fetch_eq_error_iff.mpr refused)
  · intro address w
    exact Memory.holds_of_size sized address w

/-- A word across the end of memory, referred to behind a push. -/
theorem faults_have_causes_reference :
    let code : List UInt8 := [0xFD, 7, 0xFF, 0, 0xC0, 0xD1, 3, 0xFF]
    let m := ((boot code).step {}).machine
    Reachable {} code m ∧ m.raised? {} = some (.outOfBounds 1023 .word) ∧
      Cause {} code m (.outOfBounds 1023 .word) ∧ m.memory.Holds 255 .quadWord := by
  intro code m
  have reached : Reachable {} code m := .step .boot
  have raised : m.raised? {} = some (.outOfBounds 1023 .word) := by decide +kernel
  obtain ⟨causes, _, _, holds⟩ := faults_have_causes reached
  exact ⟨reached, raised, causes _ raised, holds 255 .quadWord⟩

end Machine
end OctetMachine
