import Mathlib
import OctetMachine.Instruction.Exactness
import OctetMachine.Proofs.Machine.Effect

/-! The seven ways in which a machine makes a step. A step that executes an instruction has moved
past it and counted it before; whether the instruction then fails, is skipped or takes effect,
nothing else has happened to the machine. -/
namespace OctetMachine

theorem Instruction.encodedLength_pos (i : Instruction) : 0 < i.encodedLength :=
  Nat.lt_add_right _ Nat.one_pos

theorem Cursor.fetch_eq_ok {c next : Cursor} {i : Instruction} (fetched : c.fetch = .ok (i, next)) :
    next = c.moveTo (c.position + i.encodedLength) ∧
      c.position + i.encodedLength ≤ c.code.length := by
  simp only [fetch] at fetched
  split at fetched
  · rename_i decoded
    cases fetched
    have spans := (Instruction.spans_of_decode decoded).1
    have size := spans.length_eq
    rw [Instruction.length_encode, input, List.length_drop] at size
    have positive := i.encodedLength_pos
    refine ⟨?_, by omega⟩
    rw [spans.offset_eq, Instruction.length_encode]
    rfl
  · cases fetched

theorem Cursor.atEnd_eq_false_iff {c : Cursor} : c.atEnd = false ↔ c.position < c.code.length := by
  rw [← Bool.not_eq_true, atEnd_iff, Nat.not_le]

namespace Machine

/-- The machine behind the instruction that it is about to execute. -/
def past (m : Machine) (i : Instruction) : Machine :=
  { m with
    cursor := m.cursor.moveTo (m.cursor.position + i.encodedLength)
    cycles := m.cycles + 1 }

/-- Nothing keeps the machine from fetching an instruction. -/
structure Ready (config : Config) (m : Machine) : Prop where
  live : m.halt? = none
  inside : m.cursor.position < m.cursor.code.length
  below : m.cycles < config.maxCycles

/-- The machine fetches this instruction, which lies wholly within the code. -/
structure Fetches (config : Config) (m : Machine) (i : Instruction) : Prop
    extends m.Ready config where
  fetched : m.cursor.fetch = .ok (i, m.cursor.moveTo (m.cursor.position + i.encodedLength))
  fits : m.cursor.position + i.encodedLength ≤ m.cursor.code.length

section Step

variable {config : Config} {m : Machine}

theorem step_of_halted {reason : HaltReason} (halted : m.halt? = some reason) :
    m.step config = ⟨m, .halted reason, []⟩ := by
  simp only [step, halted]

theorem step_of_ended (live : m.halt? = none)
    (ended : m.cursor.code.length ≤ m.cursor.position) : m.step config = m.stop .endOfProgram := by
  simp only [step, live, Cursor.atEnd_iff.mpr ended, if_true]

theorem step_of_spent (live : m.halt? = none)
    (inside : m.cursor.position < m.cursor.code.length) (spent : config.maxCycles ≤ m.cycles) :
    m.step config = m.stop .cycleLimit := by
  simp only [step, live, Cursor.atEnd_eq_false_iff.mpr inside, spent, Bool.false_eq_true, if_true,
    if_false]

theorem step_of_unread {e : DecodeError} (ready : m.Ready config)
    (unread : m.cursor.fetch = .error e) : m.step config = m.fail (.ofDecodeError e) [] := by
  simp only [step, ready.live, Cursor.atEnd_eq_false_iff.mpr ready.inside,
    UInt64.not_le.mpr ready.below, unread, Bool.false_eq_true, if_false]

theorem step_of_ready {i : Instruction} {next : Cursor} (ready : m.Ready config)
    (fetched : m.cursor.fetch = .ok (i, next)) :
    m.step config = { m with cursor := next }.perform config i m.cursor.position := by
  simp only [step, ready.live, Cursor.atEnd_eq_false_iff.mpr ready.inside,
    UInt64.not_le.mpr ready.below, fetched, Bool.false_eq_true, if_false]

end Step

/-- The event that announces an instruction, where the configuration asks for it. -/
def traced (config : Config) (cycle : UInt64) (pc : Nat) (i : Instruction) : List Event :=
  if config.trace then [.executing cycle pc i] else []

/-- The ways to make a step, each with its result. -/
inductive Steps (config : Config) (m : Machine) : StepResult → Prop
  | rest {reason : HaltReason} (halted : m.halt? = some reason) :
    Steps config m ⟨m, .halted reason, []⟩
  | finish (live : m.halt? = none) (ended : m.cursor.code.length ≤ m.cursor.position) :
    Steps config m (m.stop .endOfProgram)
  | exhaust (live : m.halt? = none) (inside : m.cursor.position < m.cursor.code.length)
    (spent : config.maxCycles ≤ m.cycles) : Steps config m (m.stop .cycleLimit)
  | misread {e : DecodeError} (ready : m.Ready config) (unread : m.cursor.fetch = .error e) :
    Steps config m (m.fail (.ofDecodeError e) [])
  | succeed {i : Instruction} {n : Machine} (fetches : m.Fetches config i)
    (done : execute i m.cursor.position (m.past i) = .ok () n) :
    Steps config m ⟨n, .running, traced config m.cycles m.cursor.position i⟩
  | skip {i : Instruction} {fault : Fault} (fetches : m.Fetches config i)
    (failed : execute i m.cursor.position (m.past i) = .error fault (m.past i))
    (mild : fault.isRecoverable = true) (lenient : config.strictOperands = false) :
    Steps config m ⟨{ m.past i with faults := m.faults.push fault }, .running,
      traced config m.cycles m.cursor.position i ++ [.skipped m.cursor.position i fault]⟩
  | abort {i : Instruction} {fault : Fault} (fetches : m.Fetches config i)
    (failed : execute i m.cursor.position (m.past i) = .error fault (m.past i))
    (fatal : fault.isRecoverable = true → config.strictOperands = true) :
    Steps config m ((m.past i).fail fault (traced config m.cycles m.cursor.position i))

section Perform

variable {config : Config} {i : Instruction} {pc : Nat} (m : Machine)

theorem perform_of_ok {n : Machine}
    (done : execute i pc { m with cycles := m.cycles + 1 } = .ok () n) :
    m.perform config i pc = ⟨n, .running, traced config m.cycles pc i⟩ := by
  simp only [perform, done, traced]

theorem perform_of_skip {fault : Fault}
    (failed : execute i pc { m with cycles := m.cycles + 1 } =
      .error fault { m with cycles := m.cycles + 1 })
    (mild : fault.isRecoverable = true) (lenient : config.strictOperands = false) :
    m.perform config i pc =
      ⟨{ m with cycles := m.cycles + 1, faults := m.faults.push fault }, .running,
        traced config m.cycles pc i ++ [.skipped pc i fault]⟩ := by
  simp [perform, failed, mild, lenient, traced]

theorem perform_of_abort {fault : Fault}
    (failed : execute i pc { m with cycles := m.cycles + 1 } =
      .error fault { m with cycles := m.cycles + 1 })
    (fatal : fault.isRecoverable = true → config.strictOperands = true) :
    m.perform config i pc =
      { m with cycles := m.cycles + 1 }.fail fault (traced config m.cycles pc i) := by
  have kept : ¬ (fault.isRecoverable && !config.strictOperands) = true := by
    simpa using fatal
  simp only [perform, failed, kept, Bool.false_eq_true, if_false, traced]

/-- The three ways in which an instruction can turn out. -/
theorem perform_cases (config : Config) (i : Instruction) (pc : Nat) :
    (∃ n, execute i pc { m with cycles := m.cycles + 1 } = .ok () n ∧
      m.perform config i pc = ⟨n, .running, traced config m.cycles pc i⟩) ∨
    (∃ fault, execute i pc { m with cycles := m.cycles + 1 } =
        .error fault { m with cycles := m.cycles + 1 } ∧
      fault.isRecoverable = true ∧ config.strictOperands = false ∧
      m.perform config i pc =
        ⟨{ m with cycles := m.cycles + 1, faults := m.faults.push fault }, .running,
          traced config m.cycles pc i ++ [.skipped pc i fault]⟩) ∨
    (∃ fault, execute i pc { m with cycles := m.cycles + 1 } =
        .error fault { m with cycles := m.cycles + 1 } ∧
      (fault.isRecoverable = true → config.strictOperands = true) ∧
      m.perform config i pc =
        { m with cycles := m.cycles + 1 }.fail fault (traced config m.cycles pc i)) := by
  cases result : execute i pc { m with cycles := m.cycles + 1 } with
  | ok _ n => exact .inl ⟨n, rfl, perform_of_ok m result⟩
  | error fault n =>
    obtain rfl := (execute_eq_error_iff.mp result).2
    by_cases skipped : fault.isRecoverable = true ∧ config.strictOperands = false
    · exact .inr (.inl ⟨fault, rfl, skipped.1, skipped.2,
        perform_of_skip m result skipped.1 skipped.2⟩)
    · have fatal : fault.isRecoverable = true → config.strictOperands = true := by
        simpa using skipped
      exact .inr (.inr ⟨fault, rfl, fatal, perform_of_abort m result fatal⟩)

end Perform

theorem steps_of_fetches {config : Config} {m : Machine} {i : Instruction}
    (fetches : m.Fetches config i) :
    Steps config m
      ({ m with cursor := m.cursor.moveTo (m.cursor.position + i.encodedLength) }.perform config i
        m.cursor.position) := by
  rcases perform_cases { m with cursor := m.cursor.moveTo (m.cursor.position + i.encodedLength) }
      config i m.cursor.position with
    ⟨n, done, result⟩ | ⟨fault, failed, mild, lenient, result⟩ | ⟨fault, failed, fatal, result⟩
  · rw [result]
    exact .succeed fetches done
  · rw [result]
    exact .skip fetches failed mild lenient
  · rw [result]
    exact .abort fetches failed fatal

theorem steps (config : Config) (m : Machine) : m.Steps config (m.step config) := by
  cases halted : m.halt? with
  | some reason =>
    rw [step_of_halted halted]
    exact .rest halted
  | none =>
    by_cases ended : m.cursor.code.length ≤ m.cursor.position
    · rw [step_of_ended halted ended]
      exact .finish halted ended
    · have inside := Nat.lt_of_not_le ended
      by_cases spent : config.maxCycles ≤ m.cycles
      · rw [step_of_spent halted inside spent]
        exact .exhaust halted inside spent
      · have ready : m.Ready config := ⟨halted, inside, UInt64.not_le.mp spent⟩
        cases fetched : m.cursor.fetch with
        | error e =>
          rw [step_of_unread ready fetched]
          exact .misread ready fetched
        | ok found =>
          obtain ⟨i, next⟩ := found
          obtain ⟨rfl, fits⟩ := Cursor.fetch_eq_ok fetched
          rw [step_of_ready ready fetched]
          exact steps_of_fetches ⟨ready, fetched, fits⟩

/-- The ways to make a step exclude one another. -/
theorem Steps.eq {config : Config} {m : Machine} {result : StepResult}
    (way : m.Steps config result) : m.step config = result := by
  cases way with
  | rest halted => exact step_of_halted halted
  | finish live ended => exact step_of_ended live ended
  | exhaust live inside spent => exact step_of_spent live inside spent
  | misread ready unread => exact step_of_unread ready unread
  | succeed fetches done =>
    rw [step_of_ready fetches.toReady fetches.fetched]
    exact perform_of_ok _ done
  | skip fetches failed mild lenient =>
    rw [step_of_ready fetches.toReady fetches.fetched]
    exact perform_of_skip _ failed mild lenient
  | abort fetches failed fatal =>
    rw [step_of_ready fetches.toReady fetches.fetched]
    exact perform_of_abort _ failed fatal

/-- The machine after so many steps. -/
def after (config : Config) (count : Nat) (m : Machine) : Machine :=
  (fun m => (m.step config).machine)^[count] m

theorem after_succ (config : Config) (count : Nat) (m : Machine) :
    m.after config (count + 1) = ((m.after config count).step config).machine :=
  Function.iterate_succ_apply' _ _ _

/-- The first step instead of the last one apart. -/
theorem after_step (config : Config) (count : Nat) (m : Machine) :
    m.after config (count + 1) = (m.step config).machine.after config count :=
  Function.iterate_succ_apply _ _ _

theorem after_of_halted {config : Config} {m : Machine} {reason : HaltReason}
    (halted : m.halt? = some reason) (count : Nat) : m.after config count = m := by
  induction count with
  | zero => rfl
  | succ count ih => rw [after_succ, ih, step_of_halted halted]

/-- A counted cycle is one of those that the configuration allows, so counting it cannot wrap. -/
theorem Ready.cycles_succ {config : Config} {m : Machine} (ready : m.Ready config) :
    (m.cycles + 1).toNat = m.cycles.toNat + 1 := by
  have below := UInt64.lt_iff_toNat_lt.mp ready.below
  have limit := config.maxCycles.toNat_lt
  rw [UInt64.toNat_add]
  exact Nat.mod_eq_of_lt (by simp; omega)

theorem machine_of_failed {config : Config} {m : Machine} {fault : Fault}
    (failed : (m.step config).outcome = .failed fault) :
    (∃ e, m.cursor.fetch = .error e ∧ fault = .ofDecodeError e ∧
      (m.step config).machine = { m with halt? := some .faulted }) ∨
    (∃ i, m.Fetches config i ∧
      execute i m.cursor.position (m.past i) = .error fault (m.past i) ∧
      (m.step config).machine = { m.past i with halt? := some .faulted }) := by
  have way := steps config m
  generalize m.step config = result at way failed ⊢
  cases way with
  | misread ready unread =>
    cases failed
    exact .inl ⟨_, unread, rfl, rfl⟩
  | abort fetches thrown fatal =>
    cases failed
    exact .inr ⟨_, fetches, thrown, rfl⟩
  | rest | finish | exhaust | succeed | skip => cases failed

theorem machine_of_skipped {config : Config} {m n : Machine} {i : Instruction} {next : Cursor}
    {fault : Fault} (fetched : m.cursor.fetch = .ok (i, next))
    (thrown : execute i m.cursor.position (m.past i) = .error fault n)
    (running : (m.step config).outcome = .running) :
    m.Fetches config i ∧ fault.isRecoverable = true ∧
      (m.step config).machine = { m.past i with faults := m.faults.push fault } := by
  have way := steps config m
  generalize m.step config = result at way running ⊢
  cases way with
  | succeed fetches done =>
    cases fetched.symm.trans fetches.fetched
    cases thrown.symm.trans done
  | skip fetches failed mild lenient =>
    cases fetched.symm.trans fetches.fetched
    cases thrown.symm.trans failed
    exact ⟨fetches, mild, rfl⟩
  | rest | finish | exhaust | misread | abort => cases running

/-- Instructions take effect as a whole or not at all. One that fails leaves the machine on which it
was executed unchanged. A step that finds no instruction changes nothing but the halt reason; a step
whose instruction fails has counted it and moved past it, and besides either halts or records the
fault. A machine that has halted stays as it is, however often it is asked to go on. -/
theorem failure_leaves_no_trace (config : Config) :
    (∀ (i : Instruction) (pc : Nat) (m n : Machine) (fault : Fault),
      execute i pc m = .error fault n → n = m) ∧
    ∀ m : Machine,
      (∀ fault : Fault, (m.step config).outcome = .failed fault →
        (∃ e, m.cursor.fetch = .error e ∧ fault = .ofDecodeError e ∧
          (m.step config).machine = { m with halt? := some .faulted }) ∨
        (∃ i next, m.cursor.fetch = .ok (i, next) ∧
          execute i m.cursor.position (m.past i) = .error fault (m.past i) ∧
          (m.cycles + 1).toNat = m.cycles.toNat + 1 ∧
          (m.step config).machine =
            { m with
              cycles := m.cycles + 1
              cursor := m.cursor.moveTo (m.cursor.position + i.encodedLength)
              halt? := some .faulted })) ∧
      (∀ (i : Instruction) (next : Cursor) (fault : Fault) (n : Machine),
        m.cursor.fetch = .ok (i, next) →
        execute i m.cursor.position (m.past i) = .error fault n →
        (m.step config).outcome = .running →
          (m.cycles + 1).toNat = m.cycles.toNat + 1 ∧
          (∃ expected found, fault = .operandTypeMismatch expected found m.cursor.position) ∧
          (m.step config).machine =
            { m with
              cycles := m.cycles + 1
              cursor := m.cursor.moveTo (m.cursor.position + i.encodedLength)
              faults := m.faults.push fault }) ∧
      (∀ (reason : HaltReason) (count : Nat), m.halt? = some reason →
        (m.after config count).step config = ⟨m, .halted reason, []⟩) := by
  refine ⟨?_, fun m => ⟨?_, ?_, ?_⟩⟩
  · intro i pc m n fault failed
    exact (execute_eq_error_iff.mp failed).2
  · intro fault failed
    rcases machine_of_failed failed with unread | ⟨i, fetches, thrown, left⟩
    · exact .inl unread
    · exact .inr ⟨i, _, fetches.fetched, thrown, fetches.cycles_succ, left⟩
  · intro i next fault n fetched thrown running
    obtain ⟨fetches, mild, left⟩ := machine_of_skipped fetched thrown running
    have genuine := arisesAt_of_execute thrown
    refine ⟨fetches.cycles_succ, ?_, left⟩
    cases fault with
    | operandTypeMismatch expected found pc => exact ⟨expected, found, by rw [genuine.2]⟩
    | _ => cases mild
  · intro reason count halted
    rw [after_of_halted halted, step_of_halted halted]

/-- A division by zero behind a push keeps the pushed byte; a byte that should have been a word is
not stored, and reported. -/
theorem failure_leaves_no_trace_division :
    let divides := (boot [0xFD, 7, 0xA3, 0, 0]).after {} 1
    let widens := boot [0xEE, 0, 5]
    (divides.step {}).outcome = .failed (.divisionByZero 2) ∧
    (divides.step {}).machine =
      { divides with cycles := 2, cursor := divides.cursor.moveTo 5, halt? := some .faulted } ∧
    ((divides.step {}).machine.after {} 9).step {} =
      ⟨(divides.step {}).machine, .halted .faulted, []⟩ ∧
    (widens.step {}).outcome = .running ∧
    (widens.step {}).machine =
      { widens with
        cycles := 1
        cursor := widens.cursor.moveTo 3
        faults := #[.operandTypeMismatch .word .byte 0] } := by
  intro divides widens
  have failed : (divides.step {}).outcome = .failed (.divisionByZero 2) := by decide +kernel
  have running : (widens.step {}).outcome = .running := by decide +kernel
  refine ⟨failed, ?_, ?_, running, ?_⟩
  · rcases ((failure_leaves_no_trace {}).2 divides).1 _ failed with
      ⟨e, unread, _⟩ | ⟨i, next, fetched, _, _, left⟩
    · have read : divides.cursor.fetch.isOk = true := by decide +kernel
      rw [unread] at read
      cases read
    · have read : divides.cursor.fetch =
          .ok (⟨.div, [.literal 0, .literal 0]⟩, divides.cursor.moveTo 5) := by decide +kernel
      cases read.symm.trans fetched
      exact left
  · have halted : (divides.step {}).machine.halt? = some .faulted := by decide +kernel
    exact ((failure_leaves_no_trace {}).2 (divides.step {}).machine).2.2 .faulted 9 halted
  · have read : widens.cursor.fetch =
        .ok (⟨.movw, [.literal 0, .literal 5]⟩, widens.cursor.moveTo 3) := by decide +kernel
    have skipped := ((failure_leaves_no_trace {}).2 widens).2.1 _ _
      (.operandTypeMismatch .word .byte 0) _ read rfl running
    exact skipped.2.2

end Machine
end OctetMachine
