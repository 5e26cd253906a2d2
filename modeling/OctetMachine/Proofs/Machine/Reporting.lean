import Mathlib
import OctetMachine.Proofs.Machine.Invariant
import OctetMachine.Proofs.Machine.Running

/-! What a report tells of a machine that was driven by steps, with writes to its memory between
them, and looked at in the end. A report of a machine that has stopped gives the true reason. One of
a machine that could still go on gives the end of the program, whether it is there or not. -/
namespace OctetMachine

/-- What can be done with a machine before it is looked at. -/
inductive Session.Operation where
  | step
  | write (address : Nat) (v : Value)
deriving DecidableEq

/-- A machine, and what each step so far has come to. -/
structure Session where
  machine : Machine
  outcomes : List Outcome
deriving DecidableEq

namespace Session

def act (config : Config) (s : Session) : Operation → Session
  | .step =>
    let result := s.machine.step config
    ⟨result.machine, s.outcomes ++ [result.outcome]⟩
  | .write address v => { s with machine := Exec.machine (Exec.store address v s.machine) }

/-- The session in which some code is driven like this. -/
def ofOperations (config : Config) (code : List UInt8) (ops : List Operation) : Session :=
  ops.foldl (act config) ⟨.boot code, []⟩

end Session

/-- The halt reason of a report is borne out by the other things that it tells, and by the outcomes
of the steps. -/
structure Report.Truthful (config : Config) (code : List UInt8) (outcomes : List Outcome)
    (r : Report) : Prop where
  ended : r.haltReason = .endOfProgram → code.length ≤ r.position
  spent : r.haltReason = .cycleLimit → r.cycles = config.maxCycles
  faulted : r.haltReason = .faulted ↔ ∃ fault, Outcome.failed fault ∈ outcomes

namespace Machine

variable {config : Config} {code : List UInt8} {m : Machine}

/-- Only a step that leaves the machine running leaves it without a halt reason. -/
theorem halt?_step_eq_none_iff :
    (m.step config).machine.halt? = none ↔
      m.halt? = none ∧ (m.step config).outcome = .running := by
  have way := steps config m
  generalize m.step config = result at way ⊢
  cases way with
  | rest halted => simp [halted]
  | finish | exhaust => simp [stop]
  | misread | abort => simp [fail]
  | succeed fetches done =>
    have kept := (sameBooks_of_execute done).halt
    simp [kept, past, fetches.live]
  | skip fetches => simp [past, fetches.live]

/-- A machine is marked as faulted by the step that fails, and keeps the mark. -/
theorem halt?_step_eq_faulted_iff :
    (m.step config).machine.halt? = some .faulted ↔
      m.halt? = some .faulted ∨ ∃ fault, (m.step config).outcome = .failed fault := by
  have way := steps config m
  generalize m.step config = result at way ⊢
  cases way with
  | rest halted => simp
  | finish live | exhaust live => simp [stop, live]
  | misread | abort => simp [fail]
  | succeed fetches done =>
    have kept := (sameBooks_of_execute done).halt
    simp [kept, past, fetches.live]
  | skip fetches => simp [past, fetches.live]

theorem halt?_write (address : Nat) (v : Value) :
    (Exec.machine (Exec.store address v m)).halt? = m.halt? :=
  (Exec.confined_store address v m).halt

/-- The reason in a report is the machine's own, or stands in for one that is missing. -/
theorem haltReason_report_eq_iff {reason : HaltReason} :
    m.report.haltReason = reason ↔
      m.halt? = some reason ∨ m.halt? = none ∧ reason = .endOfProgram := by
  unfold report
  cases m.halt? <;> simp [eq_comm]

end Machine

namespace Session

variable {config : Config} {code : List UInt8} {s : Session}

/-- The outcomes tell whether the machine has stopped, and whether it has faulted. -/
structure Accounted (config : Config) (code : List UInt8) (s : Session) : Prop where
  sound : s.machine.Sound config code
  live : s.machine.halt? = none ↔ ∀ outcome ∈ s.outcomes, outcome = .running
  faulted : s.machine.halt? = some .faulted ↔ ∃ fault, Outcome.failed fault ∈ s.outcomes

theorem Accounted.act (before : s.Accounted config code) (op : Operation) :
    (s.act config op).Accounted config code := by
  cases op with
  | step =>
    refine ⟨before.sound.step, ?_, ?_⟩
    · simp only [Session.act, Machine.halt?_step_eq_none_iff, before.live, List.forall_mem_append,
        List.forall_mem_singleton]
    · simp only [Session.act, Machine.halt?_step_eq_faulted_iff, before.faulted, List.mem_append,
        List.mem_singleton, exists_or, @eq_comm Outcome]
  | write address v =>
    refine ⟨before.sound.write address v, ?_, ?_⟩
    · simpa only [Session.act, Machine.halt?_write] using before.live
    · simpa only [Session.act, Machine.halt?_write] using before.faulted

theorem accounted_ofOperations (config : Config) (code : List UInt8) (ops : List Operation) :
    (ofOperations config code ops).Accounted config code := by
  have start : Accounted config code ⟨.boot code, []⟩ :=
    ⟨Machine.sound_boot config code, by simp [Machine.boot], by simp [Machine.boot]⟩
  -- The induction is over what is still to be done, so it starts from any accounted session.
  unfold ofOperations
  generalize (⟨.boot code, []⟩ : Session) = s at start
  induction ops generalizing s with
  | nil => exact start
  | cons op ops ih => exact ih (s.act config op) (start.act op)

namespace Accounted

theorem spent (accounted : s.Accounted config code)
    (limited : s.machine.report.haltReason = .cycleLimit) :
    s.machine.report.cycles = config.maxCycles := by
  rcases Machine.haltReason_report_eq_iff.mp limited with halted | ⟨_, other⟩
  · exact accounted.sound.spent halted
  · cases other

theorem faulted_report (accounted : s.Accounted config code) :
    s.machine.report.haltReason = .faulted ↔ ∃ fault, Outcome.failed fault ∈ s.outcomes := by
  rw [← accounted.faulted, Machine.haltReason_report_eq_iff]
  simp

/-- The end of the program is reported where it was reached, and of any machine that could go on. -/
theorem ended_iff (accounted : s.Accounted config code) :
    (s.machine.report.haltReason = .endOfProgram → code.length ≤ s.machine.cursor.position) ↔
      code.length ≤ s.machine.cursor.position ∨ ∃ outcome ∈ s.outcomes, outcome ≠ .running := by
  rw [Machine.haltReason_report_eq_iff]
  constructor
  · intro ended
    -- A machine that has not halted reports the end all the same, so it has to be there.
    by_cases live : s.machine.halt? = none
    · exact .inl (ended (.inr ⟨live, rfl⟩))
    · rw [accounted.live] at live
      exact .inr (by simpa using live)
  · rintro (beyond | stopped) reported
    · exact beyond
    · rcases reported with halted | ⟨live, _⟩
      · exact accounted.sound.ended halted
      · obtain ⟨outcome, member, other⟩ := stopped
        exact absurd (accounted.live.mp live outcome member) other

end Accounted
end Session

/-- Whatever was done with a machine, a report shows it as it is. A report of the cycle limit is of a
machine that has spent all its cycles, and a fault is reported exactly of a machine one of whose steps
has failed. The end of the program is also reported as long as every step has left the machine
running, so that the report is truthful exactly if the machine has been stopped by some step, or
stands at the end of its code or beyond. -/
theorem Session.report_is_truthful_iff_stopped (config : Config) (code : List UInt8)
    (ops : List Operation) :
    let s := Session.ofOperations config code ops
    let r := s.machine.report
    (r.cycles = s.machine.cycles ∧ r.position = s.machine.cursor.position ∧
      r.stack = s.machine.stack ∧ r.memory = s.machine.memory ∧ r.faults = s.machine.faults ∧
      s.machine.cursor.code = code) ∧
    (r.haltReason = .cycleLimit → r.cycles = config.maxCycles) ∧
    (r.haltReason = .faulted ↔ ∃ fault, Outcome.failed fault ∈ s.outcomes) ∧
    ((∀ outcome ∈ s.outcomes, outcome = .running) → r.haltReason = .endOfProgram) ∧
    (r.Truthful config code s.outcomes ↔
      code.length ≤ r.position ∨ ∃ outcome ∈ s.outcomes, outcome ≠ .running) := by
  intro s r
  have accounted : s.Accounted config code := accounted_ofOperations config code ops
  refine ⟨⟨rfl, rfl, rfl, rfl, rfl, accounted.sound.code_eq⟩, accounted.spent,
    accounted.faulted_report, fun running => ?_, fun truthful => ?_, fun stopped => ?_⟩
  · exact Machine.haltReason_report_eq_iff.mpr (.inr ⟨accounted.live.mpr running, rfl⟩)
  · exact accounted.ended_iff.mp truthful.ended
  · exact ⟨accounted.ended_iff.mpr stopped, accounted.spent, accounted.faulted_report⟩

/-- A division by zero, behind a push and a write, is reported truthfully, also when the machine is
asked to go on. -/
theorem Session.report_is_truthful_iff_stopped_division :
    let code : List UInt8 := [0xFD, 7, 0xA3, 0, 0]
    let s := Session.ofOperations {} code [.step, .write 3 (.ofNat .word 300), .step, .step]
    s.outcomes = [.running, .failed (.divisionByZero 2), .halted .faulted] ∧
    s.machine.report.haltReason = .faulted ∧
    s.machine.report.Truthful {} code s.outcomes := by
  intro code s
  have told : s.outcomes = [.running, .failed (.divisionByZero 2), .halted .faulted] := by
    decide +kernel
  obtain ⟨_, _, faulted, _, truthful⟩ := Session.report_is_truthful_iff_stopped {} code
    [.step, .write 3 (.ofNat .word 300), .step, .step]
  refine ⟨told, faulted.mpr ⟨.divisionByZero 2, ?_⟩, truthful.mpr (.inr ⟨.halted .faulted, ?_, ?_⟩)⟩
  · exact told ▸ by simp
  · exact told ▸ by simp
  · simp

/-- Looked at after the only step that it may make, a machine in the midst of its code reports the
end of the program, where the cycle limit alone would have been true. -/
theorem Session.end_reported_before_end :
    let config : Config := { maxCycles := 1 }
    let code : List UInt8 := [0xFD, 1, 0xFD, 2]
    let s := Session.ofOperations config code [.step]
    let r := s.machine.report
    s.outcomes = [.running] ∧ r.haltReason = .endOfProgram ∧ r.position = 2 ∧ r.cycles = 1 ∧
    ¬ r.Truthful config code s.outcomes ∧
    ∀ reason, { r with haltReason := reason }.Truthful config code s.outcomes ↔
      reason = .cycleLimit := by
  intro config code s r
  have told : s.outcomes = [.running] := by decide +kernel
  have reported : r.haltReason = .endOfProgram := by decide +kernel
  have position : r.position = 2 := by decide +kernel
  have cycles : r.cycles = 1 := by decide +kernel
  have only : ∀ reason, { r with haltReason := reason }.Truthful config code s.outcomes ↔
      reason = .cycleLimit := by
    intro reason
    rw [told]
    constructor
    · intro truthful
      cases reason with
      | endOfProgram =>
        have ended := truthful.ended rfl
        simp [position, code] at ended
      | cycleLimit => rfl
      | faulted =>
        have faulted := truthful.faulted.mp rfl
        simp at faulted
    · rintro rfl
      exact ⟨by simp, fun _ => cycles, by simp⟩
  refine ⟨told, reported, position, cycles, fun truthful => ?_, only⟩
  have limited := (only r.haltReason).mp truthful
  cases reported.symm.trans limited

end OctetMachine
