import OctetMachine.Machine.Event
import OctetMachine.Machine.Execute

/-! One step of a machine. -/
namespace OctetMachine

inductive Outcome where
  | running
  | halted (reason : HaltReason)
  | failed (fault : Fault)
deriving DecidableEq, Repr

structure StepResult where
  machine : Machine
  outcome : Outcome
  events : List Event

namespace Machine

def stop (m : Machine) (reason : HaltReason) : StepResult where
  machine := { m with halt? := some reason }
  outcome := .halted reason
  events := [.halted reason m.cycles m.cursor.position]

def fail (m : Machine) (fault : Fault) (events : List Event) : StepResult where
  machine := { m with halt? := some .faulted }
  outcome := .failed fault
  events := events ++ [.failed m.cycles fault]

/-- Execute an instruction that was fetched from `pc`, on a machine that has moved past it. -/
def perform (config : Config) (m : Machine) (i : Instruction) (pc : Nat) : StepResult :=
  let traced := if config.trace then [.executing m.cycles pc i] else []
  match execute i pc { m with cycles := m.cycles + 1 } with
  | .ok () m => ⟨m, .running, traced⟩
  | .error fault m =>
    if fault.isRecoverable && !config.strictOperands then
      ⟨{ m with faults := m.faults.push fault }, .running, traced ++ [.skipped pc i fault]⟩
    else m.fail fault traced

/-- Execute one instruction, or halt. A machine that has halted stays as it is. -/
def step (config : Config) (m : Machine) : StepResult :=
  match m.halt? with
  | some reason => ⟨m, .halted reason, []⟩
  | none =>
    if m.cursor.atEnd then m.stop .endOfProgram
    else if config.maxCycles ≤ m.cycles then m.stop .cycleLimit
    else
      match m.cursor.fetch with
      | .error e => m.fail (.ofDecodeError e) []
      | .ok (i, next) => { m with cursor := next }.perform config i m.cursor.position

end Machine
end OctetMachine
