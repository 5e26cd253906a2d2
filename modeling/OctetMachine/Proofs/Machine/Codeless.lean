import Mathlib
import OctetMachine.Proofs.Machine.Steps

/-! Instructions do not look at the code they come from. On two machines that differ in their
cursors alone, an instruction has the same outcome; it leaves each cursor where it is, or sends both
to the same place. -/
namespace OctetMachine

/-- The opcodes that can move the instruction pointer. -/
def Opcode.jumps (op : Opcode) : Bool :=
  match op.action with
  | .jump | .branch _ => true
  | _ => false

namespace Machine

def withCursor (c : Cursor) (m : Machine) : Machine := { m with cursor := c }

/-- The machine with other code under its instruction pointer. -/
def withCode (code : List UInt8) (m : Machine) : Machine :=
  m.withCursor ⟨code, m.cursor.position⟩

end Machine

namespace StepResult

def withCursor (c : Cursor) (r : StepResult) : StepResult :=
  { r with machine := r.machine.withCursor c }

def withCode (code : List UInt8) (r : StepResult) : StepResult :=
  { r with machine := r.machine.withCode code }

end StepResult

/-- The cursor after an instruction that asks for this target, or for none. -/
def Cursor.redirect (c : Cursor) : Option Nat → Cursor
  | none => c
  | some target => c.moveTo target

namespace Effect

def target? : Effect → Option Nat
  | jump target => some target.toNat
  | nothing | store .. | push _ | pop => none

theorem on_withCursor (e : Effect) (c : Cursor) (m : Machine) :
    e.on (m.withCursor c) = (e.on m).withCursor (c.redirect e.target?) := by
  cases e <;> rfl

theorem obstacle?_withCursor (e : Effect) (c : Cursor) (m : Machine) :
    e.obstacle? (m.withCursor c) = e.obstacle? m := by
  cases e <;> rfl

theorem jumps_of_target? {op : Opcode} {e : Effect} (allowed : op.action.Allows e)
    (moves : e.target?.isSome = true) : op.jumps = true := by
  unfold Opcode.jumps
  generalize op.action = action at allowed
  cases allowed <;> first | rfl | cases moves

end Effect

theorem Instruction.effect_withCursor (i : Instruction) (pc : Nat) (c : Cursor) (m : Machine) :
    i.effect pc (m.withCursor c) = i.effect pc m :=
  effect_congr rfl rfl i pc

theorem execute_withCursor_of_ok {i : Instruction} {pc : Nat} {m n : Machine}
    (done : execute i pc m = .ok () n) : ∃ target? : Option Nat,
      (target?.isSome = true → i.opcode.jumps = true) ∧
        ∀ c, execute i pc (m.withCursor c) = .ok () (n.withCursor (c.redirect target?)) := by
  obtain ⟨e, planned, clear, rfl⟩ := execute_eq_ok_iff.mp done
  refine ⟨e.target?, Effect.jumps_of_target? ((meets_effect i pc m).ok e planned), fun c => ?_⟩
  rw [← Effect.on_withCursor]
  apply execute_eq_ok_iff.mpr
  refine ⟨e, ?_, ?_, rfl⟩
  · rw [i.effect_withCursor, planned]
  · rw [e.obstacle?_withCursor, clear]

theorem execute_withCursor_of_error {i : Instruction} {pc : Nat} {m n : Machine} {fault : Fault}
    (failed : execute i pc m = .error fault n) (c : Cursor) :
    execute i pc (m.withCursor c) = .error fault (m.withCursor c) := by
  obtain ⟨cause, _⟩ := execute_eq_error_iff.mp failed
  apply execute_eq_error_iff.mpr
  simpa only [Instruction.effect_withCursor, Effect.obstacle?_withCursor, and_true] using cause

namespace Machine

/-- What an instruction comes to does not depend on the cursor, except for where the cursor is then:
in its place, or at the target of a jump. -/
theorem exists_target (config : Config) (i : Instruction) (pc : Nat) (m : Machine) :
    ∃ target? : Option Nat, (target?.isSome = true → i.opcode.jumps = true) ∧
      ∀ c, (m.withCursor c).perform config i pc =
        (m.perform config i pc).withCursor (c.redirect target?) := by
  rcases perform_cases m config i pc with
    ⟨n, done, result⟩ | ⟨fault, failed, mild, lenient, result⟩ | ⟨fault, failed, fatal, result⟩
  · obtain ⟨target?, jumps, done⟩ := execute_withCursor_of_ok done
    rw [result]
    exact ⟨target?, jumps, fun c => perform_of_ok (m.withCursor c) (done c)⟩
  · have failed := execute_withCursor_of_error failed
    rw [result]
    exact ⟨none, by simp, fun c => perform_of_skip (m.withCursor c) (failed c) mild lenient⟩
  · have failed := execute_withCursor_of_error failed
    rw [result]
    exact ⟨none, by simp, fun c => perform_of_abort (m.withCursor c) (failed c) fatal⟩

theorem perform_withCode (config : Config) (i : Instruction) (pc : Nat) (code : List UInt8)
    (m : Machine) :
    (m.withCode code).perform config i pc = (m.perform config i pc).withCode code := by
  obtain ⟨target?, _, performed⟩ := exists_target config i pc m
  have here : (m.perform config i pc).machine.cursor = m.cursor.redirect target? :=
    congrArg (fun r : StepResult => r.machine.cursor) (performed m.cursor)
  have there : (m.withCode code).perform config i pc = _ := performed ⟨code, m.cursor.position⟩
  rw [there, StepResult.withCode, withCode, here]
  cases target? <;> rfl

/-- Other instructions than jumps leave the cursor alone, whatever it is. -/
theorem perform_withCursor {i : Instruction} (straight : i.opcode.jumps = false) (config : Config)
    (pc : Nat) (c : Cursor) (m : Machine) :
    (m.withCursor c).perform config i pc = (m.perform config i pc).withCursor c := by
  obtain ⟨target?, jumps, performed⟩ := exists_target config i pc m
  cases target? with
  | none => exact performed c
  | some target => cases straight.symm.trans (jumps rfl)

theorem cursor_perform {i : Instruction} (straight : i.opcode.jumps = false) (config : Config)
    (pc : Nat) (m : Machine) : (m.perform config i pc).machine.cursor = m.cursor :=
  congrArg (fun r : StepResult => r.machine.cursor)
    (perform_withCursor straight config pc m.cursor m)

end Machine
end OctetMachine
