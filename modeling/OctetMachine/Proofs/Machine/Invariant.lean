import Mathlib
import OctetMachine.Machine.Confined
import OctetMachine.Proofs.Machine.Steps

/-! What holds of a machine however it is driven: by steps, and by writes to its memory between
them. Its stack and memory keep to their sizes, its instruction pointer to the code and the places
that a jump can name, and its books agree with one another. -/
namespace OctetMachine

namespace Memory

theorem size_overwrite (address : Nat) (bytes : List UInt8) (cells : Array UInt8) :
    (overwrite address bytes cells).size = cells.size := by
  induction bytes generalizing address cells with
  | nil => rfl
  | cons b bytes ih => rw [overwrite, ih, Array.size_setIfInBounds]

@[simp] theorem size_put (m : Memory) (address : Nat) (v : Value) :
    (m.put address v).size = m.size :=
  size_overwrite address v.bytes m.cells

end Memory

namespace Machine

/-- The machines that some code can become, by steps and by writes that succeed or fail. -/
inductive Reachable (config : Config) (code : List UInt8) : Machine → Prop
  | boot : Reachable config code (boot code)
  | step {m : Machine} (reached : Reachable config code m) :
    Reachable config code (m.step config).machine
  | write {m : Machine} (reached : Reachable config code m) (address : Nat) (v : Value) :
    Reachable config code (Exec.machine (Exec.store address v m))

structure Sound (config : Config) (code : List UInt8) (m : Machine) : Prop where
  code_eq : m.cursor.code = code
  stack_le : m.stack.size ≤ 1024
  memory_eq : m.memory.size = 1024
  cycles_le : m.cycles ≤ config.maxCycles
  position_le : m.cursor.position ≤ max code.length 255
  faults_le : m.faults.size ≤ m.cycles.toNat
  strict : config.strictOperands = true → m.faults = #[]
  /-- Only instructions of the code that met the wrong width are skipped. -/
  mismatched : ∀ fault ∈ m.faults, ∃ expected found pc,
    fault = .operandTypeMismatch expected found pc ∧ expected ≠ found ∧ pc < code.length
  ended : m.halt? = some .endOfProgram → code.length ≤ m.cursor.position
  spent : m.halt? = some .cycleLimit → m.cycles = config.maxCycles

variable {config : Config} {code : List UInt8} {m : Machine}

theorem sound_boot (config : Config) (code : List UInt8) : Sound config code (boot code) where
  code_eq := rfl
  stack_le := Nat.zero_le _
  memory_eq := by simp [boot, Memory.zeros, Memory.size, Memory.defaultSize]
  cycles_le := UInt64.zero_le
  position_le := Nat.zero_le _
  faults_le := Nat.zero_le _
  strict _ := rfl
  mismatched fault member := by simp [boot] at member
  ended halted := by simp [boot] at halted
  spent halted := by simp [boot] at halted

theorem Sound.write (sound : Sound config code m) (address : Nat) (v : Value) :
    Sound config code (Exec.machine (Exec.store address v m)) := by
  unfold Exec.store
  split
  · exact { sound with memory_eq := by simp [Exec.machine, sound.memory_eq] }
  · exact sound

theorem Sound.past {i : Instruction} (sound : Sound config code m) (fetches : m.Fetches config i) :
    Sound config code (m.past i) where
  code_eq := sound.code_eq
  stack_le := sound.stack_le
  memory_eq := sound.memory_eq
  cycles_le := by
    have below := UInt64.lt_iff_toNat_lt.mp fetches.below
    have counted := fetches.cycles_succ
    apply UInt64.le_iff_toNat_le.mpr
    show (m.cycles + 1).toNat ≤ _
    omega
  position_le := by
    have fits := fetches.fits
    rw [sound.code_eq] at fits
    exact le_max_of_le_left fits
  faults_le := by
    have before := sound.faults_le
    show m.faults.size ≤ (m.cycles + 1).toNat
    rw [fetches.cycles_succ]
    omega
  strict := sound.strict
  mismatched := sound.mismatched
  ended halted := by simp [Machine.past, fetches.live] at halted
  spent halted := by simp [Machine.past, fetches.live] at halted

/-- An effect keeps a machine sound as long as it has not halted: only then may the instruction
pointer move. -/
theorem Sound.on {e : Effect} (sound : Sound config code m) (live : m.halt? = none)
    (clear : e.obstacle? m = none) : Sound config code (e.on m) := by
  cases e with
  | nothing => exact sound
  | store address v => exact { sound with memory_eq := by simp [Effect.on, sound.memory_eq] }
  | push v =>
    refine { sound with stack_le := ?_ }
    simp only [Effect.obstacle?, ite_eq_right_iff, reduceCtorEq, imp_false, Nat.not_lt] at clear
    have size : ((Effect.push v).on m).stack.size = m.stack.size + v.width.bytes := by
      simp [Effect.on, Stack.size, ← Array.length_toList, v.length_bytes]
    exact size.trans_le clear
  | pop =>
    refine { sound with stack_le := ?_ }
    have before := sound.stack_le
    simp only [Effect.on, Stack.size, Array.size_pop] at before ⊢
    omega
  | jump target =>
    refine { sound with position_le := ?_, ended := ?_ }
    · have small := target.toNat_lt
      exact le_max_of_le_right (Nat.le_of_lt_succ small)
    · intro halted
      rw [show ((Effect.jump target).on m).halt? = m.halt? from rfl, live] at halted
      cases halted

theorem Sound.skip {i : Instruction} {fault : Fault} (sound : Sound config code m)
    (fetches : m.Fetches config i)
    (failed : execute i m.cursor.position (m.past i) = .error fault (m.past i))
    (mild : fault.isRecoverable = true) (lenient : config.strictOperands = false) :
    Sound config code { m.past i with faults := m.faults.push fault } := by
  have genuine := arisesAt_of_execute failed
  have inside := fetches.inside
  refine { sound.past fetches with faults_le := ?_, strict := ?_, mismatched := ?_ }
  · have before := sound.faults_le
    have counted := fetches.cycles_succ
    simp only [Machine.past, Array.size_push]
    omega
  · intro strict
    rw [strict] at lenient
    cases lenient
  · intro other member
    rcases Array.mem_push.mp member with old | rfl
    · exact sound.mismatched other old
    · rw [sound.code_eq] at inside
      cases other with
      | operandTypeMismatch expected found pc =>
        obtain ⟨unequal, rfl⟩ := genuine
        exact ⟨expected, found, _, rfl, unequal, inside⟩
      | _ => cases mild

theorem Sound.stop {reason : HaltReason} (sound : Sound config code m)
    (ended : reason = .endOfProgram → code.length ≤ m.cursor.position)
    (spent : reason = .cycleLimit → m.cycles = config.maxCycles) :
    Sound config code { m with halt? := some reason } :=
  { sound with
    ended := fun halted => ended (Option.some.inj halted)
    spent := fun halted => spent (Option.some.inj halted) }

theorem Sound.step (sound : Sound config code m) : Sound config code (m.step config).machine := by
  have way := steps config m
  generalize m.step config = result at way ⊢
  cases way with
  | rest halted => exact sound
  | finish live ended =>
    rw [sound.code_eq] at ended
    exact sound.stop (fun _ => ended) (by simp)
  | exhaust live inside spent =>
    exact sound.stop (by simp) fun _ => UInt64.le_antisymm sound.cycles_le spent
  | misread ready unread => exact sound.stop (by simp) (by simp)
  | succeed fetches done =>
    obtain ⟨e, _, clear, rfl⟩ := execute_eq_ok_iff.mp done
    exact (sound.past fetches).on fetches.live clear
  | skip fetches failed mild lenient => exact sound.skip fetches failed mild lenient
  | abort fetches failed fatal => exact (sound.past fetches).stop (by simp) (by simp)

/-- However a machine is driven, it stays sound. -/
theorem sound_of_reachable (reached : Reachable config code m) : Sound config code m := by
  induction reached with
  | boot => exact sound_boot config code
  | step _ sound => exact sound.step
  | write _ address v sound => exact sound.write address v

/-- A skipped instruction, a write across the end of memory, and a pop from the empty stack. -/
theorem sound_of_reachable_skipping :
    let code : List UInt8 := [0xEE, 0, 5, 0xFC]
    let skipped := ((boot code).step {}).machine
    let m := ((Exec.machine (Exec.store 1021 (.ofNat .doubleWord 7) skipped)).step {}).machine
    Reachable {} code m ∧ m.faults = #[.operandTypeMismatch .word .byte 0] ∧
      m.halt? = some .faulted ∧ Sound {} code m := by
  intro code skipped m
  have reached : Reachable {} code m := .step (.write (.step .boot) _ _)
  exact ⟨reached, by decide +kernel, by decide +kernel, sound_of_reachable reached⟩

end Machine
end OctetMachine
