import OctetMachine.Machine.Step

/-! Instructions are confined to stack, memory and instruction pointer. Whether they succeed or
fail, the code, the cycle count, the halt reason and the recorded faults stay as they are. -/
namespace OctetMachine

/-- Two machines that differ in stack, memory and instruction pointer at most. -/
structure Machine.SameBooks (m n : Machine) : Prop where
  code : n.cursor.code = m.cursor.code
  cycles : n.cycles = m.cycles
  halt : n.halt? = m.halt?
  faults : n.faults = m.faults

namespace Machine.SameBooks

theorem refl (m : Machine) : m.SameBooks m := ⟨rfl, rfl, rfl, rfl⟩

theorem trans {m n k : Machine} (first : m.SameBooks n) (last : n.SameBooks k) : m.SameBooks k :=
  ⟨last.code.trans first.code, last.cycles.trans first.cycles, last.halt.trans first.halt,
    last.faults.trans first.faults⟩

end Machine.SameBooks

namespace Exec

/-- The machine that a result leaves. -/
def machine {α : Type} : EStateM.Result Fault Machine α → Machine
  | .ok _ m => m
  | .error _ m => m

def Confined {α : Type} (p : Exec α) : Prop := ∀ m : Machine, m.SameBooks (machine (p m))

theorem confined_pure {α : Type} (a : α) : Confined (pure a : Exec α) := Machine.SameBooks.refl

theorem confined_throw {α : Type} (fault : Fault) : Confined (throw fault : Exec α) :=
  Machine.SameBooks.refl

theorem confined_get : Confined (get : Exec Machine) := Machine.SameBooks.refl

theorem Confined.bind {α β : Type} {p : Exec α} {f : α → Exec β} (first : Confined p)
    (last : ∀ a, Confined (f a)) : Confined (p >>= f) := by
  intro m
  have step := first m
  simp only [Bind.bind, EStateM.bind]
  cases result : p m with
  | ok a n =>
    rw [result] at step
    exact step.trans (last a n)
  | error e n =>
    rw [result] at step
    exact step

theorem confined_ofExcept {α : Type} (answer : Except Fault α) : Confined (ofExcept answer) := by
  cases answer with
  | ok a => exact confined_pure a
  | error fault => exact confined_throw fault

theorem confined_resolve (o : Operand) : Confined (resolve o) :=
  confined_get.bind fun _ => confined_ofExcept _

theorem confined_resolveByte (pc : Nat) (o : Operand) : Confined (resolveByte pc o) := by
  refine (confined_resolve o).bind fun v => ?_
  split
  · exact confined_pure _
  · exact confined_throw _

theorem confined_requireWidth (pc : Nat) (v : Value) (w : Option Width) :
    Confined (requireWidth pc v w) := by
  cases w with
  | none => exact confined_pure _
  | some w =>
    simp only [requireWidth]
    split
    · exact confined_pure _
    · exact confined_throw _

theorem confined_loadByte (address : Nat) : Confined (loadByte address) :=
  confined_get.bind fun _ => confined_ofExcept _

theorem confined_store (address : Nat) (v : Value) : Confined (store address v) := by
  intro m
  unfold store
  split <;> exact ⟨rfl, rfl, rfl, rfl⟩

theorem confined_push (v : Value) : Confined (push v) := by
  intro m
  unfold push
  split <;> exact ⟨rfl, rfl, rfl, rfl⟩

theorem confined_pop : Confined pop := by
  intro m
  unfold pop
  split <;> exact ⟨rfl, rfl, rfl, rfl⟩

theorem confined_jump (target : UInt8) : Confined (jump target) :=
  fun _ => ⟨rfl, rfl, rfl, rfl⟩

end Exec

open Exec in
theorem confined_execute (i : Instruction) (pc : Nat) : Confined (execute i pc) := by
  unfold execute
  split
  · exact (confined_resolveByte _ _).bind fun _ => (confined_resolve _).bind fun _ =>
      (confined_requireWidth _ _ _).bind fun _ => confined_store _ _
  · exact (confined_resolve _).bind fun _ => confined_push _
  · exact confined_pop
  · exact (confined_resolveByte _ _).bind fun _ => confined_jump _
  · refine (confined_resolveByte _ _).bind fun _ => (confined_resolve _).bind fun _ =>
      (confined_loadByte _).bind fun _ => ?_
    split
    · exact confined_store _ _
    · exact confined_throw _
  · exact (confined_resolve _).bind fun _ => (confined_resolve _).bind fun _ => confined_push _
  · refine (confined_resolve _).bind fun _ => (confined_resolve _).bind fun _ =>
      (confined_resolveByte _ _).bind fun _ => ?_
    split
    · exact confined_jump _
    · exact confined_pure _
  · exact confined_throw _

namespace Machine

theorem cycles_of_perform {config : Config} {m : Machine} {i : Instruction} {pc : Nat} :
    (m.perform config i pc).machine.cycles = m.cycles + 1 := by
  have books := (confined_execute i pc { m with cycles := m.cycles + 1 }).cycles
  unfold perform
  dsimp only
  cases result : execute i pc { m with cycles := m.cycles + 1 } with
  | ok _ n =>
    rw [result] at books
    exact books
  | error fault n =>
    rw [result] at books
    dsimp only
    split <;> exact books

/-- A step that leaves the machine running has used up one of the cycles that were left. -/
theorem cycles_of_step {config : Config} {m : Machine}
    (running : (m.step config).outcome = .running) :
    m.cycles < config.maxCycles ∧ (m.step config).machine.cycles = m.cycles + 1 := by
  unfold step at running ⊢
  cases halted : m.halt? with
  | some reason => simp [halted] at running
  | none =>
    simp only [halted] at running ⊢
    split at running
    · cases running
    · rename_i inside
      simp only [inside] at running ⊢
      split at running
      · cases running
      · rename_i below
        simp only [below, if_false] at running ⊢
        refine ⟨UInt64.not_le.mp below, ?_⟩
        cases fetched : m.cursor.fetch with
        | error e =>
          simp only [fetched] at running
          cases running
        | ok found =>
          obtain ⟨i, next⟩ := found
          exact cycles_of_perform

end Machine
end OctetMachine
