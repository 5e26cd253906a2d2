import Mathlib
import OctetMachine.Machine.Step
import OctetMachine.Proofs.Value.Codec

/-! What an instruction does, in two parts. First all its operands are resolved against the machine
as it stands; this only reads, and ends in a fault or in one effect. Then the effect takes place,
all of it or nothing of it. So there is no point at which an instruction could fail halfway. -/
namespace OctetMachine

/-- The one thing that an instruction changes. -/
inductive Effect where
  | nothing
  | store (address : UInt8) (value : Value)
  | push (value : Value)
  | pop
  | jump (target : UInt8)

namespace Effect

/-- What stands in the way of an effect. -/
def obstacle? (m : Machine) : Effect → Option Fault
  | nothing | jump _ => none
  | store address v =>
    if m.memory.Holds address.toNat v.width then none else some (.outOfBounds address.toNat v.width)
  | push v =>
    if Stack.capacity < m.stack.size + v.width.bytes then some (.stackOverflow Stack.capacity)
    else none
  | pop => if m.stack.size = 0 then some .stackUnderflow else none

/-- The machine in which an effect has taken place. -/
def on (m : Machine) : Effect → Machine
  | nothing => m
  | store address v => { m with memory := m.memory.put address.toNat v }
  | push v => { m with stack := ⟨m.stack.bytes ++ v.bytes⟩ }
  | pop => { m with stack := ⟨m.stack.bytes.pop⟩ }
  | jump target => { m with cursor := m.cursor.moveTo target.toNat }

/-- Let an effect take place, or fail without a trace. -/
def attempt (e : Effect) : Exec Unit := fun m =>
  match e.obstacle? m with
  | none => .ok () (e.on m)
  | some fault => .error fault m

end Effect

/-- The byte of a value that has to be one. -/
def Value.expectByte (pc : Nat) (v : Value) : Except Fault UInt8 :=
  match v.byte? with
  | some b => .ok b
  | none => .error (.operandTypeMismatch .byte v.width pc)

/-- Insist on a value's width, where one is asked for. -/
def Value.expectWidth (pc : Nat) (v : Value) : Option Width → Except Fault Unit
  | none => .ok ()
  | some w => if v.width = w then .ok () else .error (.operandTypeMismatch w v.width pc)

def Machine.resolveByte (m : Machine) (pc : Nat) (o : Operand) : Except Fault UInt8 := do
  (← m.resolve o).expectByte pc

/-- The effect that an instruction asks for, with its operands resolved. -/
def Instruction.effect (i : Instruction) (pc : Nat) (m : Machine) : Except Fault Effect :=
  match i.opcode.action, i.operands with
  | .move width, [destination, source] => do
    let address ← m.resolveByte pc destination
    let value ← m.resolve source
    value.expectWidth pc width
    return .store address value
  | .combine operation, [destination, source] => do
    let address ← m.resolveByte pc destination
    let right ← m.resolve source
    let left ← m.memory.readByte address.toNat
    match operation.apply? (.ofByte left) right with
    | some result => return .store address result
    | none => throw (.divisionByZero pc)
  | .push, [operand] => return .push (← m.resolve operand)
  | .compare relation, [left, right] => do
    let a ← m.resolve left
    let b ← m.resolve right
    return .push (.ofByte (if relation.holds a b then 1 else 0))
  | .pop, [] => return .pop
  | .jump, [target] => return .jump (← m.resolveByte pc target)
  | .branch relation, [left, right, target] => do
    let a ← m.resolve left
    let b ← m.resolve right
    let destination ← m.resolveByte pc target
    return if relation.holds a b then .jump destination else .nothing
  | _, _ => throw (.malformedInstruction pc)

namespace Exec

/-- A computation that looks at the machine and leaves it alone. -/
def Reads {α : Type} (p : Exec α) (answer : Machine → Except Fault α) : Prop :=
  ∀ m, p m = ofExcept (answer m) m

/-- A computation that looks at the machine for one effect and then attempts it. -/
def Performs (p : Exec Unit) (plan : Machine → Except Fault Effect) : Prop :=
  ∀ m, p m = (ofExcept (plan m) >>= Effect.attempt) m

theorem Reads.bind_apply {α β : Type} {p : Exec α} {answer : Machine → Except Fault α}
    (reads : Reads p answer) (k : α → Exec β) (m : Machine) :
    (p >>= k) m = (ofExcept (answer m) >>= k) m := by
  simp only [Bind.bind, EStateM.bind, reads m]

theorem Reads.bind {α β : Type} {p : Exec α} {answer : Machine → Except Fault α} {k : α → Exec β}
    {next : α → Machine → Except Fault β} (first : Reads p answer)
    (last : ∀ a, Reads (k a) (next a)) : Reads (p >>= k) (fun m => answer m >>= (next · m)) := by
  intro m
  rw [first.bind_apply]
  dsimp only
  cases answer m with
  | ok a => exact last a m
  | error fault => rfl

theorem Reads.performs {α : Type} {p : Exec α} {answer : Machine → Except Fault α}
    {k : α → Exec Unit} {plan : α → Machine → Except Fault Effect} (first : Reads p answer)
    (last : ∀ a, Performs (k a) (plan a)) :
    Performs (p >>= k) (fun m => answer m >>= (plan · m)) := by
  intro m
  rw [first.bind_apply]
  dsimp only
  cases answer m with
  | ok a => exact last a m
  | error fault => rfl

theorem reads_resolve (o : Operand) : Reads (resolve o) (·.resolve o) := fun _ => rfl

theorem reads_loadByte (address : Nat) : Reads (loadByte address) (·.memory.readByte address) :=
  fun _ => rfl

theorem reads_resolveByte (pc : Nat) (o : Operand) :
    Reads (resolveByte pc o) (·.resolveByte pc o) := by
  refine (reads_resolve o).bind fun v m => ?_
  unfold Value.expectByte
  cases v.byte? <;> rfl

theorem reads_requireWidth (pc : Nat) (v : Value) (width : Option Width) :
    Reads (requireWidth pc v width) (fun _ => v.expectWidth pc width) := by
  intro m
  cases width with
  | none => rfl
  | some w =>
    simp only [requireWidth, Value.expectWidth]
    split <;> rfl

theorem performs_throw (fault : Fault) : Performs (throw fault) (fun _ => .error fault) :=
  fun _ => rfl

theorem performs_pure : Performs (pure ()) (fun _ => .ok .nothing) := fun _ => rfl

theorem performs_jump (target : UInt8) : Performs (jump target) (fun _ => .ok (.jump target)) :=
  fun _ => rfl

theorem performs_store (address : UInt8) (v : Value) :
    Performs (store address.toNat v) (fun _ => .ok (.store address v)) := by
  intro m
  show _ = Effect.attempt _ m
  unfold store Effect.attempt Effect.obstacle?
  by_cases holds : m.memory.Holds address.toNat v.width
  · simp only [holds, if_true]
    rfl
  · simp only [holds, if_false]

theorem performs_push (v : Value) : Performs (push v) (fun _ => .ok (.push v)) := by
  intro m
  show _ = Effect.attempt _ m
  unfold push Effect.attempt Effect.obstacle? Stack.push
  by_cases full : Stack.capacity < m.stack.size + v.width.bytes
  · simp only [full, if_true]
  · simp only [full, if_false]
    rfl

theorem performs_pop : Performs pop (fun _ => .ok .pop) := by
  intro m
  show _ = Effect.attempt _ m
  unfold pop Effect.attempt Effect.obstacle? Stack.pop Stack.size
  by_cases empty : m.stack.bytes.size = 0
  · have none : m.stack.bytes.back? = none := by simpa using empty
    simp only [empty, none, if_true]
  · have some : m.stack.bytes.back? ≠ none := by simpa using empty
    obtain ⟨b, found⟩ := Option.ne_none_iff_exists'.mp some
    simp only [empty, found, if_false]
    rfl

end Exec

open Exec in
/-- Executing an instruction is attempting its effect. -/
theorem performs_execute (i : Instruction) (pc : Nat) : Performs (execute i pc) (i.effect pc) := by
  unfold execute Instruction.effect
  generalize i.opcode.action = action
  generalize i.operands = operands
  split
  · exact (reads_resolveByte _ _).performs fun _ => (reads_resolve _).performs fun _ =>
      (reads_requireWidth _ _ _).performs fun _ => performs_store _ _
  · exact (reads_resolve _).performs fun _ => performs_push _
  · exact performs_pop
  · exact (reads_resolveByte _ _).performs fun _ => performs_jump _
  · refine (reads_resolveByte _ _).performs fun _ => (reads_resolve _).performs fun _ =>
      (reads_loadByte _).performs fun _ => ?_
    cases Arithmetic.apply? _ _ _ with
    | some result => exact performs_store _ _
    | none => exact performs_throw _
  · exact (reads_resolve _).performs fun _ => (reads_resolve _).performs fun _ => performs_push _
  · refine (reads_resolve _).performs fun _ => (reads_resolve _).performs fun _ =>
      (reads_resolveByte _ _).performs fun _ => ?_
    split
    · exact performs_jump _
    · exact performs_pure
  · intro m
    split
    case h_8 => exact performs_throw _ m
    -- the instruction has no other shape, or the first `split` had found it
    all_goals
      exfalso
      solve_by_elim

theorem execute_of_refusal {i : Instruction} {pc : Nat} {m : Machine} {fault : Fault}
    (refused : i.effect pc m = .error fault) : execute i pc m = .error fault m := by
  rw [performs_execute i pc m, refused]
  rfl

theorem execute_of_effect {i : Instruction} {pc : Nat} {m : Machine} {e : Effect}
    (planned : i.effect pc m = .ok e) : execute i pc m = e.attempt m := by
  rw [performs_execute i pc m, planned]
  rfl

namespace Effect

theorem attempt_eq_ok_iff {e : Effect} {m n : Machine} :
    e.attempt m = .ok () n ↔ e.obstacle? m = none ∧ n = e.on m := by
  unfold attempt
  cases e.obstacle? m <;> simp [eq_comm]

theorem attempt_eq_error_iff {e : Effect} {m n : Machine} {fault : Fault} :
    e.attempt m = .error fault n ↔ e.obstacle? m = some fault ∧ n = m := by
  unfold attempt
  cases e.obstacle? m <;> simp [eq_comm]

/-- What can stand in the way of an effect: the end of memory, and a full or an empty stack. -/
theorem obstacle?_eq_some {e : Effect} {m : Machine} {fault : Fault}
    (hindered : e.obstacle? m = some fault) :
    (∃ address v, e = .store address v ∧ ¬ m.memory.Holds address.toNat v.width ∧
      fault = .outOfBounds address.toNat v.width) ∨
    (∃ v, e = .push v ∧ Stack.capacity < m.stack.size + v.width.bytes ∧
      fault = .stackOverflow Stack.capacity) ∨
    (e = .pop ∧ m.stack.size = 0 ∧ fault = .stackUnderflow) := by
  cases e with
  | nothing | jump => cases hindered
  | store address v =>
    simp only [obstacle?, Option.ite_none_left_eq_some, Option.some.injEq] at hindered
    exact .inl ⟨address, v, rfl, hindered.1, hindered.2.symm⟩
  | push v =>
    simp only [obstacle?, Option.ite_none_right_eq_some, Option.some.injEq] at hindered
    exact .inr (.inl ⟨v, rfl, hindered.1, hindered.2.symm⟩)
  | pop =>
    simp only [obstacle?, Option.ite_none_right_eq_some, Option.some.injEq] at hindered
    exact .inr (.inr ⟨rfl, hindered.1, hindered.2.symm⟩)

end Effect

theorem execute_eq_ok_iff {i : Instruction} {pc : Nat} {m n : Machine} :
    execute i pc m = .ok () n ↔
      ∃ e, i.effect pc m = .ok e ∧ e.obstacle? m = none ∧ n = e.on m := by
  cases planned : i.effect pc m with
  | error fault => simp [execute_of_refusal planned]
  | ok e => simp [execute_of_effect planned, Effect.attempt_eq_ok_iff]

/-- A failing instruction leaves the machine as it was, whether its operands or its effect fail. -/
theorem execute_eq_error_iff {i : Instruction} {pc : Nat} {m n : Machine} {fault : Fault} :
    execute i pc m = .error fault n ↔
      (i.effect pc m = .error fault ∨ ∃ e, i.effect pc m = .ok e ∧ e.obstacle? m = some fault) ∧
        n = m := by
  cases planned : i.effect pc m with
  | error fault' => simp [execute_of_refusal planned, eq_comm]
  | ok e => simp [execute_of_effect planned, Effect.attempt_eq_error_iff]

/-- What a computation may throw, and what it may give. -/
structure Exec.Meets {α : Type} (thrown : Fault → Prop) (given : α → Prop) (x : Except Fault α) :
    Prop where
  error : ∀ fault, x = .error fault → thrown fault
  ok : ∀ a, x = .ok a → given a

namespace Exec

variable {α β : Type} {thrown : Fault → Prop} {given : α → Prop} {result : β → Prop}

theorem meets_ok {a : α} (fine : given a) : Meets thrown given (.ok a) :=
  ⟨fun _ same => (by cases same), fun _ same => (by cases same; exact fine)⟩

theorem meets_error {fault : Fault} (blame : thrown fault) :
    Meets thrown given (.error fault) :=
  ⟨fun _ same => (by cases same; exact blame), fun _ same => (by cases same)⟩

/-- What is given is at least the result. -/
theorem Meets.known {x : Except Fault α} (meets : Meets thrown given x) :
    Meets thrown (x = .ok ·) x :=
  ⟨meets.error, fun _ same => same⟩

theorem Meets.bind {x : Except Fault α} {k : α → Except Fault β} (first : Meets thrown given x)
    (last : ∀ a, given a → Meets thrown result (k a)) : Meets thrown result (x >>= k) := by
  cases x with
  | error fault => exact meets_error (first.error fault rfl)
  | ok a => exact last a (first.ok a rfl)

end Exec

/-- A fault that names no other instruction than the one at `pc`, and calls no two equal widths a
mismatch. -/
def Fault.ArisesAt (pc : Nat) : Fault → Prop
  | operandTypeMismatch expected found place => expected ≠ found ∧ place = pc
  | invalidOpcode _ place | divisionByZero place | truncatedInstruction place
  | malformedInstruction place => place = pc
  | outOfBounds .. | stackOverflow _ | stackUnderflow => True

/-- The effects that an action can have. -/
inductive Action.Allows : Action → Effect → Prop
  | move (width : Option Width) (address : UInt8) (v : Value) :
    Allows (.move width) (.store address v)
  | combine (operation : Arithmetic) (address : UInt8) (v : Value) :
    Allows (.combine operation) (.store address v)
  | push (v : Value) : Allows .push (.push v)
  | compare (relation : Comparison) (v : Value) : Allows (.compare relation) (.push v)
  | pop : Allows .pop .pop
  | jump (target : UInt8) : Allows .jump (.jump target)
  | taken (relation : Comparison) (target : UInt8) : Allows (.branch relation) (.jump target)
  | untaken (relation : Comparison) : Allows (.branch relation) .nothing

namespace Exec

theorem meets_read (m : Memory) (pc address : Nat) (w : Width) :
    Meets (Fault.ArisesAt pc) (fun _ => True) (m.read address w) := by
  unfold Memory.read
  split
  · exact meets_ok trivial
  · exact meets_error trivial

theorem meets_resolve (m : Machine) (pc : Nat) (o : Operand) :
    Meets (Fault.ArisesAt pc) (fun _ => True) (m.resolve o) := by
  cases o with
  | literal b => exact meets_ok trivial
  | top => exact meets_ok trivial
  | reference address => exact meets_read _ _ _ _
  | shortReference address => exact meets_read _ _ _ _
  | immediate value => exact meets_ok trivial

theorem meets_readByte (m : Memory) (pc address : Nat) :
    Meets (Fault.ArisesAt pc) (fun _ => True) (m.readByte address) := by
  unfold Memory.readByte
  split
  · exact meets_ok trivial
  · exact meets_error trivial

section Mismatch

variable {thrown : Fault → Prop} {pc : Nat} (mismatch : ∀ expected found : Width,
  expected ≠ found → thrown (.operandTypeMismatch expected found pc))

include mismatch

theorem meets_expectByte (v : Value) : Meets thrown (fun _ => True) (v.expectByte pc) := by
  unfold Value.expectByte
  split
  · exact meets_ok trivial
  · rename_i wide
    apply meets_error
    apply mismatch
    exact (Value.byte?_eq_none_iff.mp wide).symm

theorem meets_expectWidth (v : Value) (width : Option Width) :
    Meets thrown (fun _ => True) (v.expectWidth pc width) := by
  cases width with
  | none => exact meets_ok trivial
  | some w =>
    simp only [Value.expectWidth]
    split
    · exact meets_ok trivial
    · rename_i other
      apply meets_error
      apply mismatch
      exact fun same => other same.symm

theorem meets_resolveByte {m : Machine} {o : Operand}
    (resolves : Meets thrown (fun _ => True) (m.resolve o)) :
    Meets thrown (fun _ => True) (m.resolveByte pc o) :=
  resolves.bind fun v _ => meets_expectByte mismatch v

end Mismatch

end Exec

/-- Only a division of bytes has no result, and only by a value whose low byte is zero. -/
theorem Arithmetic.apply?_ofByte_eq_none_iff {operation : Arithmetic} {left : UInt8} {v : Value} :
    operation.apply? (.ofByte left) v = none ↔
      operation = .div ∧ v.bytes.getLast? = some 0 := by
  unfold Arithmetic.apply?
  cases operation with
  | add | sub | mul => simp
  | div =>
    have low : (v.resize .byte).bytes = [v.toNat.toUInt8] := rfl
    rw [v.getLast?_bytes]
    simp [Value.div?, Value.ofByte, low, eq_comm]

theorem Opcode.action_eq_div_iff {op : Opcode} : op.action = .combine .div ↔ op = .div := by
  cases op <;> decide

theorem Opcode.action_eq_push_iff {op : Opcode} : op.action = .push ↔ op = .push := by
  cases op <;> decide

theorem Opcode.action_eq_pop_iff {op : Opcode} : op.action = .pop ↔ op = .pop := by
  cases op <;> decide

theorem Opcode.action_eq_jump_iff {op : Opcode} : op.action = .jump ↔ op = .jmp := by
  cases op <;> decide

/-- The instruction divides by a value whose low byte is zero. -/
def Instruction.DividesByZero (i : Instruction) (m : Machine) : Prop :=
  i.opcode = .div ∧ ∃ destination source v, i.operands = [destination, source] ∧
    m.resolve source = .ok v ∧ v.bytes.getLast? = some 0

open Exec in
/-- All that an instruction can be refused for: an operand that cannot be resolved, a value of
another width than the one asked for, a byte to combine that cannot be loaded, a division by zero,
and a wrong number of operands. -/
theorem meets_effect_of {thrown : Fault → Prop} {i : Instruction} {pc : Nat} {m : Machine}
    (resolves : ∀ o ∈ i.operands, Meets thrown (fun _ => True) (m.resolve o))
    (mismatch : ∀ expected found : Width, expected ≠ found →
      thrown (.operandTypeMismatch expected found pc))
    (loads : ∀ address : UInt8, Meets thrown (fun _ => True) (m.memory.readByte address.toNat))
    (division : i.DividesByZero m → thrown (.divisionByZero pc))
    (malformed : ¬ i.HasValidArity → thrown (.malformedInstruction pc)) :
    Meets thrown i.opcode.action.Allows (i.effect pc m) := by
  unfold Instruction.HasValidArity Opcode.arity at malformed
  unfold Instruction.DividesByZero at division
  rw [← Opcode.action_eq_div_iff] at division
  unfold Instruction.effect
  generalize i.opcode.action = action at malformed division ⊢
  generalize i.operands = operands at resolves malformed division ⊢
  split
  · exact (meets_resolveByte mismatch (resolves _ (by simp))).bind fun _ _ =>
      (resolves _ (by simp)).bind fun _ _ => (meets_expectWidth mismatch _ _).bind fun _ _ =>
        meets_ok (.move _ _ _)
  · rename_i operation destination source
    refine (meets_resolveByte mismatch (resolves _ (by simp))).bind fun _ _ =>
      (resolves source (by simp)).known.bind fun v resolved => (loads _).bind fun _ _ => ?_
    split
    · exact meets_ok (.combine _ _ _)
    · rename_i undefined
      obtain ⟨rfl, zero⟩ := Arithmetic.apply?_ofByte_eq_none_iff.mp undefined
      exact meets_error (division ⟨rfl, destination, source, v, rfl, resolved, zero⟩)
  · exact (resolves _ (by simp)).bind fun _ _ => meets_ok (.push _)
  · exact (resolves _ (by simp)).bind fun _ _ => (resolves _ (by simp)).bind fun _ _ =>
      meets_ok (.compare _ _)
  · exact meets_ok .pop
  · exact (meets_resolveByte mismatch (resolves _ (by simp))).bind fun _ _ => meets_ok (.jump _)
  · refine (resolves _ (by simp)).bind fun _ _ => (resolves _ (by simp)).bind fun _ _ =>
      (meets_resolveByte mismatch (resolves _ (by simp))).bind fun _ _ => meets_ok ?_
    split
    · exact .taken _ _
    · exact .untaken _
  · apply meets_error
    apply malformed
    -- as many operands as the action takes would have matched one of the shapes above
    cases action <;> simp_all [Action.arity, List.length_eq_two, List.length_eq_three,
      List.length_eq_one_iff]

open Exec in
theorem meets_effect (i : Instruction) (pc : Nat) (m : Machine) :
    Meets (Fault.ArisesAt pc) i.opcode.action.Allows (i.effect pc m) :=
  meets_effect_of (fun _ _ => meets_resolve m pc _) (fun _ _ unequal => ⟨unequal, rfl⟩)
    (fun _ => meets_readByte m.memory pc _) (fun _ => rfl) fun _ => rfl

/-- Faults while an instruction is executed are about this instruction. -/
theorem arisesAt_of_execute {i : Instruction} {pc : Nat} {m n : Machine} {fault : Fault}
    (failed : execute i pc m = .error fault n) : fault.ArisesAt pc := by
  obtain ⟨refused | ⟨e, _, hindered⟩, _⟩ := execute_eq_error_iff.mp failed
  · exact (meets_effect i pc m).error fault refused
  · rcases Effect.obstacle?_eq_some hindered with
      ⟨_, _, _, _, rfl⟩ | ⟨_, _, _, rfl⟩ | ⟨_, _, rfl⟩ <;> trivial

theorem Machine.resolve_congr {m n : Machine} (stack : m.stack = n.stack)
    (memory : m.memory = n.memory) (o : Operand) : m.resolve o = n.resolve o := by
  cases o <;> simp only [resolve, stack, memory]

/-- An instruction sees the stack and the memory, and nothing else of the machine. -/
theorem Instruction.effect_congr {m n : Machine} (stack : m.stack = n.stack)
    (memory : m.memory = n.memory) (i : Instruction) (pc : Nat) :
    i.effect pc m = i.effect pc n := by
  simp only [effect, Machine.resolveByte, Machine.resolve_congr stack memory, memory]

end OctetMachine
