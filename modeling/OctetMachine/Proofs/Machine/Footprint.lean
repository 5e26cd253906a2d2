import Mathlib
import OctetMachine.Parts
import OctetMachine.Proofs.Machine.Cells
import OctetMachine.Proofs.Machine.Effect
import OctetMachine.Proofs.Value.ByteSum

/-! The footprint of an instruction. All its operands are resolved against the machine as it was, so
it does not matter that what it reads and what it writes may overlap; then one effect takes place,
and what the effect does not name stays as it was. -/
namespace OctetMachine

/-- The result of an operation on two bytes, taken as numbers. -/
def Arithmetic.Gives (operation : Arithmetic) (x y result : Nat) : Prop :=
  match operation with
  | add => result = (x + y) % 256
  | sub => result = (x + (256 - y)) % 256
  | mul => result = x * y % 256
  | div => y ≠ 0 ∧ result = x / y

namespace Opcode

/-- The moving opcodes; all but one insist on a width. -/
def Moves : Opcode → Width → Prop
  | mov, _ => True
  | movb, w => w = .byte
  | movw, w => w = .word
  | movd, w => w = .doubleWord
  | movq, w => w = .quadWord
  | _, _ => False

/-- The arithmetic opcodes, each with its own operation. -/
def Combines : Opcode → Nat → Nat → Nat → Prop
  | add => Arithmetic.add.Gives
  | sub => Arithmetic.sub.Gives
  | mul => Arithmetic.mul.Gives
  | div => Arithmetic.div.Gives
  | _ => fun _ _ _ => False

/-- The comparing opcodes, with their answer on two byte sums. -/
def Compares : Opcode → Nat → Nat → Bool → Prop
  | le, x, y, answer => answer = decide (x ≤ y)
  | lt, x, y, answer => answer = decide (x < y)
  | ge, x, y, answer => answer = decide (x ≥ y)
  | gt, x, y, answer => answer = decide (x > y)
  | _, _, _, _ => False

/-- The branching opcodes, and whether the branch is taken on two byte sums. -/
def Branches : Opcode → Nat → Nat → Bool → Prop
  | jeq, x, y, taken => taken = decide (x = y)
  | jle, x, y, taken => taken = decide (x ≤ y)
  | jlt, x, y, taken => taken = decide (x < y)
  | jgt, x, y, taken => taken = decide (x > y)
  | jge, x, y, taken => taken = decide (x ≥ y)
  | _, _, _, _ => False

end Opcode

/-- The effect that an instruction asks for, by its opcode and by what its operands stand for. -/
inductive Instruction.Asks (m : Machine) : Instruction → Effect → Prop where
  | move {op : Opcode} {destination source : Operand} {a : UInt8} {v : Value}
      (moves : op.Moves v.width) (address : m.resolve destination = .ok (.ofByte a))
      (value : m.resolve source = .ok v) : Asks m ⟨op, [destination, source]⟩ (.store a v)
  | combine {op : Opcode} {destination source : Operand} {a old new : UInt8} {v : Value}
      (address : m.resolve destination = .ok (.ofByte a)) (value : m.resolve source = .ok v)
      (cell : m.memory.cells[a.toNat]? = some old)
      -- of a wide value, only the low byte counts
      (combines : op.Combines old.toNat (v.toNat % 256) new.toNat) :
      Asks m ⟨op, [destination, source]⟩ (.store a (.ofByte new))
  | push {operand : Operand} {v : Value} (value : m.resolve operand = .ok v) :
      Asks m ⟨.push, [operand]⟩ (.push v)
  | pop : Asks m ⟨.pop, []⟩ .pop
  | compare {op : Opcode} {left right : Operand} {a b : Value} {answer : Bool}
      (first : m.resolve left = .ok a) (second : m.resolve right = .ok b)
      (compares : op.Compares a.byteSum b.byteSum answer) :
      Asks m ⟨op, [left, right]⟩ (.push (.ofByte (if answer then 1 else 0)))
  | jump {target : Operand} {t : UInt8} (place : m.resolve target = .ok (.ofByte t)) :
      Asks m ⟨.jmp, [target]⟩ (.jump t)
  | branch {op : Opcode} {left right target : Operand} {a b : Value} {t : UInt8} {taken : Bool}
      (first : m.resolve left = .ok a) (second : m.resolve right = .ok b)
      (place : m.resolve target = .ok (.ofByte t))
      (branches : op.Branches a.byteSum b.byteSum taken) :
      Asks m ⟨op, [left, right, target]⟩ (if taken then .jump t else .nothing)

/-- An effect takes place: what it names changes, and nothing else does. -/
inductive Effect.Happens (m : Machine) : Effect → Machine → Prop where
  | nothing : Happens m .nothing m
  | store {a : UInt8} {v : Value} {memory : Memory}
      (rewritten : m.memory.Rewritten a.toNat v.bytes memory) :
      Happens m (.store a v) { m with memory }
  | push {v : Value} (room : m.stack.size + v.bytes.length ≤ 1024) :
      Happens m (.push v) { m with stack := ⟨m.stack.bytes ++ v.bytes⟩ }
  | pop {b : UInt8} {rest : Array UInt8} (top : m.stack.bytes = rest.push b) :
      Happens m .pop { m with stack := ⟨rest⟩ }
  | jump (target : UInt8) :
      Happens m (.jump target) { m with cursor := ⟨m.cursor.code, target.toNat⟩ }

section Resolution

theorem Value.byte?_eq_some_iff {v : Value} {b : UInt8} : v.byte? = some b ↔ v = .ofByte b := by
  constructor
  · intro found
    obtain ⟨w, bytes, size⟩ := v
    cases w with
    | byte =>
      obtain ⟨c, rfl⟩ := List.length_eq_one_iff.mp size
      cases found
      rfl
    | _ => cases found
  · rintro rfl
    rfl

theorem Value.expectByte_eq_ok_iff {pc : Nat} {v : Value} {b : UInt8} :
    v.expectByte pc = .ok b ↔ v = .ofByte b := by
  rw [← byte?_eq_some_iff]
  unfold expectByte
  cases v.byte? <;> simp

theorem Value.expectWidth_eq_ok_iff {pc : Nat} {v : Value} {width : Option Width} :
    v.expectWidth pc width = .ok () ↔ width = none ∨ width = some v.width := by
  cases width with
  | none => simp [expectWidth]
  | some w => simp [expectWidth, eq_comm]

theorem Machine.resolveByte_eq_ok_iff {m : Machine} {pc : Nat} {o : Operand} {b : UInt8} :
    m.resolveByte pc o = .ok b ↔ m.resolve o = .ok (.ofByte b) := by
  simp only [resolveByte, ok_bind_iff, Value.expectByte_eq_ok_iff, exists_eq_right]

theorem Value.ofByte_eq_iff {b : UInt8} {v : Value} {n : Nat} (number : b.toNat = n) :
    ofByte b = v ↔ ∃ c : UInt8, v = ofByte c ∧ c.toNat = n := by
  constructor
  · rintro rfl
    exact ⟨b, rfl, number⟩
  · rintro ⟨c, rfl, same⟩
    rw [UInt8.toNat_inj.mp (number.trans same.symm)]

theorem Arithmetic.apply?_eq_some_iff {operation : Arithmetic} {old : UInt8} {v result : Value} :
    operation.apply? (.ofByte old) v = some result ↔
      ∃ new : UInt8, result = .ofByte new ∧ operation.Gives old.toNat (v.toNat % 256) new.toNat := by
  have low : v.toNat.toUInt8.toNat = v.toNat % 256 := rfl
  have combined : ∀ f, Value.zipBytes f (.ofByte old) v = .ofByte (f old v.toNat.toUInt8) :=
    fun _ => rfl
  unfold Arithmetic.apply?
  cases operation with
  | add =>
    simp only [Value.add, combined, Option.some.injEq]
    exact Value.ofByte_eq_iff (by rw [UInt8.toNat_add, low])
  | sub =>
    simp only [Value.sub, combined, Option.some.injEq]
    exact Value.ofByte_eq_iff (by rw [UInt8.toNat_sub, low, Nat.add_comm])
  | mul =>
    simp only [Value.mul, combined, Option.some.injEq]
    exact Value.ofByte_eq_iff (by rw [UInt8.toNat_mul, low])
  | div =>
    have divisor : (v.resize (Value.ofByte old).width).bytes = [v.toNat.toUInt8] := rfl
    have zero : v.toNat.toUInt8 = 0 ↔ v.toNat % 256 = 0 := by
      rw [← UInt8.toNat_inj, low]
      rfl
    simp only [Value.div?, divisor, combined, List.mem_singleton, eq_comm (a := (0 : UInt8)), Gives]
    split
    · rename_i none
      simp [zero.mp none]
    · rename_i some
      have positive : v.toNat % 256 ≠ 0 := fun none => some (zero.mpr none)
      simp only [Option.some.injEq, positive, ne_eq, not_false_eq_true, true_and]
      exact Value.ofByte_eq_iff (by rw [UInt8.toNat_div, low])

/-- What is said of a named opcode is what its action does; so for the other kinds below. -/
theorem Opcode.moves_iff {op : Opcode} {w : Width} :
    op.Moves w ↔ ∃ width, op.action = .move width ∧ (width = none ∨ width = some w) := by
  cases op <;> simp [Moves, action, eq_comm]

theorem Opcode.combines_iff {op : Opcode} {x y result : Nat} :
    op.Combines x y result ↔
      ∃ operation, op.action = .combine operation ∧ operation.Gives x y result := by
  cases op <;> simp [Combines, action]

theorem Opcode.compares_iff {op : Opcode} {a b : Value} {answer : Bool} :
    op.Compares a.byteSum b.byteSum answer ↔
      ∃ relation, op.action = .compare relation ∧ answer = relation.holds a b := by
  cases op with
  | le | lt | ge | gt =>
    simp only [Compares, action, Action.compare.injEq, exists_eq_left', Comparison.holds_eq_decide]
    exact Iff.rfl
  | _ => simp [Compares, action]

theorem Opcode.branches_iff {op : Opcode} {a b : Value} {taken : Bool} :
    op.Branches a.byteSum b.byteSum taken ↔
      ∃ relation, op.action = .branch relation ∧ taken = relation.holds a b := by
  cases op with
  | jeq | jle | jlt | jgt | jge =>
    simp only [Branches, action, Action.branch.injEq, exists_eq_left', Comparison.holds_eq_decide]
    exact Iff.rfl
  | _ => simp [Branches, action]

end Resolution

namespace Instruction

variable {i : Instruction} {pc : Nat} {m : Machine} {e : Effect}

theorem asks_of_effect (planned : i.effect pc m = .ok e) : i.Asks m e := by
  obtain ⟨op, operands⟩ := i
  simp only [effect] at planned
  split at planned
  case h_1 width destination source action =>
    simp only [ok_bind_iff, Machine.resolveByte_eq_ok_iff] at planned
    obtain ⟨a, address, v, value, _, fits, done⟩ := planned
    cases done
    have moves : op.Moves v.width :=
      Opcode.moves_iff.mpr ⟨width, action, Value.expectWidth_eq_ok_iff.mp fits⟩
    exact .move moves address value
  case h_2 operation destination source action =>
    simp only [ok_bind_iff, Machine.resolveByte_eq_ok_iff, Memory.readByte_eq_ok_iff] at planned
    obtain ⟨a, address, v, value, old, cell, done⟩ := planned
    split at done
    · rename_i result found
      cases done
      obtain ⟨new, rfl, gives⟩ := Arithmetic.apply?_eq_some_iff.mp found
      exact .combine address value cell (Opcode.combines_iff.mpr ⟨operation, action, gives⟩)
    · cases done
  case h_3 operand action =>
    simp only [ok_bind_iff] at planned
    obtain ⟨v, value, done⟩ := planned
    cases done
    obtain rfl := Opcode.action_eq_push_iff.mp action
    exact .push value
  case h_4 relation left right action =>
    simp only [ok_bind_iff] at planned
    obtain ⟨a, first, b, second, done⟩ := planned
    cases done
    exact .compare first second (Opcode.compares_iff.mpr ⟨relation, action, rfl⟩)
  case h_5 action =>
    cases planned
    obtain rfl := Opcode.action_eq_pop_iff.mp action
    exact .pop
  case h_6 target action =>
    simp only [ok_bind_iff, Machine.resolveByte_eq_ok_iff] at planned
    obtain ⟨t, place, done⟩ := planned
    cases done
    obtain rfl := Opcode.action_eq_jump_iff.mp action
    exact .jump place
  case h_7 relation left right target action =>
    simp only [ok_bind_iff, Machine.resolveByte_eq_ok_iff] at planned
    obtain ⟨a, first, b, second, t, place, done⟩ := planned
    cases done
    exact .branch first second place (Opcode.branches_iff.mpr ⟨relation, action, rfl⟩)
  case h_8 => cases planned

theorem effect_of_asks (asks : i.Asks m e) (pc : Nat) : i.effect pc m = .ok e := by
  cases asks with
  | move moves address value =>
    obtain ⟨width, action, fits⟩ := Opcode.moves_iff.mp moves
    simp only [effect, action, ok_bind_iff, Machine.resolveByte_eq_ok_iff]
    exact ⟨_, address, _, value, (), Value.expectWidth_eq_ok_iff.mpr fits, rfl⟩
  | combine address value cell combines =>
    obtain ⟨operation, action, gives⟩ := Opcode.combines_iff.mp combines
    simp only [effect, action, ok_bind_iff, Machine.resolveByte_eq_ok_iff,
      Memory.readByte_eq_ok_iff]
    refine ⟨_, address, _, value, _, cell, ?_⟩
    rw [Arithmetic.apply?_eq_some_iff.mpr ⟨_, rfl, gives⟩]
    rfl
  | push value =>
    simp only [effect, Opcode.action, ok_bind_iff]
    exact ⟨_, value, rfl⟩
  | pop => rfl
  | compare first second compares =>
    obtain ⟨relation, action, rfl⟩ := Opcode.compares_iff.mp compares
    simp only [effect, action, ok_bind_iff]
    exact ⟨_, first, _, second, rfl⟩
  | jump place =>
    simp only [effect, Opcode.action, ok_bind_iff, Machine.resolveByte_eq_ok_iff]
    exact ⟨_, place, rfl⟩
  | branch first second place branches =>
    obtain ⟨relation, action, rfl⟩ := Opcode.branches_iff.mp branches
    simp only [effect, action, ok_bind_iff, Machine.resolveByte_eq_ok_iff]
    exact ⟨_, first, _, second, _, place, rfl⟩

theorem Asks.hasValidArity (asks : i.Asks m e) : i.HasValidArity := by
  unfold HasValidArity Opcode.arity
  cases asks with
  | move moves =>
    obtain ⟨_, action, _⟩ := Opcode.moves_iff.mp moves
    simp [action, Action.arity]
  | combine _ _ _ combines =>
    obtain ⟨_, action, _⟩ := Opcode.combines_iff.mp combines
    simp [action, Action.arity]
  | compare _ _ compares =>
    obtain ⟨_, action, _⟩ := Opcode.compares_iff.mp compares
    simp [action, Action.arity]
  | branch _ _ _ branches =>
    obtain ⟨_, action, _⟩ := Opcode.branches_iff.mp branches
    simp [action, Action.arity]
  | push | pop | jump => rfl

theorem effect_eq_ok_iff : i.effect pc m = .ok e ↔ i.Asks m e :=
  ⟨asks_of_effect, fun asks => effect_of_asks asks pc⟩

theorem Asks.unique {e' : Effect} (asks : i.Asks m e) (asks' : i.Asks m e') : e = e' :=
  Except.ok.inj ((effect_of_asks asks 0).symm.trans (effect_of_asks asks' 0))

end Instruction

namespace Effect

variable {e : Effect} {m n : Machine}

theorem happens_iff : e.Happens m n ↔ e.obstacle? m = none ∧ n = e.on m := by
  constructor
  · intro happens
    cases happens with
    | nothing => exact ⟨rfl, rfl⟩
    | store rewritten =>
      obtain ⟨holds, rfl⟩ := Memory.rewritten_iff.mp rewritten
      exact ⟨if_pos holds, rfl⟩
    | @push v room =>
      rw [v.length_bytes] at room
      exact ⟨if_neg (Nat.not_lt.mpr room), rfl⟩
    | pop top =>
      have filled : m.stack.size ≠ 0 := by simp [Stack.size, top]
      refine ⟨if_neg filled, ?_⟩
      rw [on, top, Array.pop_push]
    | jump target => exact ⟨rfl, rfl⟩
  · rintro ⟨clear, rfl⟩
    cases e with
    | nothing => exact .nothing
    | store a v =>
      have holds : m.memory.Holds a.toNat v.width := by
        by_contra outside
        cases clear.symm.trans (if_neg outside)
      exact .store (Memory.rewritten_iff.mpr ⟨holds, rfl⟩)
    | push v =>
      have room : ¬ Stack.capacity < m.stack.size + v.width.bytes := by
        intro full
        cases clear.symm.trans (if_pos full)
      refine .push ?_
      rw [v.length_bytes]
      exact Nat.not_lt.mp room
    | pop =>
      have filled : m.stack.bytes.size ≠ 0 := by
        intro empty
        cases clear.symm.trans (if_pos empty)
      obtain ⟨rest, b, top⟩ := Array.eq_push_of_size_ne_zero filled
      rw [on, top, Array.pop_push]
      exact .pop top
    | jump target => exact .jump target

theorem Happens.sameBooks (happens : e.Happens m n) : m.SameBooks n := by
  cases happens <;> exact ⟨rfl, rfl, rfl, rfl⟩

end Effect

/-- An instruction succeeds by the effect that it asks for, and by nothing else. -/
theorem execute_eq_ok_iff_happens {i : Instruction} {pc : Nat} {m n : Machine} :
    execute i pc m = .ok () n ↔ ∃ e, i.Asks m e ∧ e.Happens m n := by
  simp only [execute_eq_ok_iff, Instruction.effect_eq_ok_iff, Effect.happens_iff]

/-- An instruction that succeeds has had exactly one effect, the one that its operands ask for when
all of them are resolved against the machine as it was; and wherever an instruction asks for an
effect that can take place, it succeeds. The code, the count of cycles, the halt reason and the
recorded faults stay as they were. -/
theorem execute_has_one_effect (i : Instruction) (pc : Nat) (m n : Machine) :
    (execute i pc m = .ok () n ↔ ∃ e, i.Asks m e ∧ e.Happens m n) ∧
    (execute i pc m = .ok () n → (∃! e, i.Asks m e) ∧ i.HasValidArity ∧
      n.cursor.code = m.cursor.code ∧ n.cycles = m.cycles ∧ n.halt? = m.halt? ∧
      n.faults = m.faults) := by
  refine ⟨execute_eq_ok_iff_happens, fun done => ?_⟩
  obtain ⟨e, asks, happens⟩ := execute_eq_ok_iff_happens.mp done
  have books := happens.sameBooks
  exact ⟨⟨e, asks, fun e' asks' => asks'.unique asks⟩, asks.hasValidArity, books.code,
    books.cycles, books.halt, books.faults⟩

/-- A word is moved one cell up: the second cell is read before it is written. -/
theorem execute_has_one_effect_overlap :
    let m : Machine := { Machine.boot [] with memory := ⟨#[10, 20, 30, 40]⟩ }
    let n : Machine := { m with memory := ⟨#[10, 10, 20, 40]⟩ }
    let i : Instruction := ⟨.movw, [.literal 1, .reference (.ofNat .word 0)]⟩
    execute i 0 m = .ok () n ∧ (∃ e, i.Asks m e ∧ e.Happens m n) ∧ ∃! e, i.Asks m e := by
  intro m n i
  have done : execute i 0 m = .ok () n := rfl
  have effect := execute_has_one_effect i 0 m n
  exact ⟨done, effect.1.mp done, (effect.2 done).1⟩

end OctetMachine
