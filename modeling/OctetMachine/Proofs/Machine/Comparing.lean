import Mathlib
import OctetMachine.Proofs.Machine.Codeless
import OctetMachine.Proofs.Machine.Footprint
import OctetMachine.Proofs.Value.ByteSum

/-! Comparing and branching. Both test the order of byte sums, which is a total preorder on values of
all widths; so a branch and its opposite part ways in every machine, and comparing two values pushes
what branching on them would do. -/
namespace OctetMachine

namespace Instruction

/-- Wherever the instruction pointer stands, the instruction sends it to one place, and does nothing
else. -/
def Taken (i : Instruction) (pc : Nat) (m : Machine) : Prop :=
  ∃ target, ∀ c, execute i pc (m.withCursor c) = .ok () (m.withCursor (c.moveTo target))

/-- Wherever the instruction pointer stands, the instruction leaves it there, and does nothing at
all. -/
def Skipped (i : Instruction) (pc : Nat) (m : Machine) : Prop :=
  ∀ c, execute i pc (m.withCursor c) = .ok () (m.withCursor c)

/-- The instruction pushes one byte, and does nothing else. -/
def PushesByte (i : Instruction) (pc : Nat) (m : Machine) (b : UInt8) : Prop :=
  execute i pc m = .ok () { m with stack := ⟨m.stack.bytes.push b⟩ }

theorem Taken.not_skipped {i : Instruction} {pc : Nat} {m : Machine} (taken : i.Taken pc m) :
    ¬ i.Skipped pc m := by
  obtain ⟨target, jumps⟩ := taken
  intro stays
  have both := (jumps ⟨[], target + 1⟩).symm.trans (stays ⟨[], target + 1⟩)
  injection both with _ same
  exact Nat.succ_ne_self target (congrArg (·.cursor.position) same).symm

end Instruction

section Branching

variable {op : Opcode} {relation : Comparison} {left right target : Operand} {pc : Nat}
  {m : Machine}

theorem effect_compare_eq_ok_iff (action : op.action = .compare relation) {e : Effect} :
    Instruction.effect ⟨op, [left, right]⟩ pc m = .ok e ↔
      ∃ a b, m.resolve left = .ok a ∧ m.resolve right = .ok b ∧
        .push (.ofByte (if relation.holds a b then 1 else 0)) = e := by
  simp only [Instruction.effect, action, ok_bind_iff, exists_and_left, pure, Except.pure, Except.ok.injEq]

theorem effect_branch_eq_ok_iff (action : op.action = .branch relation) {e : Effect} :
    Instruction.effect ⟨op, [left, right, target]⟩ pc m = .ok e ↔
      ∃ a b t, m.resolve left = .ok a ∧ m.resolve right = .ok b ∧
        m.resolve target = .ok (.ofByte t) ∧
          (if relation.holds a b then Effect.jump t else .nothing) = e := by
  simp only [Instruction.effect, action, ok_bind_iff, Machine.resolveByte_eq_ok_iff,
    exists_and_left, pure, Except.pure, Except.ok.injEq]

/-- A branch resolves all its operands, and moves the instruction pointer if the relation holds. -/
theorem execute_branch_eq_ok_iff (action : op.action = .branch relation) {c d : Cursor} :
    execute ⟨op, [left, right, target]⟩ pc (m.withCursor c) = .ok () (m.withCursor d) ↔
      ∃ a b t, m.resolve left = .ok a ∧ m.resolve right = .ok b ∧
        m.resolve target = .ok (.ofByte t) ∧
          d = if relation.holds a b then c.moveTo t.toNat else c := by
  have same : ∀ o, (m.withCursor c).resolve o = m.resolve o := Machine.resolve_congr rfl rfl
  simp only [execute_eq_ok_iff, effect_branch_eq_ok_iff action, same]
  constructor
  · rintro ⟨e, ⟨a, b, t, first, second, place, rfl⟩, -, moved⟩
    refine ⟨a, b, t, first, second, place, ?_⟩
    replace moved := congrArg (·.cursor) moved
    split at moved
    · rename_i holds
      rw [if_pos holds]
      exact moved
    · rename_i fails
      rw [if_neg fails]
      exact moved
  · rintro ⟨a, b, t, first, second, place, rfl⟩
    refine ⟨_, ⟨a, b, t, first, second, place, rfl⟩, ?_⟩
    split
    · exact ⟨rfl, rfl⟩
    · exact ⟨rfl, rfl⟩

theorem taken_iff (action : op.action = .branch relation) :
    Instruction.Taken ⟨op, [left, right, target]⟩ pc m ↔ ∃ a b t, m.resolve left = .ok a ∧
      m.resolve right = .ok b ∧ m.resolve target = .ok (.ofByte t) ∧ relation.holds a b = true := by
  unfold Instruction.Taken
  simp only [execute_branch_eq_ok_iff action]
  constructor
  · rintro ⟨goal, jumps⟩
    -- only from another place than the target can one see that the pointer moves
    obtain ⟨a, b, t, first, second, place, moved⟩ := jumps ⟨[], goal + 1⟩
    refine ⟨a, b, t, first, second, place, ?_⟩
    by_contra fails
    rw [if_neg fails] at moved
    have position := congrArg Cursor.position moved
    exact absurd position.symm (Nat.succ_ne_self goal)
  · rintro ⟨a, b, t, first, second, place, holds⟩
    exact ⟨t.toNat, fun c => ⟨a, b, t, first, second, place, (if_pos holds).symm⟩⟩

theorem skipped_iff (action : op.action = .branch relation) :
    Instruction.Skipped ⟨op, [left, right, target]⟩ pc m ↔ ∃ a b t, m.resolve left = .ok a ∧
      m.resolve right = .ok b ∧ m.resolve target = .ok (.ofByte t) ∧
        relation.holds a b = false := by
  unfold Instruction.Skipped
  simp only [execute_branch_eq_ok_iff action]
  constructor
  · intro stays
    -- a target is one byte, so the pointer is sent elsewhere from beyond them
    obtain ⟨a, b, t, first, second, place, moved⟩ := stays ⟨[], 256⟩
    refine ⟨a, b, t, first, second, place, ?_⟩
    by_contra holds
    rw [if_pos (by simpa using holds)] at moved
    have position : 256 = t.toNat := congrArg Cursor.position moved
    exact absurd t.toNat_lt (by omega)
  · rintro ⟨a, b, t, first, second, place, fails⟩ c
    exact ⟨a, b, t, first, second, place, by simp [fails]⟩

theorem pushesByte_iff (action : op.action = .compare relation) (room : m.stack.size < 1024)
    {byte : UInt8} :
    Instruction.PushesByte ⟨op, [left, right]⟩ pc m byte ↔ ∃ a b, m.resolve left = .ok a ∧
      m.resolve right = .ok b ∧ byte = if relation.holds a b then 1 else 0 := by
  unfold Instruction.PushesByte
  simp only [execute_eq_ok_iff, effect_compare_eq_ok_iff action]
  constructor
  · rintro ⟨e, ⟨a, b, first, second, rfl⟩, -, pushed⟩
    refine ⟨a, b, first, second, ?_⟩
    have pushed : m.stack.bytes.push byte =
        m.stack.bytes.push (if relation.holds a b then 1 else 0) :=
      congrArg (·.stack.bytes) pushed
    exact (Array.push_eq_push.mp pushed).1
  · rintro ⟨a, b, first, second, rfl⟩
    have fits : ¬ Stack.capacity < m.stack.size + 1 := Nat.not_lt.mpr room
    exact ⟨_, ⟨a, b, first, second, rfl⟩, if_neg fits, rfl⟩

/-- On a full stack there is no comparing, whatever the relation. -/
theorem execute_compare_of_full (action : op.action = .compare relation)
    (full : Stack.capacity ≤ m.stack.size) {a b : Value} (first : m.resolve left = .ok a)
    (second : m.resolve right = .ok b) :
    execute ⟨op, [left, right]⟩ pc m = .error (.stackOverflow Stack.capacity) m := by
  have effect : Instruction.effect ⟨op, [left, right]⟩ pc m = .ok _ :=
    (effect_compare_eq_ok_iff action).mpr ⟨a, b, first, second, rfl⟩
  have crowded : Stack.capacity < m.stack.size + 1 := Nat.lt_succ_of_le full
  exact execute_eq_error_iff.mpr ⟨.inr ⟨_, effect, if_pos crowded⟩, rfl⟩

/-- Two branches on opposite relations are never both taken and never both skipped; and one is taken
and the other skipped exactly where their operands resolve, the target to a byte. -/
theorem branches_part {op' : Opcode} {relation' : Comparison} (action : op.action = .branch relation)
    (action' : op'.action = .branch relation')
    (opposite : ∀ a b, relation'.holds a b = !relation.holds a b) :
    let i : Instruction := ⟨op, [left, right, target]⟩
    let j : Instruction := ⟨op', [left, right, target]⟩
    ¬ (i.Taken pc m ∧ j.Taken pc m) ∧ ¬ (i.Skipped pc m ∧ j.Skipped pc m) ∧
      ((∃ a b t, m.resolve left = .ok a ∧ m.resolve right = .ok b ∧
        m.resolve target = .ok (.ofByte t)) ↔
          i.Taken pc m ∧ j.Skipped pc m ∨ i.Skipped pc m ∧ j.Taken pc m) := by
  intro i j
  have skipped : i.Skipped pc m ↔ j.Taken pc m := by
    simp [i, j, skipped_iff action, taken_iff action', opposite]
  have taken : i.Taken pc m ↔ j.Skipped pc m := by
    simp [i, j, taken_iff action, skipped_iff action', opposite]
  refine ⟨fun both => ?_, fun both => ?_, ?_⟩
  · exact both.1.not_skipped (skipped.mpr both.2)
  · exact (taken.mpr both.2).not_skipped both.1
  · rw [← taken, ← skipped, and_self, and_self, taken_iff action, skipped_iff action]
    constructor
    · rintro ⟨a, b, t, first, second, place⟩
      cases test : relation.holds a b with
      | true => exact .inl ⟨a, b, t, first, second, place, test⟩
      | false => exact .inr ⟨a, b, t, first, second, place, test⟩
    · rintro (⟨a, b, t, first, second, place, -⟩ | ⟨a, b, t, first, second, place, -⟩)
      · exact ⟨a, b, t, first, second, place⟩
      · exact ⟨a, b, t, first, second, place⟩

end Branching

theorem pushesByte_iff_branches {op op' : Opcode} {relation : Comparison}
    {left right target : Operand} {pc : Nat} {m : Machine} (action : op.action = .compare relation)
    (action' : op'.action = .branch relation) (room : m.stack.size < 1024)
    (place : ∃ t, m.resolve target = .ok (.ofByte t)) :
    (Instruction.PushesByte ⟨op, [left, right]⟩ pc m 1 ↔
      Instruction.Taken ⟨op', [left, right, target]⟩ pc m) ∧
    (Instruction.PushesByte ⟨op, [left, right]⟩ pc m 0 ↔
      Instruction.Skipped ⟨op', [left, right, target]⟩ pc m) := by
  obtain ⟨t, place⟩ := place
  have one : ∀ a b, (1 : UInt8) = (if relation.holds a b then 1 else 0) ↔
      relation.holds a b = true := by
    intro a b
    cases relation.holds a b <;> decide
  have zero : ∀ a b, (0 : UInt8) = (if relation.holds a b then 1 else 0) ↔
      relation.holds a b = false := by
    intro a b
    cases relation.holds a b <;> decide
  simp only [pushesByte_iff action room, taken_iff action', skipped_iff action', one, zero]
  constructor
  · constructor
    · rintro ⟨a, b, first, second, holds⟩
      exact ⟨a, b, t, first, second, place, holds⟩
    · rintro ⟨a, b, _, first, second, _, holds⟩
      exact ⟨a, b, first, second, holds⟩
  · constructor
    · rintro ⟨a, b, first, second, fails⟩
      exact ⟨a, b, t, first, second, place, fails⟩
    · rintro ⟨a, b, _, first, second, _, fails⟩
      exact ⟨a, b, first, second, fails⟩

open Comparison in
/-- Comparison is a total preorder by the sum of bytes, on values of all widths, and the relations
fit together as those of numbers do. So of two branches on opposite relations, in one machine and
with the same operands, never both are taken and never both skipped, and one is taken and the other
skipped exactly where the operands resolve, the target to a byte. Where the target does and the stack
has room, comparing pushes 1 exactly when the branch on the same relation would be taken. -/
theorem comparison_is_total_preorder :
    (∀ a b : Value, a.byteDifference b = (a.byteSum : Int) - b.byteSum ∧
      -2040 ≤ a.byteDifference b ∧ a.byteDifference b ≤ 2040 ∧
      b.byteDifference a = -a.byteDifference b) ∧
    ((∀ a, lessOrEqual.holds a a = true) ∧
      (∀ a b c, lessOrEqual.holds a b = true → lessOrEqual.holds b c = true →
        lessOrEqual.holds a c = true) ∧
      ∀ a b, lessOrEqual.holds a b = true ∨ lessOrEqual.holds b a = true) ∧
    Equivalence (fun a b : Value => equal.holds a b = true) ∧
    (∀ a b, greater.holds a b = !lessOrEqual.holds a b ∧
      greaterOrEqual.holds a b = !less.holds a b ∧
      equal.holds a b = (lessOrEqual.holds a b && greaterOrEqual.holds a b)) ∧
    (∀ (m : Machine) (pc : Nat) (left right target : Operand) (op op' : Opcode),
      (op, op') ∈ [(.jle, .jgt), (.jlt, .jge)] →
        let i : Instruction := ⟨op, [left, right, target]⟩
        let j : Instruction := ⟨op', [left, right, target]⟩
        ¬ (i.Taken pc m ∧ j.Taken pc m) ∧ ¬ (i.Skipped pc m ∧ j.Skipped pc m) ∧
          ((∃ a b t, m.resolve left = .ok a ∧ m.resolve right = .ok b ∧
            m.resolve target = .ok (.ofByte t)) ↔
              i.Taken pc m ∧ j.Skipped pc m ∨ i.Skipped pc m ∧ j.Taken pc m)) ∧
    (∀ (m : Machine) (pc : Nat) (left right target : Operand) (op op' : Opcode),
      (op, op') ∈ [(.le, .jle), (.lt, .jlt), (.ge, .jge), (.gt, .jgt)] → m.stack.size < 1024 →
        (∃ t, m.resolve target = .ok (.ofByte t)) →
          let i : Instruction := ⟨op, [left, right]⟩
          let j : Instruction := ⟨op', [left, right, target]⟩
          (i.PushesByte pc m 1 ↔ j.Taken pc m) ∧ (i.PushesByte pc m 0 ↔ j.Skipped pc m)) := by
  refine ⟨fun a b => ?_, ⟨fun a => ?_, fun a b c => ?_, fun a b => ?_⟩, equal_equivalence,
    fun a b => ⟨greater_eq_not a b, greaterOrEqual_eq_not a b, equal_eq_and a b⟩,
    fun m pc left right target op op' pair => ?_, fun m pc left right target op op' pair => ?_⟩
  · have left := a.byteSum_le
    have right := b.byteSum_le
    rw [Value.byteDifference_eq, Value.byteDifference_eq]
    omega
  · exact holds_iff.mpr (Nat.le_refl _)
  · simp only [holds_iff]
    exact Nat.le_trans
  · simp only [holds_iff]
    exact Nat.le_total _ _
  · obtain ⟨relation, relation', action, action', opposite⟩ : ∃ relation relation',
        op.action = .branch relation ∧ op'.action = .branch relation' ∧
          ∀ a b, relation'.holds a b = !relation.holds a b := by
      simp only [List.mem_cons, Prod.mk.injEq, List.not_mem_nil, or_false] at pair
      rcases pair with ⟨rfl, rfl⟩ | ⟨rfl, rfl⟩
      · exact ⟨_, _, rfl, rfl, greater_eq_not⟩
      · exact ⟨_, _, rfl, rfl, greaterOrEqual_eq_not⟩
    exact branches_part action action' opposite
  · intro room place
    obtain ⟨relation, action, action'⟩ : ∃ relation,
        op.action = .compare relation ∧ op'.action = .branch relation := by
      simp only [List.mem_cons, Prod.mk.injEq, List.not_mem_nil, or_false] at pair
      rcases pair with ⟨rfl, rfl⟩ | ⟨rfl, rfl⟩ | ⟨rfl, rfl⟩ | ⟨rfl, rfl⟩ <;> exact ⟨_, rfl, rfl⟩
    exact pushesByte_iff_branches action action' room place

/-- By bytes, the word 256 comes before the byte 2. -/
theorem comparison_is_total_preorder_mixed :
    let m := Machine.boot []
    let word : Operand := .immediate (.ofNat .word 256)
    m.stack.size < 1024 ∧ m.resolve (.literal 9) = .ok (.ofByte 9) ∧
      Instruction.PushesByte ⟨.le, [word, .literal 2]⟩ 0 m 1 ∧
      Instruction.Taken ⟨.jle, [word, .literal 2, .literal 9]⟩ 0 m ∧
      ¬ Instruction.Taken ⟨.jgt, [word, .literal 2, .literal 9]⟩ 0 m := by
  intro m word
  have room : m.stack.size < 1024 := by decide
  have place : m.resolve (.literal 9) = .ok (.ofByte 9) := rfl
  have pushed : Instruction.PushesByte ⟨.le, [word, .literal 2]⟩ 0 m 1 := rfl
  have order := comparison_is_total_preorder
  obtain ⟨-, -, -, -, branches, comparing⟩ := order
  have taken := (comparing m 0 word (.literal 2) (.literal 9) .le .jle (by simp) room
    ⟨9, place⟩).1.mp pushed
  have part := branches m 0 word (.literal 2) (.literal 9) .jle .jgt (by simp)
  exact ⟨room, place, pushed, taken, fun other => part.1 ⟨taken, other⟩⟩

/-- A comparison needs room where a branch needs none, and a branch needs a target where a comparison
needs none. On a full stack 1 ≤ 1 is branched on and cannot be pushed; with a word for its target it
is pushed and cannot be branched on, nor can its opposite. -/
theorem comparing_without_branching :
    let one : Operand := .literal 1
    let wide : Operand := .immediate (.ofNat .word 9)
    let m := Machine.boot []
    let full : Machine := { m with stack := ⟨Array.replicate 1024 0⟩ }
    (Instruction.Taken ⟨.jle, [one, one, .literal 9]⟩ 0 full ∧
      execute ⟨.le, [one, one]⟩ 0 full = .error (.stackOverflow 1024) full ∧
      ¬ Instruction.PushesByte ⟨.le, [one, one]⟩ 0 full 1) ∧
    (Instruction.PushesByte ⟨.le, [one, one]⟩ 0 m 1 ∧
      ∀ op ∈ [Opcode.jle, .jgt],
        execute ⟨op, [one, one, wide]⟩ 0 m = .error (.operandTypeMismatch .byte .word 0) m ∧
          ¬ Instruction.Taken ⟨op, [one, one, wide]⟩ 0 m) := by
  intro one wide m full
  have overflows : execute ⟨.le, [one, one]⟩ 0 full = .error (.stackOverflow 1024) full := by
    have size : full.stack.size = 1024 := Array.size_replicate
    exact execute_compare_of_full rfl size.ge rfl rfl
  have mismatches : ∀ op ∈ [Opcode.jle, .jgt],
      execute ⟨op, [one, one, wide]⟩ 0 m = .error (.operandTypeMismatch .byte .word 0) m := by
    simp only [List.forall_mem_cons, List.not_mem_nil, false_implies, implies_true, and_true]
    exact ⟨rfl, rfl⟩
  refine ⟨⟨?_, overflows, fun pushed => ?_⟩, rfl, fun op mem => ⟨mismatches op mem, ?_⟩⟩
  · exact (taken_iff rfl).mpr ⟨_, _, 9, rfl, rfl, rfl, rfl⟩
  · cases overflows.symm.trans pushed
  · rintro ⟨target, jumps⟩
    cases (mismatches op mem).symm.trans (jumps m.cursor)

end OctetMachine
