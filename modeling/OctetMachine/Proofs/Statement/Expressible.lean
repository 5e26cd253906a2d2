import OctetMachine.Proofs.Instruction.Encodable
import OctetMachine.Proofs.Statement.Grammar
import OctetMachine.Proofs.Value.Codec

/-! The operands and instructions that tokens can express. All of them can be encoded: the grammar
escapes or refuses every number whose byte would be read as a tag. -/
namespace OctetMachine

/-- The operands that some tokens mean in a slot of an opcode. -/
inductive Operand.Expressible (op : Opcode) : Slot → Operand → Prop where
  | leading {b : UInt8} (plain : Tag.shadowsLeading b = false) :
      Expressible op .leading (.literal b)
  | trailing {b : UInt8} (other : op.isMove = false) (plain : Tag.shadowsTrailing b = false) :
      Expressible op .trailing (.literal b)
  | top {slot : Slot} (readable : ¬ (slot = .leading ∧ op.writesDestination = true)) :
      Expressible op slot .top
  | reference {slot : Slot} (address : UInt8) :
      Expressible op slot (.reference (.ofByte address))
  | immediate {v : Value} (admitted : ∀ required, op.moveWidth? = some required → required = v.width) :
      Expressible op .trailing (.immediate v)

/-- Every slot of the opcode holds an operand that tokens can express there. -/
def Instruction.Expressible (i : Instruction) : Prop :=
  List.Forall₂ (Operand.Expressible i.opcode) i.opcode.slots i.operands

namespace Operand

theorem Spelled.expressible {op : Opcode} {slot : Slot} {tokens : List Token} {o : Operand}
    (spelled : Spelled op slot tokens o) : Expressible op slot o := by
  cases spelled with
  | reference address => exact .reference address
  | top _ readable => exact .top readable
  | sized n _ admitted => exact .immediate admitted
  | leading n _ plain => exact .leading plain
  | moved n move =>
    refine .immediate fun required found => ?_
    cases move.symm.trans found
    rfl
  | inferred n _ free =>
    refine .immediate fun required found => ?_
    simp [free] at found
  | escaped n other =>
    refine .immediate fun required found => ?_
    simp [Opcode.isMove_of_moveWidth? found] at other
  | raw n other _ plain => exact .trailing other plain

theorem AllSpelled.expressible {op : Opcode} {slots : List Slot} {tokens : List Token}
    {os : List Operand} (spelled : AllSpelled op slots tokens os) :
    List.Forall₂ (Expressible op) slots os := by
  induction spelled with
  | nil => exact .nil
  | cons first _ ih => exact .cons first.expressible ih

theorem Expressible.isEncodableIn {op : Opcode} {slot : Slot} {o : Operand}
    (expressible : Expressible op slot o) : o.isEncodableIn slot = true := by
  cases expressible with
  | leading plain => simp [Operand.isEncodableIn, plain]
  | trailing _ plain => simp [Operand.isEncodableIn, plain]
  | top => rfl
  | reference => rfl
  | immediate => rfl

/-- An immediate is no larger than the number that it was spelled with. -/
theorem Spelled.toNat_le {op : Opcode} {slot : Slot} {tokens : List Token} {v : Value}
    (spelled : Spelled op slot tokens (.immediate v)) :
    ∃ l : Literal, .literal l ∈ tokens ∧ v.toNat ≤ l.value := by
  have kept : ∀ (w : Width) (n : Nat), (Value.ofNat w n).toNat ≤ n := by
    intro w n
    rw [Value.toNat_ofNat]
    exact Nat.mod_le _ _
  have low : ∀ n : Nat, (Value.ofByte n.toUInt8).toNat ≤ n := by
    intro n
    rw [Value.toNat_ofByte]
    exact Nat.mod_le _ _
  cases spelled with
  | sized n _ _ value => exact ⟨_, by simp, value ▸ Int.ofNat_le.mpr (kept _ n)⟩
  | moved n _ value => exact ⟨_, by simp, value ▸ Int.ofNat_le.mpr (kept _ n)⟩
  | inferred n _ _ value => exact ⟨_, by simp, value ▸ Int.ofNat_le.mpr (kept _ n)⟩
  | escaped n _ value => exact ⟨_, by simp, value ▸ Int.ofNat_le.mpr (low n)⟩

theorem AllSpelled.toNat_le {op : Opcode} {slots : List Slot} {tokens : List Token}
    {os : List Operand} {v : Value} (spelled : AllSpelled op slots tokens os)
    (member : .immediate v ∈ os) : ∃ l : Literal, .literal l ∈ tokens ∧ v.toNat ≤ l.value := by
  induction spelled with
  | nil => cases member
  | cons first _ ih =>
    rcases List.mem_cons.mp member with rfl | member
    · obtain ⟨l, found, bound⟩ := first.toNat_le
      exact ⟨l, by simp [found], bound⟩
    · obtain ⟨l, found, bound⟩ := ih member
      exact ⟨l, by simp [found], bound⟩

end Operand

namespace Instruction

theorem expressible_of_spelled {i : Instruction} {tokens : List Token}
    (spelled : StatementKind.Spelled tokens (.instruction i)) : i.Expressible := by
  cases spelled with
  | instruction _ operands => exact operands.expressible

theorem toNat_le_of_spelled {i : Instruction} {tokens : List Token} {v : Value}
    (spelled : StatementKind.Spelled tokens (.instruction i)) (member : .immediate v ∈ i.operands) :
    ∃ l : Literal, .literal l ∈ tokens ∧ v.toNat ≤ l.value := by
  cases spelled with
  | instruction _ operands =>
    obtain ⟨l, found, bound⟩ := operands.toNat_le member
    exact ⟨l, List.mem_cons_of_mem _ found, bound⟩

theorem Expressible.encodable {i : Instruction} (expressible : i.Expressible) : i.Encodable := by
  obtain ⟨arity, operands⟩ := forall₂_slots_iff.mp expressible
  exact ⟨arity, fun k o found => (operands k o found).isEncodableIn⟩

end Instruction
end OctetMachine
