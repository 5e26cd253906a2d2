import Mathlib.Data.List.Forall2
import OctetMachine.Code.Cursor
import OctetMachine.Instruction.Exactness

/-! Instructions whose bytes read back as themselves: as many operands as the opcode takes, each of
which can stand in its slot. No other operand is ever read where it was written, whatever bytes
follow it, and no such instruction's bytes are the beginning of another's. -/
namespace OctetMachine

/-- A relation between slots and operands holds throughout an instruction when no operand is missing
and each is related to the slot of its index. -/
theorem Instruction.forall₂_slots_iff {R : Slot → Operand → Prop} {i : Instruction} :
    List.Forall₂ R i.opcode.slots i.operands ↔ i.HasValidArity ∧
      ∀ (k : Nat) (o : Operand), i.operands[k]? = some o → R (Slot.ofIndex k) o := by
  have size : i.opcode.slots.length = i.opcode.arity := by simp [Opcode.slots]
  have slot : ∀ (k : Nat) (inside : k < i.opcode.slots.length),
      i.opcode.slots.get ⟨k, inside⟩ = Slot.ofIndex k := by
    intro k inside
    simp [Opcode.slots]
  simp only [List.forall₂_iff_get, slot]
  constructor
  · rintro ⟨count, each⟩
    refine ⟨count.symm.trans size, fun k o found => ?_⟩
    obtain ⟨inside, rfl⟩ := List.getElem?_eq_some_iff.mp found
    exact each k (by omega) inside
  · rintro ⟨arity, each⟩
    refine ⟨size.trans arity.symm, fun k _ inside => ?_⟩
    exact each k _ (List.getElem?_eq_getElem inside)

theorem Operand.areEncodableIn_iff {slots : List Slot} {os : List Operand} :
    areEncodableIn slots os = true ↔
      List.Forall₂ (fun slot o => o.isEncodableIn slot = true) slots os := by
  induction slots generalizing os with
  | nil => cases os <;> simp [areEncodableIn]
  | cons slot slots ih => cases os <;> simp [areEncodableIn, ih]

/-- Every operand is there, and can stand at its index. -/
structure Instruction.Encodable (i : Instruction) : Prop where
  arity : i.HasValidArity
  operands : ∀ (k : Nat) (o : Operand), i.operands[k]? = some o →
    o.isEncodableIn (Slot.ofIndex k) = true

namespace Instruction

theorem isEncodable_iff {i : Instruction} : i.isEncodable = true ↔ i.Encodable := by
  rw [isEncodable, Operand.areEncodableIn_iff, forall₂_slots_iff]
  exact ⟨fun ⟨arity, operands⟩ => ⟨arity, operands⟩, fun ⟨arity, operands⟩ => ⟨arity, operands⟩⟩

instance (i : Instruction) : Decidable i.Encodable := decidable_of_iff _ isEncodable_iff

/-- Reading the longer of two codes gives the shorter one's instruction, so they are the same. -/
theorem eq_of_encode_prefix {i j : Instruction} (first : i.Encodable) (second : j.Encodable)
    (begins : i.encode <+: j.encode) : i = j := by
  obtain ⟨rest, same⟩ := begins
  have shorter := decode_encode (isEncodable_iff.mpr first) 0 rest
  have longer := decode_encode (isEncodable_iff.mpr second) 0 []
  rw [List.append_nil, ← same, shorter] at longer
  exact congrArg Prod.fst (Except.ok.inj longer)

end Instruction

/-- Reading an operand where it was written gives it back exactly when it can stand in the slot. -/
theorem Cursor.readOperand_encode_iff (before rest : List UInt8) (slot : Slot) (o : Operand) :
    readOperand ⟨before ++ o.encode ++ rest, before.length⟩ slot =
        (.ok o, ⟨before ++ o.encode ++ rest, before.length + o.encodedLength⟩) ↔
      o.isEncodableIn slot = true := by
  have ahead : input ⟨before ++ o.encode ++ rest, before.length⟩ =
      ⟨before.length, o.encode ++ rest⟩ := by
    simp [input]
  constructor
  · intro readBack
    simp only [readOperand, read, ahead] at readBack
    split at readBack
    · rename_i decoded
      cases Except.ok.inj (congrArg Prod.fst readBack)
      exact (Operand.spans_of_decode decoded).2
    · cases congrArg Prod.fst readBack
  · intro encodable
    simp only [readOperand, read, ahead, Operand.decode_encode encodable, moveTo]

end OctetMachine
