import OctetMachine.Proofs.Instruction.Tokens
import OctetMachine.Proofs.Statement.Expressible

/-! What an instruction's text is read as spells that very instruction, as long as tokens can
express it and its numbers are not too large for source text. -/
namespace OctetMachine

open Lexer

theorem Width.ofKeyword?_keyword (w : Width) : ofKeyword? w.keyword = some w := by
  cases w <;> decide

theorem Opcode.ofMnemonic?_mnemonic (op : Opcode) : ofMnemonic? op.mnemonic = some op := by
  cases op <;> decide

/-- The first operand leads and all others trail. -/
theorem Opcode.slots_eq (op : Opcode) :
    op.slots = [] ∨ ∃ count, op.slots = .leading :: List.replicate count .trailing := by
  cases arity : op.arity with
  | zero => exact .inl (by simp [slots, arity])
  | succ count =>
    refine .inr ⟨count, ?_⟩
    simp only [slots, arity, List.range_succ_eq_map, List.map_cons, List.map_map]
    refine congrArg (Slot.leading :: ·) (List.eq_replicate_iff.mpr ⟨by simp, ?_⟩)
    intro slot member
    obtain ⟨k, _, rfl⟩ := List.mem_map.mp member
    rfl

namespace Operand

theorem spelled_tokens {op : Opcode} {slot : Slot} {o : Operand}
    (expressible : Expressible op slot o) (bound : o.shown ≤ literalLimit) :
    Spelled op slot o.tokens o := by
  cases expressible with
  | @leading b plain =>
    have same : b.toNat.toUInt8 = b := by simp
    have spelled : Spelled op .leading [.ofNat b.toNat] (.literal b.toNat.toUInt8) :=
      .leading b.toNat (Literal.value_integer bound) (by rwa [same])
    rwa [same] at spelled
  | @trailing b other plain =>
    have same : b.toNat.toUInt8 = b := by simp
    have spelled : Spelled op .trailing [.ofNat b.toNat] (.literal b.toNat.toUInt8) :=
      .raw b.toNat other (Literal.value_integer bound) (by rwa [same])
    rwa [same] at spelled
  | top readable => exact .top (by decide) readable
  | reference address =>
    refine .reference address ?_
    rw [← Value.toNat_ofByte address]
    exact Literal.value_integer bound
  | @immediate v admitted =>
    have spelled := Spelled.sized v.toNat v.width.ofKeyword?_keyword admitted
      (Literal.value_integer bound) v.fits_toNat
    rwa [Value.ofNat_toNat] at spelled

theorem allSpelled_trailing {op : Opcode} {count : Nat} {os : List Operand}
    (expressible : List.Forall₂ (Expressible op) (List.replicate count .trailing) os)
    (bound : ∀ o ∈ os, o.shown ≤ literalLimit) :
    AllSpelled op (List.replicate count .trailing) (trailingTokens os) os := by
  induction count generalizing os with
  | zero =>
    cases expressible
    exact .nil
  | succ count ih =>
    rw [List.replicate_succ] at expressible ⊢
    cases expressible with
    | @cons _ o _ os first others =>
      have head := spelled_tokens first (bound o (by simp))
      have tail := ih others fun o' member => bound o' (by simp [member])
      exact .cons head tail

end Operand

namespace Instruction

theorem spelled_tokens {i : Instruction} (expressible : i.Expressible)
    (bound : ∀ o ∈ i.operands, o.shown ≤ literalLimit) :
    StatementKind.Spelled i.tokens (.instruction i) := by
  obtain ⟨op, os⟩ := i
  have mnemonic := op.ofMnemonic?_mnemonic
  unfold Expressible at expressible
  rcases op.slots_eq with none | ⟨count, some⟩
  · dsimp only at expressible bound
    rw [none] at expressible
    cases expressible
    refine .instruction mnemonic ?_
    rw [none]
    exact .nil
  · dsimp only at expressible bound
    rw [some] at expressible
    cases expressible with
    | @cons _ o _ os first others =>
      have head := Operand.spelled_tokens first (bound o (by simp))
      have tail := Operand.allSpelled_trailing others fun o' member => bound o' (by simp [member])
      refine .instruction mnemonic ?_
      rw [some]
      exact .cons head tail

/-- No text of an instruction could be taken for a label. -/
theorem colon_not_mem_tokens (i : Instruction) : Token.mark .colon ∉ i.tokens := by
  have operand : ∀ o : Operand, Token.mark .colon ∉ o.tokens := by
    intro o
    cases o with
    | reference address =>
      simp only [Operand.tokens]
      split <;> simp [Token.ofNat]
    | _ => simp [Operand.tokens, Token.ofNat]
  unfold tokens
  split
  · simp
  · simp [Operand.trailingTokens, operand]

end Instruction
end OctetMachine
