import Mathlib
import OctetMachine.Proofs.Assembly.Sequence
import OctetMachine.Proofs.Listing.Reassembly

/-! Canonical instructions: those that their own text is read back as. No text whatever is read as any
other instruction, since numbers that collide with a tag, sources of moves and references in their
short form are rewritten or refused on the way. -/
namespace OctetMachine

/-- Whether an operand at index `k` of an opcode stands there in the form that reading text gives. -/
def Operand.Canonical (op : Opcode) (k : Nat) : Operand → Prop
  | literal b =>
    if k = 0 then b ∉ [0xB0, 0xC0]
    else op.isMove = false ∧ b ∉ [0xB0, 0xC0, 0xD0, 0xD1, 0xD2, 0xD3]
  | top => ¬ (k = 0 ∧ (op.isMove = true ∨ op.isArithmetic = true))
  | reference address => address.width = .byte
  | shortReference _ => False
  | immediate v =>
    1 ≤ k ∧ v.toNat ≤ 2147483647 ∧ (op.moveWidth? = none ∨ op.moveWidth? = some v.width)

instance (op : Opcode) (k : Nat) (o : Operand) : Decidable (o.Canonical op k) := by
  cases o <;> dsimp only [Operand.Canonical] <;> infer_instance

/-- Every operand is there, and in canonical form. -/
structure Instruction.Canonical (i : Instruction) : Prop where
  arity : i.HasValidArity
  operands : ∀ (k : Nat) (o : Operand), i.operands[k]? = some o → o.Canonical i.opcode k

theorem Instruction.canonical_iff_zipIdx {i : Instruction} :
    i.Canonical ↔ i.HasValidArity ∧ ∀ p ∈ i.operands.zipIdx, p.1.Canonical i.opcode p.2 := by
  constructor
  · rintro ⟨arity, operands⟩
    refine ⟨arity, fun p member => ?_⟩
    exact operands p.2 p.1 (List.mem_zipIdx_iff_getElem?.mp member)
  · rintro ⟨arity, operands⟩
    refine ⟨arity, fun k o found => ?_⟩
    exact operands (o, k) (List.mem_zipIdx_iff_getElem?.mpr found)

instance (i : Instruction) : Decidable i.Canonical :=
  decidable_of_iff _ Instruction.canonical_iff_zipIdx.symm

theorem Value.exists_ofByte {v : Value} (narrow : v.width = .byte) : ∃ b, v = ofByte b := by
  obtain ⟨w, bytes, size⟩ := v
  cases narrow
  obtain ⟨b, rfl⟩ := List.length_eq_one_iff.mp size
  exact ⟨b, rfl⟩

theorem Tag.shadowsLeading_eq_false_iff {b : UInt8} :
    shadowsLeading b = false ↔ b ∉ [0xB0, 0xC0] := by
  rw [← Bool.not_eq_true, shadowsLeading_iff_toNat]
  simp [← UInt8.toNat_inj]

theorem Tag.shadowsTrailing_eq_false_iff {b : UInt8} :
    shadowsTrailing b = false ↔ b ∉ [0xB0, 0xC0, 0xD0, 0xD1, 0xD2, 0xD3] := by
  rw [← Bool.not_eq_true, shadowsTrailing_iff_toNat]
  simp [← UInt8.toNat_inj]

namespace Operand

variable {op : Opcode} {k : Nat} {o : Operand}

theorem Canonical.expressible (canonical : o.Canonical op k) :
    Expressible op (.ofIndex k) o := by
  cases o with
  | literal b =>
    cases k with
    | zero => exact .leading (Tag.shadowsLeading_eq_false_iff.mpr canonical)
    | succ k => exact .trailing canonical.1 (Tag.shadowsTrailing_eq_false_iff.mpr canonical.2)
  | top =>
    apply Expressible.top
    rwa [Slot.ofIndex_eq_leading_iff, Opcode.writesDestination, Bool.or_eq_true]
  | reference address =>
    obtain ⟨b, rfl⟩ := Value.exists_ofByte canonical
    exact .reference b
  | shortReference address => exact canonical.elim
  | immediate v =>
    obtain ⟨later, _, admitted⟩ := canonical
    rw [Slot.ofIndex_eq_trailing_iff.mpr later]
    apply Expressible.immediate
    intro required found
    rcases admitted with free | same
    · cases free.symm.trans found
    · cases same.symm.trans found
      rfl

theorem Canonical.shown_le (canonical : o.Canonical op k) : o.shown ≤ Lexer.literalLimit := by
  by_contra large
  obtain ⟨v, rfl⟩ := canonical.expressible.exists_immediate (Nat.lt_of_not_le large)
  exact large canonical.2.1

theorem Expressible.canonical (expressible : Expressible op (.ofIndex k) o)
    (small : o.shown ≤ Lexer.literalLimit) : o.Canonical op k := by
  generalize place : Slot.ofIndex k = slot at expressible
  cases expressible with
  | leading plain =>
    rw [Canonical, if_pos (Slot.ofIndex_eq_leading_iff.mp place)]
    exact Tag.shadowsLeading_eq_false_iff.mp plain
  | trailing other plain =>
    have later := Slot.ofIndex_eq_trailing_iff.mp place
    rw [Canonical, if_neg (Nat.ne_of_gt later)]
    exact ⟨other, Tag.shadowsTrailing_eq_false_iff.mp plain⟩
  | top readable =>
    rwa [← place, Slot.ofIndex_eq_leading_iff, Opcode.writesDestination,
      Bool.or_eq_true] at readable
  | reference address => exact rfl
  | immediate admitted =>
    refine ⟨Slot.ofIndex_eq_trailing_iff.mp place, small, ?_⟩
    cases width : op.moveWidth? with
    | none => exact .inl rfl
    | some required => exact .inr (congrArg some (admitted required width))

end Operand

namespace Instruction

variable {i : Instruction}

/-- Canonical instructions are those that tokens can express with numbers that text can. -/
theorem canonical_iff :
    i.Canonical ↔ i.Expressible ∧ ∀ o ∈ i.operands, o.shown ≤ Lexer.literalLimit := by
  unfold Expressible
  rw [forall₂_slots_iff]
  constructor
  · rintro ⟨arity, operands⟩
    refine ⟨⟨arity, fun k o found => (operands k o found).expressible⟩, fun o member => ?_⟩
    obtain ⟨k, found⟩ := List.mem_iff_getElem?.mp member
    exact (operands k o found).shown_le
  · rintro ⟨⟨arity, operands⟩, small⟩
    refine ⟨arity, fun k o found => ?_⟩
    exact (operands k o found).canonical (small o (List.mem_of_getElem? found))

theorem canonical_of_ofSource {source : String} (parsed : ofSource source = .ok i) :
    i.Canonical := by
  obtain ⟨s, position, read, sequence⟩ := exists_sequence parsed
  generalize whole : s.tokens = tokens at sequence
  cases sequence with
  | @cons _ _ taken rest first _ =>
    have spelled := first.written.spelled
    have expressible := expressible_of_spelled spelled
    refine canonical_iff.mpr ⟨expressible, fun o member => ?_⟩
    by_contra large
    obtain ⟨v, rfl⟩ := expressible.exists_immediate member (Nat.lt_of_not_le large)
    -- The immediate is no larger than the literal that it was spelled with.
    obtain ⟨l, found, bound⟩ := toNat_le_of_spelled spelled member
    obtain ⟨t, inside, literal⟩ := List.mem_map.mp found
    have listed : t ∈ s.tokens := by
      rw [whole]
      exact List.mem_append_left rest inside
    have small := TokenStream.value_le_of_ofSource read listed literal
    apply large
    apply Int.ofNat_le.mp
    exact bound.trans small

theorem Canonical.ofSource_text (canonical : i.Canonical) : ofSource i.text = .ok i := by
  obtain ⟨expressible, small⟩ := canonical_iff.mp canonical
  have ended : Lexer.Stops Lexer.isWordRest [] := by
    intro c first
    cases first
  have reads := reads_text small ended
  obtain ⟨s, read, tokens⟩ := TokenStream.ofSource_of_reads reads
  have start : s.tokens = s.ahead :=
    congrArg TokenStream.ahead (TokenStream.reset_of_ofSource read)
  rw [start] at tokens
  have unlabelled : .mark .colon ∉ s.ahead.map (·.token) := by
    rw [tokens]
    exact i.colon_not_mem_tokens
  obtain ⟨position, parsed⟩ := Parser.statement_of_tokens expressible small
    (List.append_nil s.ahead).symm tokens unlabelled
  simp only [ofSource, read, parsed]
  rfl

/-- An instruction is read back from its text exactly when it is canonical. The canonical
instructions are also all that can be read from any text. -/
theorem reads_back_iff_canonical (i : Instruction) :
    (ofSource i.text = .ok i ↔ i.Canonical) ∧
      ((∃ source, ofSource source = .ok i) ↔ i.Canonical) := by
  refine ⟨⟨canonical_of_ofSource, Canonical.ofSource_text⟩, ?_, ?_⟩
  · rintro ⟨source, parsed⟩
    exact canonical_of_ofSource parsed
  · intro canonical
    exact ⟨i.text, canonical.ofSource_text⟩

-- The short form of a reference is read as the long one.
example :
    let i : Instruction := ⟨.push, [.shortReference 3]⟩
    ¬ i.Canonical ∧ ofSource i.text = .ok ⟨.push, [.reference (.ofByte 3)]⟩ := by
  decide +kernel

end Instruction
end OctetMachine
