import Mathlib
import OctetMachine.Proofs.Instruction.Canonical

/-! What an instruction's text is read as, when it can be read at all. Most operands come back as they
were. A short reference comes back in its long form, a byte that would be taken for a tag as an
immediate, and a bare byte that a move stores as an immediate of the move's width. -/
namespace OctetMachine

open Lexer

/-- What the text of an operand in a slot of an opcode may be read as. -/
inductive Operand.Rereads (op : Opcode) : Slot → Operand → Operand → Prop where
  | same {slot : Slot} {o : Operand}
      (plain : slot = .trailing → op.isMove = true → ∀ b, o ≠ .literal b) : Rereads op slot o o
  | short {slot : Slot} (address : UInt8) :
      Rereads op slot (.shortReference address) (.reference (.ofByte address))
  | escaped (b : UInt8) (other : op.isMove = false) :
      Rereads op .trailing (.literal b) (.immediate (.ofByte b))
  | source (b : UInt8) (move : op.isMove = true) :
      Rereads op .trailing (.literal b) (.immediate (.ofNat (op.moveWidth?.getD .byte) b.toNat))

/-- Operands of some slots, and what their texts may be read as. -/
inductive Operand.AllReread (op : Opcode) : List Slot → List Operand → List Operand → Prop where
  | nil : AllReread op [] [] []
  | cons {slot : Slot} {slots : List Slot} {o o' : Operand} {os os' : List Operand}
      (first : Rereads op slot o o') (others : AllReread op slots os os') :
      AllReread op (slot :: slots) (o :: os) (o' :: os')

theorem Width.narrowest_byte (b : UInt8) : narrowest b.toNat = .byte := by
  have fits : Width.byte.Fits b.toNat := b.toNat_lt
  simp [narrowest, all, fits]

theorem Value.ofNat_byte (b : UInt8) : ofNat .byte b.toNat = ofByte b := by
  rw [← toNat_ofByte]
  exact ofNat_toNat (ofByte b)

/-- Lists that are cut in front of their first comma are cut at one place. -/
theorem Token.eq_of_append_comma {a b c d : List Token} (left : .mark .comma ∉ a)
    (right : .mark .comma ∉ c) (first : ∀ t, b.head? = some t → t = .mark .comma)
    (second : ∀ t, d.head? = some t → t = .mark .comma) (same : a ++ b = c ++ d) :
    a = c ∧ b = d := by
  rcases List.append_eq_append_iff.mp same with ⟨e, rfl, rfl⟩ | ⟨e, rfl, rfl⟩
  · cases e with
    | nil => simp
    | cons t e =>
      obtain rfl := first t rfl
      simp at right
  · cases e with
    | nil => simp
    | cons t e =>
      obtain rfl := second t rfl
      simp at left

namespace Operand

variable {op : Opcode} {slot : Slot} {count : Nat} {ts : List Token} {o o' : Operand}
  {os os' : List Operand}

theorem Spelled.comma_not_mem (spelled : Spelled op slot ts o) : Token.mark .comma ∉ ts := by
  cases spelled <;> simp

theorem Spelled.ne_nil (spelled : Spelled op slot ts o) : ts ≠ [] := by
  cases spelled <;> simp

theorem tokens_ne_nil (o : Operand) : o.tokens ≠ [] := by
  cases o with
  | reference address =>
    simp only [tokens]
    split <;> simp
  | _ => simp [tokens]

theorem comma_not_mem_tokens (o : Operand) : Token.mark .comma ∉ o.tokens := by
  cases o with
  | reference address =>
    simp only [tokens]
    split <;> simp [Token.ofNat]
  | _ => simp [tokens, Token.ofNat]

theorem head?_trailingTokens {t : Token} (head : (trailingTokens os).head? = some t) :
    t = .mark .comma := by
  cases os with
  | nil => cases head
  | cons o os =>
    cases head
    rfl

theorem AllSpelled.head?_eq {t : Token}
    (spelled : AllSpelled op (List.replicate count .trailing) ts os) (head : ts.head? = some t) :
    t = .mark .comma := by
  cases count with
  | zero =>
    cases spelled
    cases head
  | succ count =>
    rw [List.replicate_succ] at spelled
    cases spelled
    cases head
    rfl

/-- A number that was shown is read as itself. -/
theorem eq_shown {n m : Nat} (small : n ≤ literalLimit)
    (value : (Literal.integer (Int32.ofNat n)).value = (m : Int)) : m = n := by
  rw [Literal.value_integer small] at value
  exact (Int.ofNat.inj value).symm

theorem rereads_of_number {b : UInt8} (spelled : Spelled op slot [.ofNat b.toNat] o') :
    Rereads op slot (.literal b) o' := by
  have small := toNat_le_literalLimit b
  have byte : b.toNat.toUInt8 = b := by simp
  unfold Token.ofNat at spelled
  cases spelled with
  | leading n value plain =>
    rw [eq_shown small value, byte]
    exact .same fun trailing => by cases trailing
  | moved n move value fits =>
    rw [eq_shown small value]
    have rereads := Rereads.source b (Opcode.isMove_of_moveWidth? move)
    rwa [move] at rereads
  | inferred n move free value =>
    rw [eq_shown small value, Width.narrowest_byte]
    have rereads := Rereads.source b move
    rwa [free] at rereads
  | escaped n other value shadowed =>
    rw [eq_shown small value, byte]
    exact .escaped b other
  | raw n other value plain =>
    rw [eq_shown small value, byte]
    exact .same fun _ move => by simp [other] at move

theorem eq_of_bracketed {b : UInt8}
    (spelled : Spelled op slot [.mark .openBracket, .ofNat b.toNat, .mark .closeBracket] o') :
    o' = .reference (.ofByte b) := by
  obtain ⟨l, address, same, value, rfl⟩ := spelled_bracket_iff.mp spelled
  cases same
  rw [UInt8.toNat_inj.mp (eq_shown (toNat_le_literalLimit b) value)]

theorem rereads_of_spelled (spelled : Spelled op slot o.tokens o') (small : o.shown ≤ literalLimit) :
    Rereads op slot o o' := by
  cases o with
  | literal b => exact rereads_of_number spelled
  | top =>
    unfold tokens at spelled
    cases spelled
    exact .same fun _ _ _ other => by cases other
  | shortReference address =>
    rw [eq_of_bracketed spelled]
    exact .short address
  | immediate v =>
    unfold tokens Token.ofNat at spelled
    cases spelled with
    | sized n keyword admitted value fits =>
      cases v.width.ofKeyword?_keyword.symm.trans keyword
      have number : n = v.toNat := eq_shown small value
      rw [number, Value.ofNat_toNat]
      exact .same fun _ _ _ other => by cases other
  | reference v =>
    simp only [tokens] at spelled
    split at spelled
    · rename_i narrow
      obtain ⟨b, rfl⟩ := Value.exists_ofByte narrow
      rw [Value.toNat_ofByte] at spelled
      rw [eq_of_bracketed spelled]
      exact .same fun _ _ _ other => by cases other
    · -- No address is read with a width in front of it.
      cases spelled

/-- The tokens of an operand end where the next comma stands, so they spell an operand alone. -/
theorem AllSpelled.cut
    (spelled : AllSpelled op (slot :: List.replicate count .trailing)
      (slot.separator ++ o.tokens ++ trailingTokens os) os') :
    ∃ first others, os' = first :: others ∧ Spelled op slot o.tokens first ∧
      AllSpelled op (List.replicate count .trailing) (trailingTokens os) others := by
  generalize whole : slot.separator ++ o.tokens ++ trailingTokens os = ts at spelled
  cases spelled with
  | @cons _ _ ts us first others head tail =>
    rw [List.append_assoc, List.append_assoc, List.append_cancel_left_eq] at whole
    obtain ⟨rfl, rfl⟩ := Token.eq_of_append_comma o.comma_not_mem_tokens head.comma_not_mem
      (fun _ => head?_trailingTokens) (fun _ => tail.head?_eq) whole
    exact ⟨first, others, rfl, head, tail⟩

/-- No operand is read from no tokens. -/
theorem allReread_nil {slots : List Slot} (spelled : AllSpelled op slots [] os') :
    AllReread op slots [] os' := by
  generalize whole : ([] : List Token) = ts at spelled
  cases spelled with
  | nil => exact .nil
  | cons first others =>
    have none := (List.append_eq_nil_iff.mp (List.append_eq_nil_iff.mp whole.symm).1).2
    exact absurd none first.ne_nil

theorem allReread_trailing
    (spelled : AllSpelled op (List.replicate count .trailing) (trailingTokens os) os')
    (small : ∀ o ∈ os, o.shown ≤ literalLimit) :
    AllReread op (List.replicate count .trailing) os os' := by
  induction os generalizing count os' with
  | nil => exact allReread_nil spelled
  | cons o os ih =>
    obtain ⟨bound, bounds⟩ := List.forall_mem_cons.mp small
    cases count with
    | zero =>
      generalize whole : trailingTokens (o :: os) = ts at spelled
      cases spelled
      cases whole
    | succ count =>
      rw [List.replicate_succ] at spelled ⊢
      obtain ⟨first, others, rfl, head, tail⟩ := spelled.cut
      exact .cons (rereads_of_spelled head bound) (ih tail bounds)

end Operand

/-- What the text of an instruction may be read as. -/
structure Instruction.Rereads (i j : Instruction) : Prop where
  opcode : j.opcode = i.opcode
  operands : Operand.AllReread i.opcode i.opcode.slots i.operands j.operands

namespace Instruction

variable {i j : Instruction}

theorem rereads_of_spelled (spelled : StatementKind.Spelled i.tokens (.instruction j))
    (small : ∀ o ∈ i.operands, o.shown ≤ literalLimit) : i.Rereads j := by
  obtain ⟨op, os⟩ := i
  generalize whole : tokens ⟨op, os⟩ = ts at spelled
  cases spelled with
  | instruction mnemonic operands =>
    cases os with
    | nil =>
      cases whole
      cases op.ofMnemonic?_mnemonic.symm.trans mnemonic
      exact ⟨rfl, Operand.allReread_nil operands⟩
    | cons o os =>
      cases whole
      cases op.ofMnemonic?_mnemonic.symm.trans mnemonic
      refine ⟨rfl, ?_⟩
      dsimp only
      rcases op.slots_eq with none | ⟨count, some⟩
      · rw [none] at operands
        generalize rest : o.tokens ++ Operand.trailingTokens os = ts at operands
        cases operands
        exact absurd (List.append_eq_nil_iff.mp rest).1 o.tokens_ne_nil
      · rw [some] at operands ⊢
        obtain ⟨first, others, rfl, head, tail⟩ := operands.cut
        obtain ⟨bound, bounds⟩ := List.forall_mem_cons.mp small
        exact .cons (Operand.rereads_of_spelled head bound)
          (Operand.allReread_trailing tail bounds)

theorem rereads_of_ofSource (parsed : ofSource i.text = .ok j) : i.Rereads j := by
  have ended : Stops isWordRest [] := by
    intro c first
    cases first
  obtain ⟨s, position, read, sequence⟩ := exists_sequence parsed
  have small : ∀ o ∈ i.operands, o.shown ≤ literalLimit := by
    by_contra large
    push Not at large
    obtain ⟨o, _, _, fails⟩ := fails_text large ended
    rw [List.append_nil] at fails
    obtain ⟨position, failed⟩ := TokenStream.ofSource_of_fails fails
    cases read.symm.trans failed
  obtain ⟨s', read', tokens⟩ := TokenStream.ofSource_of_reads (reads_text small ended)
  cases read.symm.trans read'
  generalize s.tokens = placed at tokens sequence
  cases sequence with
  | cons first rest =>
    cases rest
    rw [List.append_nil] at tokens
    exact rereads_of_spelled (tokens ▸ first.written.spelled) small

end Instruction
end OctetMachine
