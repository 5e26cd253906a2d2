import OctetMachine.Statement.Parser

/-! The grammar of statements, over tokens without their places. What an operand's tokens mean depends
on the opcode and on the slot; the first of them tells its kind. -/
namespace OctetMachine

/-- The tokens of an operand in a slot of an opcode, and the operand that they mean. -/
inductive Operand.Spelled (op : Opcode) : Slot → List Token → Operand → Prop where
  | reference {slot : Slot} {l : Literal} (address : UInt8) (value : l.value = address.toNat) :
      Spelled op slot [.mark .openBracket, .literal l, .mark .closeBracket]
        (.reference (.ofByte address))
  | top {slot : Slot} {name : String} (keyword : Text.sameSpelling "TOP" name = true)
      (readable : ¬ (slot = .leading ∧ op.writesDestination = true)) :
      Spelled op slot [.identifier name] .top
  | sized {name : String} {w : Width} {l : Literal} (n : Nat)
      (keyword : Width.ofKeyword? name = some w)
      (admitted : ∀ required, op.moveWidth? = some required → required = w)
      (value : l.value = n) (fits : w.Fits n) :
      Spelled op .trailing [.identifier name, .literal l] (.immediate (.ofNat w n))
  | leading {l : Literal} (n : Nat) (value : l.value = n)
      (plain : Tag.shadowsLeading n.toUInt8 = false) :
      Spelled op .leading [.literal l] (.literal n.toUInt8)
  | moved {l : Literal} {w : Width} (n : Nat) (move : op.moveWidth? = some w)
      (value : l.value = n) (fits : w.Fits n) :
      Spelled op .trailing [.literal l] (.immediate (.ofNat w n))
  | inferred {l : Literal} (n : Nat) (move : op.isMove = true) (free : op.moveWidth? = none)
      (value : l.value = n) :
      Spelled op .trailing [.literal l] (.immediate (.ofNat (.narrowest n) n))
  | escaped {l : Literal} (n : Nat) (other : op.isMove = false) (value : l.value = n)
      (shadowed : Tag.shadowsTrailing n.toUInt8 = true) :
      Spelled op .trailing [.literal l] (.immediate (.ofByte n.toUInt8))
  | raw {l : Literal} (n : Nat) (other : op.isMove = false) (value : l.value = n)
      (plain : Tag.shadowsTrailing n.toUInt8 = false) :
      Spelled op .trailing [.literal l] (.literal n.toUInt8)

/-- The tokens between an operand and the one before it. -/
def Slot.separator : Slot → List Token
  | leading => []
  | trailing => [.mark .comma]

inductive Operand.AllSpelled (op : Opcode) : List Slot → List Token → List Operand → Prop where
  | nil : AllSpelled op [] [] []
  | cons {slot : Slot} {slots : List Slot} {ts us : List Token} {o : Operand} {os : List Operand}
      (first : Spelled op slot ts o) (others : AllSpelled op slots us os) :
      AllSpelled op (slot :: slots) (slot.separator ++ ts ++ us) (o :: os)

inductive StatementKind.Spelled : List Token → StatementKind → Prop where
  | label (name : String) : Spelled [.identifier name, .mark .colon] (.label name)
  | instruction {name : String} {op : Opcode} {ts : List Token} {os : List Operand}
      (mnemonic : Opcode.ofMnemonic? name = some op)
      (operands : Operand.AllSpelled op op.slots ts os) :
      Spelled (.identifier name :: ts) (.instruction ⟨op, os⟩)

/-- No literal is as wide as an unsigned number of the widest width. -/
theorem Literal.fits_of_value {l : Literal} {n : Nat} (value : l.value = n) :
    Width.quadWord.Fits n := by
  have bound : l.value < 2 ^ 63 := by
    cases l with
    | integer v => exact Int.lt_trans v.toInt_lt (by decide)
    | byte v => exact Int.lt_trans (Int.ofNat_lt.mpr v.toNat_lt) (by decide)
    | short v => exact Int.lt_trans v.toInt_lt (by decide)
    | long v => exact v.toInt_lt
  have power : Width.quadWord.Fits n ↔ n < 18446744073709551616 := Iff.rfl
  rw [power]
  omega

namespace Opcode

theorem isMove_of_moveWidth? {op : Opcode} {w : Width} (move : op.moveWidth? = some w) :
    op.isMove = true := by
  cases op <;> first | rfl | cases move

end Opcode

namespace LiteralMode

theorem ofSlot_trailing (op : Opcode) :
    ofSlot op .trailing =
      if op.isMove then op.moveWidth?.elim inferred sized else raw := by
  cases op <;> rfl

theorem admits_trailing_iff {op : Opcode} {w : Width} :
    admits op w (ofSlot op .trailing) = .ok () ↔
      ∀ required, op.moveWidth? = some required → required = w := by
  cases op <;> cases w <;> simp [admits, ofSlot, Opcode.action, Opcode.moveWidth?]

end LiteralMode

namespace Operand

theorem ofSized_eq_ok_iff {w : Width} {n : Nat} {o : Operand} :
    ofSized w n = .ok o ↔ w.Fits n ∧ o = .immediate (.ofNat w n) := by
  unfold ofSized
  split
  · rename_i fits
    simp [fits, eq_comm]
  · rename_i wide
    simp [wide]

end Operand

theorem Width.sameSpelling_of_ofKeyword? {name : String} {w : Width}
    (keyword : ofKeyword? name = some w) : Text.sameSpelling w.keyword name = true := by
  have same := List.find?_some keyword
  exact same

/-- No width is spelled like the stack's top. -/
theorem Width.ofKeyword?_eq_none_of_top {name : String} (top : Text.sameSpelling "TOP" name = true) :
    ofKeyword? name = none := by
  cases keyword : ofKeyword? name with
  | none => rfl
  | some w =>
    have width := Text.sameSpelling_iff.mp (sameSpelling_of_ofKeyword? keyword)
    have same := (Text.sameSpelling_iff.mp top).trans width.symm
    revert same
    cases w <;> decide

namespace Operand

variable {op : Opcode} {slot : Slot} {ts : List Token} {o : Operand}

theorem spelled_bracket_iff :
    Spelled op slot (.mark .openBracket :: ts) o ↔ ∃ (l : Literal) (address : UInt8),
      ts = [.literal l, .mark .closeBracket] ∧ l.value = address.toNat ∧
        o = .reference (.ofByte address) := by
  constructor
  · intro spelled
    cases spelled with
    | reference address value => exact ⟨_, address, rfl, value, rfl⟩
  · rintro ⟨l, address, rfl, value, rfl⟩
    exact .reference address value

theorem spelled_word_iff {name : String} :
    Spelled op slot (.identifier name :: ts) o ↔
      (Text.sameSpelling "TOP" name = true ∧ ¬ (slot = .leading ∧ op.writesDestination = true) ∧
        ts = [] ∧ o = .top) ∨
      ∃ w, Width.ofKeyword? name = some w ∧ ∃ (l : Literal) (n : Nat),
        ts = [.literal l] ∧ l.value = n ∧
          LiteralMode.admits op w (.ofSlot op slot) = .ok () ∧ ofSized w n = .ok o := by
  constructor
  · intro spelled
    cases spelled with
    | top keyword readable => exact .inl ⟨keyword, readable, rfl, rfl⟩
    | sized n keyword admitted value fits =>
      exact .inr ⟨_, keyword, _, n, rfl, value, LiteralMode.admits_trailing_iff.mpr admitted,
        ofSized_eq_ok_iff.mpr ⟨fits, rfl⟩⟩
  · rintro (⟨keyword, readable, rfl, rfl⟩ | ⟨w, keyword, l, n, rfl, value, admitted, accepted⟩)
    · exact .top keyword readable
    · obtain ⟨fits, rfl⟩ := ofSized_eq_ok_iff.mp accepted
      cases slot with
      | leading => cases admitted
      | trailing => exact .sized n keyword (LiteralMode.admits_trailing_iff.mp admitted) value fits

/-- A number that stands alone is written as its slot demands. -/
theorem spelled_literal_iff {l : Literal} :
    Spelled op slot (.literal l :: ts) o ↔
      ts = [] ∧ ∃ n : Nat, l.value = n ∧ ofLiteral (.ofSlot op slot) n = .ok o := by
  constructor
  · intro spelled
    cases spelled with
    | leading n value plain =>
      refine ⟨rfl, n, value, ?_⟩
      have none : Tag.shadowingLeading? n.toUInt8 = none := by
        simpa [Tag.shadowsLeading] using plain
      simp [ofLiteral, LiteralMode.ofSlot, none]
    | moved n move value fits =>
      refine ⟨rfl, n, value, ?_⟩
      rw [LiteralMode.ofSlot_trailing, Opcode.isMove_of_moveWidth? move, move]
      exact ofSized_eq_ok_iff.mpr ⟨fits, rfl⟩
    | inferred n move free value =>
      refine ⟨rfl, n, value, ?_⟩
      rw [LiteralMode.ofSlot_trailing, move, free]
      exact ofSized_eq_ok_iff.mpr ⟨Width.fits_narrowest (Literal.fits_of_value value), rfl⟩
    | escaped n other value shadowed =>
      refine ⟨rfl, n, value, ?_⟩
      simp [LiteralMode.ofSlot_trailing, other, ofLiteral, shadowed]
    | raw n other value plain =>
      refine ⟨rfl, n, value, ?_⟩
      simp [LiteralMode.ofSlot_trailing, other, ofLiteral, plain]
  · rintro ⟨rfl, n, value, accepted⟩
    cases slot with
    | leading =>
      simp only [ofLiteral, LiteralMode.ofSlot] at accepted
      split at accepted
      · cases accepted
      · rename_i none
        cases accepted
        exact .leading n value (by simp [Tag.shadowsLeading, none])
    | trailing =>
      rw [LiteralMode.ofSlot_trailing] at accepted
      split at accepted
      · rename_i move
        cases width : op.moveWidth? with
        | none =>
          rw [width] at accepted
          obtain ⟨_, rfl⟩ := ofSized_eq_ok_iff.mp accepted
          exact .inferred n move width value
        | some w =>
          rw [width] at accepted
          obtain ⟨fits, rfl⟩ := ofSized_eq_ok_iff.mp accepted
          exact .moved n width value fits
      · rename_i other
        simp only [ofLiteral] at accepted
        split at accepted
        · rename_i shadowed
          cases accepted
          exact .escaped n (by simpa using other) value shadowed
        · rename_i plain
          cases accepted
          exact .raw n (by simpa using other) value (by simpa using plain)

end Operand

theorem StatementKind.spelled_word_iff {name : String} {ts : List Token} {kind : StatementKind} :
    kind.Spelled (.identifier name :: ts) ↔ (ts = [.mark .colon] ∧ kind = .label name) ∨
      ∃ op os, Opcode.ofMnemonic? name = some op ∧ Operand.AllSpelled op op.slots ts os ∧
        kind = .instruction ⟨op, os⟩ := by
  constructor
  · intro spelled
    cases spelled with
    | label => exact .inl ⟨rfl, rfl⟩
    | instruction mnemonic operands => exact .inr ⟨_, _, mnemonic, operands, rfl⟩
  · rintro (⟨rfl, rfl⟩ | ⟨op, os, mnemonic, operands, rfl⟩)
    · exact .label name
    · exact .instruction mnemonic operands

end OctetMachine
