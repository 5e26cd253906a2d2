import OctetMachine.Instruction.Basic

/-! Instructions as lines of source text: the mnemonic, then the operands between commas. -/
namespace OctetMachine

/-- The text of an operand. One-byte addresses show no width, so both forms of a reference to a
one-byte address are written alike. -/
def Operand.text : Operand → String
  | literal b => toString b.toNat
  | top => "TOP"
  | reference address =>
    match address.width with
    | .byte => "[" ++ address.text ++ "]"
    | w => "[" ++ w.keyword ++ " " ++ address.text ++ "]"
  | shortReference address => "[" ++ toString address.toNat ++ "]"
  | immediate value => value.width.keyword ++ " " ++ value.text

def Instruction.text (i : Instruction) : String :=
  match i.operands with
  | [] => i.opcode.mnemonic
  | operands => i.opcode.mnemonic ++ " " ++ ", ".intercalate (operands.map Operand.text)

end OctetMachine
