import OctetMachine.Code.Cursor
import OctetMachine.Interchange.Tree

/-! Data trees of values, instructions and code. -/
namespace OctetMachine

def Width.name : Width → String
  | byte => "Byte"
  | word => "Word"
  | doubleWord => "DoubleWord"
  | quadWord => "QuadWord"

instance : Interchange Width where
  toTree w := .text w.name
  ofTree? := Tree.choose? Width.name Width.all

/-- A value of one byte carries that byte, every other one the list of its bytes. -/
instance : Interchange Value where
  toTree v :=
    match v.byte? with
    | some b => .record [(v.width.name, toTree b)]
    | none => .record [(v.width.name, toTree v.bytes)]
  ofTree? t := do
    let (name, carried) ← t.alternative?
    let w ← Width.all.find? fun w => w.name == name
    let bytes ← carried
    match w with
    | .byte => (ofTree? bytes).map Value.ofByte
    | _ => (ofTree? bytes).bind (Value.ofBytes? w)

def Opcode.name : Opcode → String
  | mov => "Move"
  | movb => "Movb"
  | movw => "Movw"
  | movd => "Movd"
  | movq => "Movq"
  | push => "Push"
  | pop => "Pop"
  | jmp => "Jmp"
  | jeq => "Jeq"
  | jle => "Jle"
  | jlt => "Jlt"
  | jgt => "Jgt"
  | jge => "Jge"
  | add => "Add"
  | sub => "Sub"
  | mul => "Mul"
  | div => "Div"
  | le => "Le"
  | lt => "Lt"
  | ge => "Ge"
  | gt => "Gt"

instance : Interchange Opcode where
  toTree op := .text op.name
  ofTree? := Tree.choose? Opcode.name Opcode.all

def Tag.label : Tag → String
  | top => "Top"
  | ref => "Ref"
  | insPtr => "InsPtr"
  | sized .byte => "Byte"
  | sized .word => "Word"
  | sized .doubleWord => "DWord"
  | sized .quadWord => "QWord"

instance : Interchange Tag where
  toTree tag := .text tag.label
  ofTree? := Tree.choose? Tag.label Tag.all

def Slot.name : Slot → String
  | leading => "Leading"
  | trailing => "Trailing"

instance : Interchange Slot where
  toTree slot := .text slot.name
  ofTree? := Tree.choose? Slot.name [.leading, .trailing]

instance : Interchange Operand where
  toTree
    | .literal b => .record [("Literal", toTree b)]
    | .top => .text "Top"
    | .reference address => .record [("Reference", toTree address)]
    | .shortReference address => .record [("ShortReference", toTree address)]
    | .immediate value => .record [("Immediate", toTree value)]
  ofTree? t :=
    if t.bareName? = some "Top" then some .top
    else
      match t.alternative? with
      | some ("Literal", some carried) => (ofTree? carried).map Operand.literal
      | some ("Reference", some carried) => (ofTree? carried).map Operand.reference
      | some ("ShortReference", some carried) => (ofTree? carried).map Operand.shortReference
      | some ("Immediate", some carried) => (ofTree? carried).map Operand.immediate
      | _ => none

instance : Interchange Instruction where
  toTree i := .record [("opcode", toTree i.opcode), ("operands", toTree i.operands)]
  ofTree? t :=
    match t.fields? ["opcode", "operands"] with
    | some [opcode, operands] => return ⟨← ofTree? opcode, ← ofTree? operands⟩
    | _ => none

/-- Only the bytes travel; code that comes back is read from its start. -/
instance : Interchange Cursor where
  toTree c := .record [("code", toTree c.code)]
  ofTree? t :=
    match t.fields? ["code"] with
    | some [code] => (ofTree? code).map Cursor.ofCode
    | _ => none

end OctetMachine
