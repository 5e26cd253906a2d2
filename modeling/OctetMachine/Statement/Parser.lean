import OctetMachine.Instruction.Basic
import OctetMachine.Statement.Error

/-! Statements of source text: labels and instructions. A parser that fails leaves the stream behind
the tokens that it has taken. -/
namespace OctetMachine

inductive StatementKind where
  | label (name : String)
  | instruction (instruction : Instruction)
deriving DecidableEq, Repr

/-- A statement and the position of its first token. -/
structure Statement where
  position : Position
  kind : StatementKind
deriving DecidableEq, Repr

/-- How a bare number is written into an operand's slot. -/
inductive LiteralMode where
  /-- Its low byte, unless that is a tag there. -/
  | leading
  /-- An immediate of this width. -/
  | sized (width : Width)
  /-- An immediate of the narrowest width that holds it. -/
  | inferred
  /-- Its low byte, as an immediate if that is a tag there. -/
  | raw
deriving DecidableEq, Repr

def LiteralMode.ofSlot (op : Opcode) : Slot → LiteralMode
  | .leading => leading
  | .trailing =>
    match op.action with
    | .move (some w) => sized w
    | .move none => inferred
    | _ => raw

/-- Whether a slot takes an immediate of this width. -/
def LiteralMode.admits (op : Opcode) (w : Width) : LiteralMode → Except Refusal Unit
  | leading => .error (.leadingImmediate w)
  | sized required => if required = w then .ok () else .error (.otherWidth op required w)
  | inferred | raw => .ok ()

/-- An immediate of a width, for a number that fits. -/
def Operand.ofSized (w : Width) (literal : Nat) : Except Refusal Operand :=
  if w.Fits literal then .ok (.immediate (.ofNat w literal)) else .error (.doesNotFit literal w)

def Operand.ofLiteral (mode : LiteralMode) (literal : Nat) : Except Refusal Operand :=
  match mode with
  | .leading =>
    match Tag.shadowingLeading? literal.toUInt8 with
    | some tag => .error (.tagCollision literal tag)
    | none => .ok (.literal literal.toUInt8)
  | .sized w => ofSized w literal
  | .inferred => ofSized (.narrowest literal) literal
  | .raw =>
    if Tag.shadowsTrailing literal.toUInt8 then .ok (.immediate (.ofByte literal.toUInt8))
    else .ok (.literal literal.toUInt8)

abbrev Parser := EStateM SourceError TokenStream

namespace Parser

def fail {α : Type} (position : Position) (cause : SourceCause) : Parser α :=
  throw ⟨position, cause⟩

def accept {α : Type} (position : Position) : Except Refusal α → Parser α
  | .ok a => pure a
  | .error refusal => fail position (.unsupported refusal)

/-- The next token, which something is expected of. -/
def take (expected : Expectation) : Parser PlacedToken := fun s =>
  match s.peek? with
  | some t => .ok t s.advance
  | none => .error ⟨s.position, .unexpected expected .endOfInput⟩ s

def mark (m : Mark) : Parser Unit := do
  let t ← take (.mark m)
  if t.token = .mark m then pure () else fail t.position (.unexpected (.mark m) (.token t.token))

def magnitude (position : Position) (value : Int) : Parser Nat :=
  match value with
  | .ofNat n => pure n
  | .negSucc _ => fail position (.unsupported .negative)

def integer : Parser (Nat × Position) := do
  let t ← take .integer
  match t.token with
  | .literal l => return (← magnitude t.position l.value, t.position)
  | .mark .minus => fail t.position (.unsupported .negative)
  | other => fail t.position (.unexpected .integer (.token other))

/-- A one-byte address and the closing bracket, behind the opening one. -/
def reference : Parser Operand := do
  let (address, position) ← integer
  if address < 256 then
    mark .closeBracket
    return .reference (.ofByte address.toUInt8)
  else fail position (.unsupported (.wideAddress address))

/-- The rest of a sized immediate, behind its width. -/
def sizedImmediate (op : Opcode) (slot : Slot) (w : Width) (position : Position) :
    Parser Operand := do
  accept position (LiteralMode.admits op w (.ofSlot op slot))
  let (literal, place) ← integer
  accept place (Operand.ofSized w literal)

def keyword (op : Opcode) (slot : Slot) (name : String) (position : Position) :
    Parser Operand :=
  if Text.sameSpelling "TOP" name then
    if slot = .leading ∧ op.writesDestination then fail position (.unsupported .topAsDestination)
    else pure .top
  else
    match Width.ofKeyword? name with
    | some w => sizedImmediate op slot w position
    | none => fail position .labelOperand

def operand (op : Opcode) (slot : Slot) : Parser Operand := do
  let t ← take .operand
  match t.token with
  | .mark .openBracket => reference
  | .identifier name => keyword op slot name t.position
  | .mark .minus => fail t.position (.unsupported .negative)
  | .literal l =>
    let literal ← magnitude t.position l.value
    accept t.position (Operand.ofLiteral (.ofSlot op slot) literal)
  | other => fail t.position (.unexpected .operand (.token other))

/-- A comma stands before every operand but the leading one. -/
def separator : Slot → Parser Unit
  | .leading => pure ()
  | .trailing => mark .comma

def operands (op : Opcode) : List Slot → Parser (List Operand)
  | [] => pure []
  | slot :: slots => do
    separator slot
    let o ← operand op slot
    let os ← operands op slots
    return o :: os

/-- What follows a statement's first word: a colon makes it a label, otherwise it is a mnemonic. -/
def statementNamed (name : String) (position : Position) : Parser StatementKind := do
  if ((← get).peek?.map (·.token)) = some (.mark .colon) then
    mark .colon
    return .label name
  else
    match Opcode.ofMnemonic? name with
    | none => fail position (.unknownInstruction name)
    | some op => return .instruction ⟨op, ← operands op op.slots⟩

def statementAt (first : PlacedToken) : Parser Statement :=
  match first.token with
  | .identifier name => do return ⟨first.position, ← statementNamed name first.position⟩
  | other => fail first.position (.unexpected .instruction (.token other))

/-- The next statement; none at the end of input. -/
def statement : Parser (Option Statement) := fun s =>
  match s.peek? with
  | none => .ok none s
  | some first => (some <$> statementAt first) s.advance

end Parser
end OctetMachine
