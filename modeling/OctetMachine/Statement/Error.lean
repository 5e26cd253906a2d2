import OctetMachine.Tag
import OctetMachine.Opcode
import OctetMachine.Token.Lexer

/-! What can be wrong with source text, and the wording of each complaint. -/
namespace OctetMachine

/-- What the grammar asks for at some place. -/
inductive Expectation where
  | instruction
  | operand
  | integer
  | mark (mark : Mark)
  | endOfInput
deriving DecidableEq, Repr

def Expectation.text : Expectation → String
  | instruction => "instruction"
  | operand => "operand"
  | integer => "integer"
  | mark m => m.text
  | endOfInput => "end of input"

/-- What stands there instead. -/
inductive Finding where
  | token (token : Token)
  | endOfInput
  | labelDefinition
deriving DecidableEq, Repr

def Finding.text : Finding → String
  | token t => t.text
  | endOfInput => "end of input"
  | labelDefinition => "label definition"

/-- Operands that are well written and yet have no encoding. -/
inductive Refusal where
  | wideAddress (address : Nat)
  | topAsDestination
  | leadingImmediate (width : Width)
  | otherWidth (opcode : Opcode) (required found : Width)
  | tagCollision (literal : Nat) (tag : Tag)
  | doesNotFit (literal : Nat) (width : Width)
  | negative
deriving DecidableEq, Repr

def Refusal.text : Refusal → String
  | wideAddress address => s!"memory address {address} does not fit in a byte"
  | topAsDestination => "TOP cannot be a destination; use PUSH instead"
  | leadingImmediate w => w.keyword ++ " immediates are only allowed after the first operand"
  | otherWidth op required found =>
    op.mnemonic ++ " takes a " ++ required.keyword ++ " operand, found " ++ found.keyword
  | tagCollision literal tag => s!"literal {literal} collides with the " ++ tag.name ++ " tag byte"
  | doesNotFit literal w => s!"literal {literal} does not fit in " ++ w.keyword
  | negative => "negative literals are not supported"

inductive SourceCause where
  | lexical (cause : LexCause)
  | unexpected (expected : Expectation) (found : Finding)
  | unknownInstruction (mnemonic : String)
  | unsupported (refusal : Refusal)
  | duplicateLabel (name : String)
  /-- A label used as an operand; labels can only be defined. -/
  | labelOperand
deriving DecidableEq, Repr

structure SourceError where
  position : Position
  cause : SourceCause
deriving DecidableEq, Repr

namespace SourceError

def ofLexError (e : LexError) : SourceError := ⟨e.position, .lexical e.cause⟩

def message (e : SourceError) : String :=
  let place := e.position.text
  match e.cause with
  | .lexical cause => LexError.message ⟨e.position, cause⟩
  | .unexpected expected found =>
    "Syntax error at " ++ place ++ ": expected " ++ expected.text ++ ", found " ++ found.text
  | .unknownInstruction mnemonic => "Unknown instruction at " ++ place ++ ": " ++ mnemonic
  | .unsupported refusal => "Unsupported operand at " ++ place ++ ": " ++ refusal.text
  | .duplicateLabel name => "Duplicate label at " ++ place ++ ": " ++ name
  | .labelOperand => "labels are not yet implemented (at " ++ place ++ ")"

/-- The complaint without its place. -/
def summary (e : SourceError) : String :=
  match e.cause with
  | .lexical cause => cause.summary
  | .unexpected expected found => "expected " ++ expected.text ++ ", found " ++ found.text
  | .unknownInstruction mnemonic => "unknown instruction `" ++ mnemonic ++ "`"
  | .unsupported refusal => refusal.text
  | .duplicateLabel name => "label `" ++ name ++ "` is already defined"
  | .labelOperand => "labels are not yet implemented"

/-- Line, column and complaint, as tools that jump to a place want them. -/
def diagnostic (e : SourceError) : String :=
  s!"{e.position.line}:{e.position.column}: " ++ e.summary

end SourceError
end OctetMachine
