import OctetMachine.Instruction.Encoding
import OctetMachine.Statement.Forward

/-! Assembling: statements become code, and labels name places in it. The first thing wrong with a
text, in reading order, is what is reported. -/
namespace OctetMachine

/-- The statements of a stream up to its first that cannot be parsed, and what is wrong with that. -/
structure Parsed where
  statements : List Statement
  failure : Option SourceError
deriving DecidableEq, Repr

def Parsed.ofStream (s : TokenStream) : Parsed :=
  match _parsed : Parser.statement s with
  | .ok none _ => ⟨[], none⟩
  | .error e _ => ⟨[], some e⟩
  | .ok (some st) rest =>
    let others := ofStream rest
    ⟨st :: others.statements, others.failure⟩
termination_by s.ahead.length
decreasing_by exact Parser.length_of_statement _parsed

/-- Code, and the offsets of its labels in the order of their definition. -/
structure Assembly where
  code : List UInt8
  labels : List (String × Nat)
deriving DecidableEq, Repr

namespace Assembly

/-- Lay statements out from an offset on. Labels take no room, and none of `seen` may be defined
again. -/
def layout (offset : Nat) (seen : List String) : List Statement → Except SourceError Assembly
  | [] => .ok ⟨[], []⟩
  | ⟨position, .label name⟩ :: rest =>
    if name ∈ seen then .error ⟨position, .duplicateLabel name⟩
    else
      (layout offset (name :: seen) rest).map fun a => { a with labels := (name, offset) :: a.labels }
  | ⟨_, .instruction i⟩ :: rest =>
    (layout (offset + i.encode.length) seen rest).map fun a => { a with code := i.encode ++ a.code }

/-- Assemble all tokens of a stream, wherever its place is. -/
def ofStream (s : TokenStream) : Except SourceError Assembly :=
  let parsed := Parsed.ofStream s.reset
  match layout 0 [] parsed.statements, parsed.failure with
  | .error e, _ => .error e
  | .ok _, some e => .error e
  | .ok a, none => .ok a

def ofSource (source : String) : Except SourceError Assembly :=
  match TokenStream.ofSource source with
  | .error e => .error (.ofLexError e)
  | .ok s => ofStream s

end Assembly

/-- The instruction that a text consists of. -/
def Instruction.ofSource (source : String) : Except SourceError Instruction :=
  match TokenStream.ofSource source with
  | .error e => .error (.ofLexError e)
  | .ok s =>
    match Parser.statement s with
    | .error e _ => .error e
    | .ok none t => .error ⟨t.position, .unexpected .instruction .endOfInput⟩
    | .ok (some st) t =>
      match t.peek?, st.kind with
      | some extra, _ => .error ⟨extra.position, .unexpected .endOfInput (.token extra.token)⟩
      | none, .label _ => .error ⟨st.position, .unexpected .instruction .labelDefinition⟩
      | none, .instruction i => .ok i

end OctetMachine
