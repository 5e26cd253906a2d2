import OctetMachine.Instruction.Exactness
import OctetMachine.Instruction.Text

/-! Listings: the instructions of some code from its first byte to its last, with their offsets. -/
namespace OctetMachine

namespace Listing

/-- An instruction and the offset of its first byte. -/
structure Entry where
  offset : Nat
  instruction : Instruction
deriving DecidableEq, Repr

end Listing

abbrev Listing := List Listing.Entry

namespace Listing

/-- Read instructions until nothing is left. -/
def decodeFrom (input : Input) : Except DecodeError Listing :=
  match input.bytes with
  | [] => .ok []
  | _ :: _ =>
    match _read : Instruction.decode input with
    | .error e => .error e
    | .ok (i, rest) =>
      match decodeFrom rest with
      | .error e => .error e
      | .ok entries => .ok (⟨input.offset, i⟩ :: entries)
termination_by input.bytes.length
decreasing_by exact Instruction.length_of_decode _read

def decode (code : List UInt8) : Except DecodeError Listing := decodeFrom ⟨0, code⟩

/-- The column at which the comment of a listing's line starts. -/
def commentColumn : Nat := 32

def padded (width : Nat) (text : String) : String :=
  text ++ String.ofList (List.replicate (width - text.length) ' ')

/-- The bytes of an entry as they stand in the code, where the code reaches so far. -/
def Entry.rawBytes? (code : List UInt8) (e : Entry) : Option (List UInt8) :=
  if e.offset + e.instruction.encodedLength ≤ code.length then
    some ((code.drop e.offset).take e.instruction.encodedLength)
  else none

/-- One line: the instruction, then its offset and its bytes in a comment. -/
def Entry.line (code : List UInt8) (e : Entry) : String :=
  padded commentColumn e.instruction.text ++ "; 0x" ++ String.ofList (Text.hex 4 e.offset) ++ ": " ++
    " ".intercalate (((e.rawBytes? code).getD []).map fun b => String.ofList (Text.hexByte b)) ++ "\n"

/-- The two comment lines above a listing and the empty line below them. -/
def header (code : List UInt8) (entries : Listing) : String :=
  s!"; ByteVM Disassembly\n; Code size: {code.length} bytes ({entries.length} instructions)\n\n"

/-- The listing of some code as text, which is again source text. -/
def text (code : List UInt8) : Except DecodeError String :=
  match decode code with
  | .error e => .error e
  | .ok entries => .ok (header code entries ++ String.join (entries.map (Entry.line code)))

end Listing
end OctetMachine
