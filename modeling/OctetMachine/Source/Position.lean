/-! Places in source text. -/
namespace OctetMachine

/-- Line and column count from one, the column in characters; the offset counts bytes from zero. -/
structure Position where
  line : Nat
  column : Nat
  offset : Nat
deriving DecidableEq, Repr

namespace Position

def start : Position := ⟨1, 1, 0⟩

def text (p : Position) : String := s!"line {p.line}, column {p.column}"

/-- The place one column and one byte further. -/
def next (p : Position) : Position := ⟨p.line, p.column + 1, p.offset + 1⟩

end Position
end OctetMachine
