import OctetMachine.Source.Position
import OctetMachine.Text.Utf8

/-! From byte offsets to lines and columns. The starts of the lines are found once; each look-up is
then a binary search among them and a count of characters within one line. -/
namespace OctetMachine

/-- Where a line starts, and the text from there to the end of the source. -/
structure LineStart where
  offset : Nat
  text : List Char

structure LineIndex where
  starts : Array LineStart

namespace LineIndex

/-- The lines that start behind a line break of this text. -/
def startsAfter (offset : Nat) : List Char → List LineStart
  | [] => []
  | c :: text =>
    let next := offset + c.utf8Size
    if c = '\n' then ⟨next, text⟩ :: startsAfter next text else startsAfter next text

def ofText (text : List Char) : LineIndex := ⟨(⟨0, text⟩ :: startsAfter 0 text).toArray⟩

/-- The last line of `lo, …, hi - 1` that starts at or before an offset, or `lo`. -/
def search (starts : Array LineStart) (offset lo hi : Nat) : Nat :=
  if lo + 1 < hi then
    let mid := (lo + hi) / 2
    if starts[mid]?.any fun start => start.offset ≤ offset then search starts offset mid hi
    else search starts offset lo mid
  else lo
termination_by hi - lo

/-- The number of characters that begin within the first so many bytes of a text. -/
def charsWithin : Nat → List Char → Nat
  | _, [] => 0
  | 0, _ :: _ => 0
  | bytes + 1, c :: text => 1 + charsWithin (bytes + 1 - c.utf8Size) text

def position (index : LineIndex) (offset : Nat) : Position :=
  let line := search index.starts offset 0 index.starts.size
  match index.starts[line]? with
  | some start => ⟨line + 1, charsWithin (offset - start.offset) start.text + 1, offset⟩
  | none => ⟨1, 1, offset⟩

end LineIndex
end OctetMachine
