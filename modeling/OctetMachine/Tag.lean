import OctetMachine.Width

/-! Tag bytes: the bytes that introduce every operand other than a literal byte. -/
namespace OctetMachine

inductive Tag where
  | top
  | ref
  /-- Reserved for the instruction pointer; no operand uses it. -/
  | insPtr
  /-- A value of this width follows. -/
  | sized (width : Width)
deriving DecidableEq, Repr

namespace Tag

def all : List Tag := [top, ref, insPtr] ++ Width.all.map sized

def byte : Tag → UInt8
  | top => 0xB0
  | ref => 0xC0
  | insPtr => 0xC1
  | sized .byte => 0xD0
  | sized .word => 0xD1
  | sized .doubleWord => 0xD2
  | sized .quadWord => 0xD3

def ofByte? (b : UInt8) : Option Tag := all.find? fun tag => tag.byte == b

def name : Tag → String
  | top => "TOP"
  | ref => "REF"
  | insPtr => "INSPTR"
  | sized w => w.keyword

def width? : Tag → Option Width
  | sized w => some w
  | _ => none

def widthOf? (b : UInt8) : Option Width := (ofByte? b).bind width?

/-- The tag that a byte would be read as at the start of a leading operand. -/
def shadowingLeading? (b : UInt8) : Option Tag :=
  match ofByte? b with
  | some top => some top
  | some ref => some ref
  | _ => none

/-- Whether a byte at the start of a leading operand reads as something other than a literal. -/
def shadowsLeading (b : UInt8) : Bool := (shadowingLeading? b).isSome

/-- Whether a byte at the start of a later operand reads as something other than a literal. -/
def shadowsTrailing (b : UInt8) : Bool := shadowsLeading b || (widthOf? b).isSome

@[simp] theorem ofByte?_byte (tag : Tag) : ofByte? tag.byte = some tag := by
  rcases tag with _ | _ | _ | w
  · rfl
  · rfl
  · rfl
  · cases w <;> rfl

theorem ofByte?_eq_some_iff {b : UInt8} {tag : Tag} : ofByte? b = some tag ↔ b = tag.byte := by
  constructor
  · intro found
    have same := List.find?_some found
    exact (eq_of_beq same).symm
  · rintro rfl
    exact ofByte?_byte tag

@[simp] theorem widthOf?_byte_sized (w : Width) : widthOf? (sized w).byte = some w := by
  simp [widthOf?, width?]

theorem eq_byte_of_widthOf? {b : UInt8} {w : Width} (sized : widthOf? b = some w) :
    b = (Tag.sized w).byte := by
  obtain ⟨tag, known, width⟩ := Option.bind_eq_some_iff.mp sized
  cases tag <;> cases width
  exact ofByte?_eq_some_iff.mp known

theorem shadowsLeading_iff {b : UInt8} :
    shadowsLeading b = true ↔ ofByte? b = some top ∨ ofByte? b = some ref := by
  simp only [shadowsLeading, shadowingLeading?]
  split <;> simp_all

end Tag
end OctetMachine
