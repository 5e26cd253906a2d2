import OctetMachine.Value.Basic

/-! Bytewise operations on values. The right value is first brought to the width of the left one;
then each pair of bytes is combined on its own, without carry between bytes. -/
namespace OctetMachine.Value

/-- Combine two values byte by byte in the width of the left one. -/
def zipBytes (f : UInt8 → UInt8 → UInt8) (a b : Value) : Value :=
  ⟨a.width, List.zipWith f a.bytes (b.resize a.width).bytes, by
    simp [a.length_bytes, (b.resize a.width).length_bytes]⟩

def add : Value → Value → Value := zipBytes (· + ·)

def sub : Value → Value → Value := zipBytes (· - ·)

def mul : Value → Value → Value := zipBytes (· * ·)

def and : Value → Value → Value := zipBytes (· &&& ·)

def or : Value → Value → Value := zipBytes (· ||| ·)

def xor : Value → Value → Value := zipBytes (· ^^^ ·)

/-- Each byte moves left by the byte beside it; eight places or more leave nothing. -/
def shiftLeft : Value → Value → Value :=
  zipBytes fun a b => if b < 8 then a <<< b else 0

/-- Each byte moves right by the byte beside it; eight places or more leave nothing. -/
def shiftRight : Value → Value → Value :=
  zipBytes fun a b => if b < 8 then a >>> b else 0

/-- Bytewise quotients; none when some byte of the divisor is zero. -/
def div? (a b : Value) : Option Value :=
  if (0 : UInt8) ∈ (b.resize a.width).bytes then none else some (zipBytes (· / ·) a b)

@[simp] theorem width_zipBytes (f : UInt8 → UInt8 → UInt8) (a b : Value) :
    (zipBytes f a b).width = a.width := rfl

end OctetMachine.Value

namespace OctetMachine

inductive Arithmetic where
  | add | sub | mul | div
deriving DecidableEq, Repr

/-- The result of an operation; only a division can fail. -/
def Arithmetic.apply? : Arithmetic → Value → Value → Option Value
  | .add, a, b => some (a.add b)
  | .sub, a, b => some (a.sub b)
  | .mul, a, b => some (a.mul b)
  | .div, a, b => a.div? b

end OctetMachine
