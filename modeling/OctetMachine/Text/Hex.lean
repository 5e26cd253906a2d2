/-! Hexadecimal numerals in capital letters, padded on the left with zeros. -/
namespace OctetMachine.Text

/-- At least `width` hexadecimal digits. -/
def hex (width n : Nat) : List Char :=
  let digits := (Nat.toDigits 16 n).map Char.toUpper
  List.replicate (width - digits.length) '0' ++ digits

/-- A byte as its two digits. -/
def hexByte (b : UInt8) : List Char := hex 2 b.toNat

end OctetMachine.Text
