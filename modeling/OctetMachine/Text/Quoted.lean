import OctetMachine.Text.Markless

/-! Characters between single quotes, as messages show them. -/
namespace OctetMachine.Text

/-- The text of a character between quotes: short escapes for a few, the number for those without a
mark, and itself for every other, the double quote among them. -/
def escaped (c : Char) : List Char :=
  if c = Char.ofNat 0 then ['\\', '0']
  else if c = '\t' then ['\\', 't']
  else if c = '\n' then ['\\', 'n']
  else if c = '\r' then ['\\', 'r']
  else if c = '\'' then ['\\', '\'']
  else if c = '\\' then ['\\', '\\']
  else if isMarkless c then "\\u\x7b".toList ++ Nat.toDigits 16 c.toNat ++ "\x7d".toList
  else [c]

def quotedChar (c : Char) : String := String.ofList ('\'' :: escaped c ++ ['\''])

end OctetMachine.Text
