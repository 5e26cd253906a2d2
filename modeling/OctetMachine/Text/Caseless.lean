/-! Spellings that agree up to the case of the letters `A` to `Z`. Every other character, also a
letter of another alphabet, has to agree exactly. -/
namespace OctetMachine.Text

/-- A spelling with its letters `A` to `Z` in lower case. -/
def caseFolded (text : String) : List Char := text.toList.map Char.toLower

/-- Two texts are spelled alike when only the case of ASCII letters tells them apart. -/
def sameSpelling (a b : String) : Bool := caseFolded a == caseFolded b

theorem sameSpelling_iff {a b : String} : sameSpelling a b = true ↔ caseFolded a = caseFolded b := by
  simp [sameSpelling]

end OctetMachine.Text
