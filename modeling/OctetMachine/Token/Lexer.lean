import OctetMachine.Source.LineIndex
import OctetMachine.Text.Quoted
import OctetMachine.Token.Stream

/-! Source text as tokens. Blanks and comments separate; what remains is words, digit runs and
marks, each as long as it can be. -/
namespace OctetMachine

/-- Why a text is no sequence of tokens. -/
inductive LexCause where
  | unexpectedCharacter (character : Char)
  /-- A digit run that exceeds every 32-bit signed number. -/
  | integerOutOfRange (digits : String)
deriving DecidableEq, Repr

structure LexError where
  position : Position
  cause : LexCause
deriving DecidableEq, Repr

/-- The complaint without its place. -/
def LexCause.summary : LexCause → String
  | unexpectedCharacter c => "unexpected character " ++ Text.quotedChar c
  | integerOutOfRange digits => "integer literal `" ++ digits ++ "` out of range"

def LexError.message (e : LexError) : String :=
  match e.cause with
  | .unexpectedCharacter c => "Unexpected character " ++ Text.quotedChar c ++ " at " ++ e.position.text
  | .integerOutOfRange digits =>
    "Integer literal `" ++ digits ++ "` out of range at " ++ e.position.text

namespace Lexer

def isBlank (c : Char) : Bool := c == ' ' || c == '\t' || c == '\r' || c == '\n' || c == '\x0c'

def isWordRest (c : Char) : Bool := c.isAlphanum || c == '_'

def inComment (c : Char) : Bool := c != '\n'

/-- The largest number that a literal in source text can have. -/
def literalLimit : Nat := 2147483647

/-- The tokens of a text, with their byte offsets when the text itself begins at an offset. -/
def scan (offset : Nat) (text : List Char) :
    Except (Nat × LexCause) (List (Nat × Token)) :=
  match text with
  | [] => .ok []
  | c :: rest =>
    if isBlank c then scan (offset + c.utf8Size) rest
    else if c = ';' then
      scan (offset + Text.utf8Length (c :: rest.takeWhile inComment)) (rest.dropWhile inComment)
    else if c.isAlpha then
      let word := c :: rest.takeWhile isWordRest
      (scan (offset + Text.utf8Length word) (rest.dropWhile isWordRest)).map
        ((offset, .identifier (String.ofList word)) :: ·)
    else if c.isDigit then
      let digits := c :: rest.takeWhile Char.isDigit
      let value := Nat.ofDigitChars 10 digits 0
      if value ≤ literalLimit then
        (scan (offset + Text.utf8Length digits) (rest.dropWhile Char.isDigit)).map
          ((offset, .literal (.integer (Int32.ofNat value))) :: ·)
      else .error (offset, .integerOutOfRange (String.ofList digits))
    else
      match Mark.ofChar? c with
      | some m => (scan (offset + c.utf8Size) rest).map ((offset, .mark m) :: ·)
      | none => .error (offset, .unexpectedCharacter c)
termination_by text.length
decreasing_by
  all_goals simp only [List.length_cons]
  all_goals first
    | exact Nat.lt_succ_self _
    | exact Nat.lt_succ_of_le (List.dropWhile_sublist _).length_le

end Lexer

/-- The tokens of a source text. Its end is the end of input, whatever stands after the last
token. -/
def TokenStream.ofSource (source : String) : Except LexError TokenStream :=
  let text := source.toList
  let index := LineIndex.ofText text
  match Lexer.scan 0 text with
  | .ok tokens =>
    .ok (.ofTokens (tokens.map fun (offset, token) => ⟨token, index.position offset⟩)
      (index.position (Text.utf8Length text)))
  | .error (offset, cause) => .error ⟨index.position offset, cause⟩

end OctetMachine
