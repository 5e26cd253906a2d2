import OctetMachine.Source.Position
import OctetMachine.Text.Caseless

/-! Tokens of source text. -/
namespace OctetMachine

/-- Number literals. Source text gives signed 32-bit ones; the other sizes come from tokens that are
put together by hand. -/
inductive Literal where
  | integer (value : Int32)
  | byte (value : UInt8)
  | short (value : Int16)
  | long (value : Int64)
deriving DecidableEq, Repr

/-- The number of a literal, whatever its size. -/
def Literal.value : Literal → Int
  | integer n => n.toInt
  | byte n => n.toNat
  | short n => n.toInt
  | long n => n.toInt

inductive Mark where
  | comma | openBracket | closeBracket | colon | openParen | closeParen | plus | minus
deriving DecidableEq, Repr

namespace Mark

def all : List Mark :=
  [comma, openBracket, closeBracket, colon, openParen, closeParen, plus, minus]

def char : Mark → Char
  | comma => ','
  | openBracket => '['
  | closeBracket => ']'
  | colon => ':'
  | openParen => '('
  | closeParen => ')'
  | plus => '+'
  | minus => '-'

def ofChar? (c : Char) : Option Mark := all.find? fun m => m.char == c

def text (m : Mark) : String := "`" ++ String.ofList [m.char] ++ "`"

end Mark

inductive Token where
  | identifier (name : String)
  | literal (literal : Literal)
  | mark (mark : Mark)
deriving DecidableEq, Repr

namespace Token

/-- How messages name a token. -/
def text : Token → String
  | identifier name => "identifier `" ++ name ++ "`"
  | literal l => "integer `" ++ toString l.value ++ "`"
  | mark m => m.text

def integerValue? : Token → Option Int
  | literal l => some l.value
  | _ => none

def identifier? : Token → Option String
  | identifier name => some name
  | _ => none

/-- Whether a token is an identifier with this spelling, in any mixture of cases. -/
def isKeyword (keyword : String) : Token → Bool
  | identifier name => Text.sameSpelling keyword name
  | _ => false

end Token

/-- A token and the position of its first character. -/
structure PlacedToken where
  token : Token
  position : Position
deriving DecidableEq, Repr

end OctetMachine
