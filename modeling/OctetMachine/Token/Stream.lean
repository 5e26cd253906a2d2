import OctetMachine.Token.Basic

/-! Token sequences with a place in them. -/
namespace OctetMachine

/-- The tokens behind the place, the latest first, the tokens ahead, and the end of input. -/
@[ext]
structure TokenStream where
  behind : List PlacedToken
  ahead : List PlacedToken
  finish : Position
deriving DecidableEq, Repr

namespace TokenStream

def ofTokens (tokens : List PlacedToken) (finish : Position) : TokenStream := ⟨[], tokens, finish⟩

/-- A stream that ends one column past its last token. -/
def ofTokenList (tokens : List PlacedToken) : TokenStream :=
  ofTokens tokens ((tokens.getLast?.map fun t => t.position.next).getD .start)

def tokens (s : TokenStream) : List PlacedToken := s.behind.reverse ++ s.ahead

def peek? (s : TokenStream) : Option PlacedToken := s.ahead.head?

/-- The stream behind its next token; at the end it stays where it is. -/
def advance (s : TokenStream) : TokenStream :=
  match s.ahead with
  | [] => s
  | t :: rest => { s with behind := t :: s.behind, ahead := rest }

def reset (s : TokenStream) : TokenStream := { s with behind := [], ahead := s.tokens }

def isExhausted (s : TokenStream) : Bool := s.ahead.isEmpty

/-- The position of the next token, or of the end of input. -/
def position (s : TokenStream) : Position :=
  match s.ahead with
  | [] => s.finish
  | t :: _ => t.position

@[simp] theorem tokens_reset (s : TokenStream) : s.reset.tokens = s.tokens := by
  simp [reset, tokens]

@[simp] theorem tokens_advance (s : TokenStream) : s.advance.tokens = s.tokens := by
  obtain ⟨behind, ahead, finish⟩ := s
  cases ahead <;> simp [advance, tokens]

end TokenStream
end OctetMachine
