import Mathlib
import OctetMachine.Proofs.Source.Lines
import OctetMachine.Proofs.Token.Reading

/-! Source text divided into pieces. A piece is a blank, a comment, a word, a digit run or a mark,
and no piece could be longer than it is. A text has at most one such division; its tokens are those
pieces that are not gaps, each at its place. Where there is none, the text before the first place at
which no piece can be read has one. -/
namespace OctetMachine

inductive PieceKind where
  | blank | comment | word | number | mark
deriving DecidableEq

namespace PieceKind

/-- The characters that pieces of a kind begin with. -/
def opens : PieceKind → Char → Bool
  | blank, c => c ∈ [' ', '\t', '\r', '\n', '\x0c']
  | comment, c => c = ';'
  | word, c => c.isAlpha
  | number, c => c.isDigit
  | mark, c => c ∈ [',', '[', ']', ':', '(', ')', '+', '-']

/-- The characters that pieces of a kind go on with. -/
def goesOn : PieceKind → Char → Bool
  | blank, _ | mark, _ => false
  | comment, c => c != '\n'
  | word, c => c.isAlphanum || c == '_'
  | number, c => c.isDigit

end PieceKind

/-- A piece of source text. Blanks and comments make up the gaps between the others, the lexemes. -/
@[ext]
structure Piece where
  kind : PieceKind
  first : Char
  others : List Char
  opens : kind.opens first = true
  inside : ∀ c ∈ others, kind.goesOn c = true

namespace Piece

def text (p : Piece) : List Char := p.first :: p.others

/-- The number that a digit run is in decimal. -/
def value (p : Piece) : Nat := Nat.ofDigitChars 10 p.text 0

/-- The token that a lexeme is read as. -/
def token? (p : Piece) : Option Token :=
  match p.kind with
  | .blank | .comment => none
  | .word => some (.identifier (String.ofList p.text))
  | .number => some (.literal (.integer (Int32.ofNat p.value)))
  | .mark => (Mark.ofChar? p.first).map .mark

/-- What follows does not prolong the piece. -/
def EndsBefore (p : Piece) (rest : List Char) : Prop := Lexer.Stops p.kind.goesOn rest

/-- A digit run does not exceed what a literal can hold. -/
def InRange (p : Piece) : Prop := p.kind = .number → p.value ≤ 2147483647

end Piece

/-- Pieces side by side. -/
abbrev Division := List Piece

namespace Division

def text (d : Division) : List Char := d.flatMap Piece.text

/-- The tokens of the lexemes with their places, for pieces that begin at an offset. -/
def tokens (offset : Nat) : Division → List (Nat × Token)
  | [] => []
  | p :: d => p.token?.toList.map (offset, ·) ++ tokens (offset + Text.utf8Length p.text) d

/-- No piece could be longer, in front of what follows them all. -/
def Maximal (rest : List Char) : Division → Prop
  | [] => True
  | p :: d => p.EndsBefore (text d ++ rest) ∧ Maximal rest d

@[simp] theorem text_nil : text [] = [] := rfl

@[simp] theorem text_cons (p : Piece) (d : Division) : text (p :: d) = p.text ++ text d :=
  List.flatMap_cons

end Division

namespace PieceKind

/-- The kind of the pieces that begin with a character, if there are any. -/
def ofChar (c : Char) : PieceKind :=
  if Lexer.isBlank c then blank
  else if c = ';' then comment
  else if c.isAlpha then word
  else if c.isDigit then number
  else mark

theorem blank_opens_iff {c : Char} : blank.opens c = true ↔ Lexer.isBlank c = true := by
  simp [Lexer.isBlank_iff, opens]

theorem comment_opens_iff {c : Char} : comment.opens c = true ↔ c = ';' := by
  simp [opens]

theorem mark_opens_iff {c : Char} : mark.opens c = true ↔ ∃ m : Mark, m.char = c := by
  have chars : [',', '[', ']', ':', '(', ')', '+', '-'] = Mark.all.map Mark.char := rfl
  have listed : ∀ m : Mark, m ∈ Mark.all := by intro m; cases m <;> decide
  rw [opens, decide_eq_true_iff, chars, List.mem_map]
  simp [listed]

/-- Pieces of different kinds begin differently. -/
theorem ofChar_of_opens {kind : PieceKind} {c : Char} (opens : kind.opens c = true) :
    ofChar c = kind := by
  unfold ofChar
  cases kind with
  | blank => rw [if_pos (blank_opens_iff.mp opens)]
  | comment =>
    rw [comment_opens_iff.mp opens]
    decide
  | word =>
    have letter : c.isAlpha = true := opens
    obtain ⟨noBlank, noComment⟩ := Lexer.separate_of_alphanum (.inl letter)
    rw [if_neg noBlank, if_neg noComment, if_pos letter]
  | number =>
    have digit : c.isDigit = true := opens
    obtain ⟨noBlank, noComment⟩ := Lexer.separate_of_alphanum (.inr digit)
    have noLetter : ¬ c.isAlpha = true := by simp [Lexer.isAlpha_eq_false_of_isDigit digit]
    rw [if_neg noBlank, if_neg noComment, if_neg noLetter, if_pos digit]
  | mark =>
    obtain ⟨m, rfl⟩ := mark_opens_iff.mp opens
    cases m <;> decide

end PieceKind

namespace Piece

/-- Of the pieces that begin a text, only one ends where it must. -/
theorem eq_of_append {p q : Piece} {a b : List Char} (first : p.EndsBefore a)
    (second : q.EndsBefore b) (same : p.text ++ a = q.text ++ b) : p = q ∧ a = b := by
  obtain ⟨head, tail⟩ := List.cons.inj same
  have kinds : p.kind = q.kind := by
    rw [← PieceKind.ofChar_of_opens p.opens, ← PieceKind.ofChar_of_opens q.opens]
    exact congrArg PieceKind.ofChar head
  unfold EndsBefore at second
  have inside := q.inside
  rw [← kinds] at second inside
  have here := Lexer.run_of_stops p.inside first
  have there := Lexer.run_of_stops inside second
  change p.others ++ a = q.others ++ b at tail
  rw [tail] at here
  refine ⟨Piece.ext kinds head (here.1.symm.trans there.1), here.2.symm.trans there.2⟩

/-- A character that opens some piece opens one that is as long as it can be. -/
theorem exists_of_opens {kind : PieceKind} {c : Char} (opens : kind.opens c = true)
    (text : List Char) :
    ∃ (p : Piece) (rest : List Char), c :: text = p.text ++ rest ∧ p.EndsBefore rest := by
  refine ⟨⟨kind, c, text.takeWhile kind.goesOn, opens, ?_⟩, text.dropWhile kind.goesOn, ?_, ?_⟩
  · intro d member
    exact List.mem_takeWhile_imp member
  · rw [Piece.text, List.cons_append, List.takeWhile_append_dropWhile]
  · intro d first
    have stopped := List.head?_dropWhile_not kind.goesOn text
    rw [first] at stopped
    simpa using stopped

theorem others_eq_nil {p : Piece} (alone : ∀ c, p.kind.goesOn c = false) : p.others = [] := by
  refine List.eq_nil_iff_forall_not_mem.mpr fun c member => ?_
  simpa [alone c] using p.inside c member

/-- One turn of the lexer's loop reads one piece. -/
theorem scan_text {p : Piece} {rest : List Char} (ends : p.EndsBefore rest) (range : p.InRange)
    (offset : Nat) :
    Lexer.scan offset (p.text ++ rest) =
      (Lexer.scan (offset + Text.utf8Length p.text) rest).map
        (p.token?.toList.map (offset, ·) ++ ·) := by
  obtain ⟨kind, first, others, opens, inside⟩ := p
  obtain ⟨taken, left⟩ := Lexer.run_of_stops inside ends
  have kept : ∀ x : Except (Nat × LexCause) (List (Nat × Token)), x = x.map ([] ++ ·) := by
    intro x
    cases x <;> rfl
  rw [text, List.cons_append]
  cases kind with
  | blank =>
    cases others_eq_nil (p := ⟨.blank, first, others, opens, inside⟩) fun _ => rfl
    rw [List.nil_append, Lexer.scan_blank (PieceKind.blank_opens_iff.mp opens)]
    exact kept _
  | comment =>
    cases PieceKind.comment_opens_iff.mp opens
    have read := Lexer.scan_comment offset (others ++ rest)
    rw [show Lexer.inComment = PieceKind.comment.goesOn from rfl, taken, left] at read
    rw [read]
    exact kept _
  | word =>
    have read := Lexer.scan_word opens offset (others ++ rest)
    rw [show Lexer.isWordRest = PieceKind.word.goesOn from rfl, taken, left] at read
    exact read
  | number =>
    have read := Lexer.scan_digits opens offset (others ++ rest)
    rw [show Char.isDigit = PieceKind.number.goesOn from rfl, taken, left] at read
    rw [read]
    exact if_pos (range rfl)
  | mark =>
    cases others_eq_nil (p := ⟨.mark, first, others, opens, inside⟩) fun _ => rfl
    obtain ⟨m, rfl⟩ := PieceKind.mark_opens_iff.mp opens
    rw [List.nil_append, Lexer.scan_mark]
    cases m <;> rfl

theorem InRange.token?_eq {p : Piece} (range : p.InRange) (number : p.kind = .number) :
    ∃ l : Literal, p.token? = some (.literal l) ∧ l.value = p.value := by
  refine ⟨_, ?_, Literal.value_integer (range number)⟩
  unfold token?
  rw [number]

theorem scan_of_large {p : Piece} {rest : List Char} (ends : p.EndsBefore rest)
    (number : p.kind = .number) (large : 2147483647 < p.value)
    (offset : Nat) :
    Lexer.scan offset (p.text ++ rest) =
      .error (offset, .integerOutOfRange (String.ofList p.text)) := by
  obtain ⟨kind, first, others, opens, inside⟩ := p
  cases number
  obtain ⟨taken, left⟩ := Lexer.run_of_stops inside ends
  have read := Lexer.scan_digits opens offset (others ++ rest)
  rw [show Char.isDigit = PieceKind.number.goesOn from rfl, taken, left] at read
  rw [text, List.cons_append, read]
  exact if_neg (Nat.not_le.mpr large)

end Piece

namespace Division

/-- The lexer reads pieces one after the other, and then what follows them. -/
theorem scan_text {d : Division} {rest : List Char} (maximal : d.Maximal rest)
    (range : ∀ p ∈ d, p.InRange) (offset : Nat) :
    Lexer.scan offset (d.text ++ rest) =
      (Lexer.scan (offset + Text.utf8Length d.text) rest).map (d.tokens offset ++ ·) := by
  induction d generalizing offset with
  | nil =>
    simp only [text_nil, List.nil_append, Text.utf8Length_nil, Nat.add_zero]
    cases Lexer.scan offset rest <;> rfl
  | cons p d ih =>
    obtain ⟨ends, maximal⟩ := maximal
    rw [text_cons, List.append_assoc, Piece.scan_text ends (range p List.mem_cons_self),
      ih maximal fun q member => range q (List.mem_cons_of_mem p member),
      Text.utf8Length_append, Nat.add_assoc]
    cases Lexer.scan (offset + (Text.utf8Length p.text + Text.utf8Length (text d))) rest with
    | error e => rfl
    | ok tokens => exact congrArg Except.ok (List.append_assoc _ _ tokens).symm

theorem scan_eq_ok {d : Division} (maximal : d.Maximal []) (range : ∀ p ∈ d, p.InRange)
    (offset : Nat) : Lexer.scan offset d.text = .ok (d.tokens offset) := by
  have read := scan_text maximal range offset
  rw [List.append_nil, Lexer.scan] at read
  simpa [Except.map] using read

/-- What ends their pieces leaves divisions as they are. -/
theorem Maximal.change_of_mem {d : Division} {rest other : List Char} (maximal : d.Maximal rest)
    (ends : ∀ p ∈ d, p.EndsBefore other) : d.Maximal other := by
  induction d with
  | nil => trivial
  | cons p d ih =>
    obtain ⟨before, maximal⟩ := maximal
    obtain ⟨here, others⟩ := List.forall_mem_cons.mp ends
    refine ⟨?_, ih maximal others⟩
    cases d with
    | nil => exact here
    | cons q d => exact before

theorem Maximal.change {d : Division} {rest other : List Char} (maximal : d.Maximal rest)
    (ends : ∀ p : Piece, p.EndsBefore other) : d.Maximal other :=
  maximal.change_of_mem fun p _ => ends p

/-- A text is divided in at most one way. -/
theorem eq_of_text_eq {d e : Division} (first : d.Maximal []) (second : e.Maximal [])
    (same : d.text = e.text) : d = e := by
  induction d generalizing e with
  | nil =>
    cases e with
    | nil => rfl
    | cons q e => cases same
  | cons p d ih =>
    cases e with
    | nil => cases same
    | cons q e =>
      simp only [Maximal, List.append_nil] at first second
      rw [text_cons, text_cons] at same
      obtain ⟨rfl, rest⟩ := Piece.eq_of_append first.1 second.1 same
      rw [ih first.2 second.2 rest]

end Division

/-- Why no piece can be read at the start of a text that is not at its end. -/
inductive Lexer.Blocked : List Char → LexCause → Prop where
  | character {c : Char} (strange : ∀ p : Piece, p.first ≠ c) (rest : List Char) :
    Blocked (c :: rest) (.unexpectedCharacter c)
  | digits {p : Piece} {rest : List Char} (ends : p.EndsBefore rest) (large : ¬ p.InRange) :
    Blocked (p.text ++ rest) (.integerOutOfRange (String.ofList p.text))

namespace Lexer

theorem scan_of_strange {c : Char} (strange : ∀ p : Piece, p.first ≠ c) (offset : Nat)
    (rest : List Char) : scan offset (c :: rest) = .error (offset, .unexpectedCharacter c) := by
  have never : ∀ kind : PieceKind, ¬ kind.opens c = true := by
    intro kind opens
    exact strange ⟨kind, c, [], opens, by simp⟩ rfl
  have noLetter : ¬ c.isAlpha = true := never .word
  have noDigit : ¬ c.isDigit = true := never .number
  have noMark : Mark.ofChar? c = none := by
    refine List.find?_eq_none.mpr fun m _ same => never .mark ?_
    exact PieceKind.mark_opens_iff.mpr ⟨m, eq_of_beq same⟩
  rw [scan, if_neg (mt PieceKind.blank_opens_iff.mpr (never .blank)),
    if_neg (mt PieceKind.comment_opens_iff.mpr (never .comment)), if_neg noLetter, if_neg noDigit,
    noMark]

theorem Blocked.scan_eq_error {text : List Char} {cause : LexCause} (blocked : Blocked text cause)
    (offset : Nat) : scan offset text = .error (offset, cause) := by
  cases blocked with
  | character strange rest => exact scan_of_strange strange offset rest
  | digits ends large =>
    obtain ⟨number, large⟩ := Classical.not_imp.mp large
    exact Piece.scan_of_large ends number (Nat.not_le.mp large) offset

theorem Blocked.unexpectedCharacter_iff {text : List Char} {cause : LexCause}
    (blocked : Blocked text cause) {c : Char} :
    cause = .unexpectedCharacter c ↔ text.head? = some c ∧ ∀ p : Piece, p.first ≠ c := by
  cases blocked with
  | character strange rest =>
    constructor
    · rintro ⟨⟩
      exact ⟨rfl, strange⟩
    · rintro ⟨⟨⟩, _⟩
      rfl
  | @digits p rest ends large =>
    constructor
    · rintro ⟨⟩
    · rintro ⟨⟨⟩, strange⟩
      exact absurd rfl (strange p)

theorem Blocked.integerOutOfRange_iff {text : List Char} {cause : LexCause}
    (blocked : Blocked text cause) {digits : String} :
    cause = .integerOutOfRange digits ↔ ∃ (p : Piece) (rest : List Char),
      text = p.text ++ rest ∧ p.EndsBefore rest ∧ ¬ p.InRange ∧ digits = String.ofList p.text := by
  cases blocked with
  | character strange rest =>
    constructor
    · rintro ⟨⟩
    · rintro ⟨p, _, same, _⟩
      exact absurd (List.cons.inj same).1.symm (strange p)
  | @digits p rest ends large =>
    constructor
    · rintro ⟨⟩
      exact ⟨p, rest, rfl, ends, large, rfl⟩
    · rintro ⟨q, _, same, others, _, rfl⟩
      rw [(Piece.eq_of_append ends others same).1]

end Lexer

/-- Every text is divided up to its end or up to where no piece can be read. -/
theorem Division.exists_append (source : List Char) : ∃ (d : Division) (rest : List Char),
    source = d.text ++ rest ∧ d.Maximal rest ∧ (∀ p ∈ d, p.InRange) ∧
      (rest = [] ∨ ∃ cause, Lexer.Blocked rest cause) := by
  cases source with
  | nil => exact ⟨[], [], rfl, trivial, by simp, .inl rfl⟩
  | cons c source =>
    by_cases strange : ∀ p : Piece, p.first ≠ c
    · exact ⟨[], _, rfl, trivial, by simp, .inr ⟨_, .character strange source⟩⟩
    · obtain ⟨p, rfl⟩ : ∃ p : Piece, p.first = c := by simpa using strange
      obtain ⟨q, after, cut, ends⟩ := Piece.exists_of_opens p.opens source
      -- What is left behind a piece is shorter, so it is divided in turn.
      by_cases range : q.InRange
      · have shorter : after.length ≤ source.length := by
          have lengths := congrArg List.length cut
          simp only [Piece.text, List.cons_append, List.length_cons, List.length_append] at lengths
          omega
        obtain ⟨d, rest, rfl, maximal, ranges, stuck⟩ := Division.exists_append after
        refine ⟨q :: d, rest, ?_, ⟨ends, maximal⟩, ?_, stuck⟩
        · rw [cut, text_cons, List.append_assoc]
        · exact List.forall_mem_cons.mpr ⟨range, ranges⟩
      · exact ⟨[], _, cut, trivial, by simp, .inr ⟨_, .digits ends range⟩⟩
termination_by source.length
decreasing_by exact Nat.lt_succ_of_le shorter

namespace TokenStream

/-- A text that is divided to its end has the tokens of its division. -/
theorem ofSource_of_division {source : String} {d : Division} (cut : source.toList = d.text)
    (maximal : d.Maximal []) (range : ∀ p ∈ d, p.InRange) :
    let index := LineIndex.ofText source.toList
    ofSource source = .ok (.ofTokens ((d.tokens 0).map fun t => ⟨t.2, index.position t.1⟩)
      (index.position (Text.utf8Length source.toList))) := by
  have read := Division.scan_eq_ok maximal range 0
  rw [← cut] at read
  simp only [ofSource, read]

/-- A text that is divided up to where no piece can be read is refused there. -/
theorem ofSource_of_blocked {source : String} {d : Division} {rest : List Char} {cause : LexCause}
    (cut : source.toList = d.text ++ rest) (maximal : d.Maximal rest) (range : ∀ p ∈ d, p.InRange)
    (blocked : Lexer.Blocked rest cause) :
    ofSource source = .error
      ⟨(LineIndex.ofText source.toList).position (Text.utf8Length d.text), cause⟩ := by
  have read := Division.scan_text maximal range 0
  rw [blocked.scan_eq_error, ← cut, Nat.zero_add] at read
  simp only [ofSource, read]
  rfl

/-- Lexing is maximal munch. A text that has tokens is divided in exactly one way into pieces that
cannot be longer, and its tokens are those of the pieces, at their offsets. A text that has none is
divided in front of the reported place, and what is reported is why no piece can be read there. -/
theorem ofSource_maximalMunch (source : String) :
    (∀ s, ofSource source = .ok s → ∃ d : Division,
      d.text = source.toList ∧ d.Maximal [] ∧
      (∀ other : Division, other.text = source.toList → other.Maximal [] → other = d) ∧
      s.tokens.map (fun t => (t.position.offset, t.token)) = d.tokens 0 ∧
      ∀ p ∈ d, p.kind = .number → p.value ≤ 2147483647 ∧
        ∃ l : Literal, p.token? = some (.literal l) ∧ l.value = p.value) ∧
    (∀ e, ofSource source = .error e → ∃ (d : Division) (after : List Char),
      source.toList = d.text ++ after ∧ d.Maximal after ∧
      Text.utf8Length d.text = e.position.offset ∧
      (∃ s, ofSource (String.ofList d.text) = .ok s) ∧
      (∀ c, e.cause = .unexpectedCharacter c ↔
        after.head? = some c ∧ ∀ p : Piece, p.first ≠ c) ∧
      (∀ digits, e.cause = .integerOutOfRange digits ↔ ∃ (p : Piece) (rest : List Char),
        after = p.text ++ rest ∧ p.EndsBefore rest ∧ p.kind = .number ∧ 2147483647 < p.value ∧
          digits = String.ofList p.text)) := by
  obtain ⟨d, after, cut, maximal, range, rfl | ⟨cause, blocked⟩⟩ :=
    Division.exists_append source.toList
  · rw [List.append_nil] at cut
    rw [ofSource_of_division cut maximal range]
    refine ⟨?_, by rintro e ⟨⟩⟩
    rintro s ⟨⟩
    refine ⟨d, cut.symm, maximal, ?_, ?_, ?_⟩
    · intro other same longest
      exact Division.eq_of_text_eq longest maximal (same.trans cut)
    · simp [tokens, ofTokens, Function.comp_def]
    · intro p member number
      exact ⟨range p member number, (range p member).token?_eq number⟩
  · rw [ofSource_of_blocked cut maximal range blocked]
    refine ⟨by rintro s ⟨⟩, ?_⟩
    rintro e ⟨⟩
    have ended : d.Maximal [] := maximal.change fun p => by simp [Piece.EndsBefore, Lexer.Stops]
    refine ⟨d, after, cut, maximal, (LineIndex.offset_position _ _).symm,
      ⟨_, ofSource_of_division String.toList_ofList ended range⟩, ?_, ?_⟩
    · intro c
      exact blocked.unexpectedCharacter_iff
    · intro digits
      simp only [blocked.integerOutOfRange_iff, Piece.InRange, Classical.not_imp, Nat.not_le,
        and_assoc]

/-- Digits directly before a word, and a lone underscore behind a comment. -/
theorem ofSource_maximalMunch_adjacent :
    (∃ (s : TokenStream) (d : Division), ofSource "0x10;é\n007" = .ok s ∧
      d.text = "0x10;é\n007".toList ∧ d.Maximal [] ∧
      d.tokens 0 = [(0, .literal (.integer 0)), (1, .identifier "x10"),
        (8, .literal (.integer 7))]) ∧
    (∃ (e : LexError) (d : Division) (after : List Char), ofSource ";é\n5_" = .error e ∧
      ";é\n5_".toList = d.text ++ after ∧ Text.utf8Length d.text = 5 ∧
      after.head? = some '_' ∧ ∀ p : Piece, p.first ≠ '_') ∧
    (∃ (e : LexError) (p : Piece), ofSource "A 02147483648" = .error e ∧
      e.position.offset = 2 ∧ p.kind = .number ∧ p.text = "02147483648".toList ∧
      2147483647 < p.value) := by
  refine ⟨?_, ?_, ?_⟩
  · have read : ofSource "0x10;é\n007" = .ok ⟨[], [⟨.literal (.integer 0), ⟨1, 1, 0⟩⟩,
        ⟨.identifier "x10", ⟨1, 2, 1⟩⟩, ⟨.literal (.integer 7), ⟨2, 1, 8⟩⟩], ⟨2, 4, 11⟩⟩ := by
      decide +kernel
    obtain ⟨d, text, maximal, _, same, _⟩ := (ofSource_maximalMunch _).1 _ read
    exact ⟨_, d, read, text, maximal, same.symm⟩
  · have read : ofSource ";é\n5_" = .error ⟨⟨2, 2, 5⟩, .unexpectedCharacter '_'⟩ := by
      decide +kernel
    obtain ⟨d, after, cut, _, place, _, character, _⟩ := (ofSource_maximalMunch _).2 _ read
    exact ⟨_, d, after, read, cut, place, (character '_').mp rfl⟩
  · have read : ofSource "A 02147483648" =
        .error ⟨⟨1, 3, 2⟩, .integerOutOfRange "02147483648"⟩ := by
      decide +kernel
    obtain ⟨d, after, cut, _, place, _, _, digits⟩ := (ofSource_maximalMunch _).2 _ read
    obtain ⟨p, _, _, _, number, large, same⟩ := (digits _).mp rfl
    exact ⟨_, p, read, rfl, number, String.toList_ofList.symm.trans
      (congrArg String.toList same).symm, large⟩

end TokenStream
end OctetMachine
