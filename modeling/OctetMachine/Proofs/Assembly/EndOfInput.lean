import Mathlib
import OctetMachine.Proofs.Assembly.FirstError
import OctetMachine.Proofs.Token.Joining

/-! Where the end of input is reported. It is the end of the text, which is also the end of the last
token exactly when no gap follows that token. -/
namespace OctetMachine

theorem Text.utf8Length_eq_zero_iff {text : List Char} : utf8Length text = 0 ↔ text = [] := by
  cases text with
  | nil => simp
  | cons c text =>
    have positive := c.utf8Size_pos
    simp only [utf8Length_cons, reduceCtorEq, iff_false]
    omega

/-- Blanks and comments are the pieces without a token. -/
theorem Piece.token?_eq_none_iff {p : Piece} :
    p.token? = none ↔ p.kind = .blank ∨ p.kind = .comment := by
  obtain ⟨kind, first, others, opens, inside⟩ := p
  cases kind with
  | mark =>
    obtain ⟨m, rfl⟩ := PieceKind.mark_opens_iff.mp opens
    have listed : m ∈ Mark.all := by cases m <;> decide
    simpa [token?, Mark.ofChar?] using ⟨m, listed, rfl⟩
  | _ => simp [token?]

namespace Division

theorem text_eq_nil_iff {d : Division} : text d = [] ↔ d = [] := by
  cases d with
  | nil => simp
  | cons p d => simp [Piece.text]

/-- A text with tokens has a last lexeme, with a gap behind it. -/
theorem exists_last_lexeme {d : Division} {offset : Nat} (lexemes : d.tokens offset ≠ []) :
    ∃ (front : Division) (last : Piece) (gap : Division) (token : Token),
      d = front ++ last :: gap ∧ last.token? = some token ∧ ∀ p ∈ gap, p.token? = none := by
  induction d generalizing offset with
  | nil => exact absurd rfl lexemes
  | cons p d ih =>
    by_cases more : tokens (offset + Text.utf8Length p.text) d = []
    · cases read : p.token? with
      | none => exact absurd (by rw [tokens, read, more]; rfl) lexemes
      | some token =>
        refine ⟨[], p, d, token, rfl, read, fun q member => ?_⟩
        by_contra lexeme
        obtain ⟨other, read⟩ := Option.ne_none_iff_exists'.mp lexeme
        obtain ⟨before, after, rfl⟩ := List.append_of_mem member
        rw [tokens_append, tokens, read] at more
        simp at more
    · obtain ⟨front, last, gap, token, rfl, read, others⟩ := ih more
      exact ⟨p :: front, last, gap, token, rfl, read, others⟩

/-- The places behind the last lexeme and behind the whole text are one if nothing lies between. -/
theorem behind_text_eq_iff (front gap : Division) :
    Position.behind (text (front ++ gap)) = .behind front.text ↔ gap = [] := by
  constructor
  · intro same
    have sizes := congrArg Position.offset same
    simp only [Position.behind, text_append, Text.utf8Length_append] at sizes
    rw [← text_eq_nil_iff, ← Text.utf8Length_eq_zero_iff]
    omega
  · rintro rfl
    rw [List.append_nil]

end Division

namespace TokenStream

theorem finish_of_ofSource {source : String} {s : TokenStream} (read : ofSource source = .ok s) :
    s.finish = .behind source.toList := by
  obtain ⟨d, cut, maximal, range⟩ := exists_division read
  rw [ofSource_of_division cut maximal range] at read
  cases read
  simpa [ofTokens] using LineIndex.position_ofText source.toList []

/-- The last token of a text is read from the last lexeme, which stands behind the pieces before. -/
theorem getLast?_tokens_of_ofSource {source : String} {s : TokenStream} {front gap : Division}
    {last : Piece} {token : Token} (read : ofSource source = .ok s)
    (cut : source.toList = Division.text (front ++ last :: gap))
    (maximal : Division.Maximal [] (front ++ last :: gap))
    (range : ∀ p ∈ front ++ last :: gap, p.InRange) (lexeme : last.token? = some token)
    (blank : ∀ p ∈ gap, p.token? = none) :
    s.tokens.getLast? = some ⟨token, .behind front.text⟩ := by
  rw [ofSource_of_division cut maximal range] at read
  cases read
  have ending : Division.tokens 0 (front ++ last :: gap) =
      front.tokens 0 ++ [(Text.utf8Length front.text, token)] := by
    rw [Division.tokens_append, Division.tokens, lexeme, Division.tokens_eq_nil blank]
    simp
  have place := LineIndex.position_ofText front.text (Division.text (last :: gap))
  rw [← Division.text_append, ← cut] at place
  simp [tokens, ofTokens, ending, place]

end TokenStream

theorem Instruction.position_of_atEnd {source : String} {s : TokenStream} {e : SourceError}
    (read : TokenStream.ofSource source = .ok s) (failed : ofSource source = .error e)
    (atEnd : e.AtEnd) : e.position = s.finish := by
  simp only [ofSource, read] at failed
  split at failed
  · rename_i misread
    cases failed
    obtain ⟨_, _, _, ⟨_, _, place⟩ | ⟨other, _⟩⟩ := Parser.taken_of_statement misread
    · exact place
    · exact absurd atEnd other
  · rename_i ended
    obtain ⟨none, rfl⟩ := Parser.statement_eq_ok_none_iff.mp ended
    cases failed
    simp [TokenStream.position, none]
  · split at failed <;> cases failed <;> simp [SourceError.atEnd_iff] at atEnd

/-- Where a text with tokens fails because the input ended, as a program or as one instruction, the
end of the text is reported. That is the place just past the last token if nothing follows the
token, and only then. -/
theorem Assembly.end_of_input_is_end_of_text {source : String} {s : TokenStream} {e : SourceError}
    (read : TokenStream.ofSource source = .ok s) (lexemes : s.tokens ≠ [])
    (failed : ofSource source = .error e ∨ Instruction.ofSource source = .error e)
    (atEnd : e.AtEnd) :
    ∃ (front : Division) (last : Piece) (gap : Division) (token : Token),
      source.toList = Division.text (front ++ last :: gap) ∧
      Division.Maximal [] (front ++ last :: gap) ∧
      last.token? = some token ∧ s.tokens.getLast? = some ⟨token, .behind front.text⟩ ∧
      (∀ p ∈ gap, p.kind = .blank ∨ p.kind = .comment) ∧
      e.position = .behind source.toList ∧
      (e.position = .behind (front.text ++ last.text) ↔ gap = []) := by
  have place : e.position = .behind source.toList := by
    rw [← TokenStream.finish_of_ofSource read]
    rcases failed with failed | failed
    · simp only [ofSource, read] at failed
      exact (position_of_error failed).1 atEnd
    · exact Instruction.position_of_atEnd read failed atEnd
  obtain ⟨d, cut, maximal, range⟩ := TokenStream.exists_division read
  have some : d.tokens 0 ≠ [] := by
    rintro none
    rw [TokenStream.ofSource_of_division cut maximal range] at read
    cases read
    simp [none, TokenStream.tokens, TokenStream.ofTokens] at lexemes
  obtain ⟨front, last, gap, token, rfl, lexeme, blank⟩ := Division.exists_last_lexeme some
  have ending : front.text ++ last.text = Division.text (front ++ [last]) := by
    simp [Division.text_append]
  refine ⟨front, last, gap, token, cut, maximal, lexeme,
    TokenStream.getLast?_tokens_of_ofSource read cut maximal range lexeme blank, ?_, place, ?_⟩
  · exact fun p member => Piece.token?_eq_none_iff.mp (blank p member)
  · rw [place, cut, ending, List.append_cons, Division.behind_text_eq_iff]

/-- A comment with a character of two bytes, and a line break, behind the last token. -/
theorem Assembly.end_of_input_is_end_of_text_comment :
    ∃ (s : TokenStream) (e : SourceError),
      TokenStream.ofSource "ADD 1,;é\n" = .ok s ∧ s.tokens ≠ [] ∧
      ofSource "ADD 1,;é\n" = .error e ∧ e.AtEnd ∧ e.position = ⟨2, 1, 10⟩ ∧
      ∃ (front : Division) (last : Piece) (gap : Division),
        Division.text (front ++ last :: gap) = "ADD 1,;é\n".toList ∧
        last.token? = some (.mark .comma) ∧ Position.behind front.text = ⟨1, 6, 5⟩ ∧
        (e.position = .behind (front.text ++ last.text) ↔ gap = []) := by
  have read : TokenStream.ofSource "ADD 1,;é\n" = .ok ⟨[], [⟨.identifier "ADD", ⟨1, 1, 0⟩⟩,
      ⟨.literal (.integer 1), ⟨1, 5, 4⟩⟩, ⟨.mark .comma, ⟨1, 6, 5⟩⟩], ⟨2, 1, 10⟩⟩ := by
    decide +kernel
  have failed : ofSource "ADD 1,;é\n" =
      .error ⟨⟨2, 1, 10⟩, .unexpected .operand .endOfInput⟩ := by
    decide +kernel
  have atEnd : SourceError.AtEnd ⟨⟨2, 1, 10⟩, .unexpected .operand .endOfInput⟩ :=
    SourceError.atEnd_iff.mpr ⟨_, rfl⟩
  obtain ⟨front, last, gap, token, cut, _, lexeme, ending, _, _, past⟩ :=
    end_of_input_is_end_of_text read (by decide) (.inl failed) atEnd
  obtain ⟨rfl, place⟩ := PlacedToken.mk.inj (Option.some.inj ending)
  exact ⟨_, _, read, by decide, failed, atEnd, rfl, front, last, gap, cut.symm, lexeme,
    place.symm, past⟩

/-- The end of input is not reported just past the last token if a line break follows it. -/
theorem Assembly.end_of_input_not_past_last_token :
    ∃ (s : TokenStream) (e : SourceError),
      TokenStream.ofSource "PUSH\n" = .ok s ∧ s.tokens = [⟨.identifier "PUSH", .start⟩] ∧
      ofSource "PUSH\n" = .error e ∧ Instruction.ofSource "PUSH\n" = .error e ∧ e.AtEnd ∧
      e.position = ⟨2, 1, 5⟩ ∧ Position.behind "PUSH".toList = ⟨1, 5, 4⟩ ∧
      e.position ≠ .behind "PUSH".toList := by
  refine ⟨⟨[], [⟨.identifier "PUSH", .start⟩], ⟨2, 1, 5⟩⟩,
    ⟨⟨2, 1, 5⟩, .unexpected .operand .endOfInput⟩, by decide +kernel, rfl, by decide +kernel,
    by decide +kernel, SourceError.atEnd_iff.mpr ⟨_, rfl⟩, rfl, ?_⟩
  decide +kernel

end OctetMachine
