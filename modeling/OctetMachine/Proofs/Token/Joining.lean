import Mathlib
import OctetMachine.Proofs.Token.Division

/-! Tokens of texts joined by a line break. The break ends every piece of the first text, a comment
too, so the joined text has the tokens of both. -/
namespace OctetMachine

namespace Division

theorem text_append (d e : Division) : text (d ++ e) = d.text ++ e.text := List.flatMap_append

theorem tokens_append (offset : Nat) (d e : Division) :
    tokens offset (d ++ e) = d.tokens offset ++ e.tokens (offset + Text.utf8Length d.text) := by
  induction d generalizing offset with
  | nil => rfl
  | cons p d ih =>
    simp only [List.cons_append, tokens, text_cons, Text.utf8Length_append, List.append_assoc,
      ih, Nat.add_assoc]

theorem tokens_add (offset shift : Nat) (d : Division) :
    tokens (offset + shift) d = (d.tokens offset).map fun t => (t.1 + shift, t.2) := by
  induction d generalizing offset with
  | nil => rfl
  | cons p d ih =>
    simp only [tokens, List.map_append, List.map_map, ← ih, Nat.add_right_comm offset shift]
    rfl

theorem tokens_eq_nil {d : Division} (gap : ∀ p ∈ d, p.token? = none) (offset : Nat) :
    d.tokens offset = [] := by
  induction d generalizing offset with
  | nil => rfl
  | cons p d ih =>
    obtain ⟨first, others⟩ := List.forall_mem_cons.mp gap
    rw [tokens, first, ih others]
    rfl

theorem Maximal.append {d e : Division} {rest : List Char} (first : d.Maximal (e.text ++ rest))
    (last : e.Maximal rest) : Maximal rest (d ++ e) := by
  induction d with
  | nil => exact last
  | cons p d ih =>
    refine ⟨?_, ih first.2⟩
    change p.EndsBefore (text (d ++ e) ++ rest)
    rw [text_append, List.append_assoc]
    exact first.1

/-- A token stands between two parts of the text. -/
theorem exists_of_mem_tokens {offset : Nat} {d : Division} {t : Nat × Token}
    (member : t ∈ d.tokens offset) : ∃ before after : List Char,
      d.text = before ++ after ∧ t.1 = offset + Text.utf8Length before := by
  induction d generalizing offset with
  | nil => cases member
  | cons p d ih =>
    rcases List.mem_append.mp member with here | later
    · obtain ⟨token, _, rfl⟩ := List.mem_map.mp here
      exact ⟨[], _, rfl, rfl⟩
    · obtain ⟨before, after, cut, place⟩ := ih later
      refine ⟨p.text ++ before, after, ?_, ?_⟩
      · rw [text_cons, cut, List.append_assoc]
      · rw [place, Text.utf8Length_append, Nat.add_assoc]

end Division

/-- The piece that a line break is. -/
def Piece.lineBreak : Piece := ⟨.blank, '\n', [], by decide, by simp⟩

theorem Piece.endsBefore_lineBreak (p : Piece) (rest : List Char) :
    p.EndsBefore ('\n' :: rest) := by
  refine Lexer.stops_cons ?_ rest
  cases p.kind <;> rfl

namespace Division

/-- Two divisions with a line break between them. -/
def join (d e : Division) : Division := d ++ Piece.lineBreak :: e

theorem text_join (d e : Division) : (join d e).text = d.text ++ '\n' :: e.text := by
  rw [join, text_append, text_cons]
  rfl

theorem tokens_join (d e : Division) :
    (join d e).tokens 0 = d.tokens 0 ++
      (e.tokens 0).map fun t => (t.1 + (Text.utf8Length d.text + 1), t.2) := by
  rw [join, tokens_append, ← tokens_add, Nat.zero_add, Nat.zero_add]
  rfl

theorem Maximal.join {d e : Division} {rest : List Char} (first : d.Maximal [])
    (last : e.Maximal rest) : (join d e).Maximal rest := by
  refine Maximal.append ?_ ⟨fun _ _ => rfl, last⟩
  exact first.change fun p => p.endsBefore_lineBreak _

theorem inRange_join {d e : Division} (first : ∀ p ∈ d, p.InRange) (last : ∀ p ∈ e, p.InRange) :
    ∀ p ∈ join d e, p.InRange :=
  List.forall_mem_append.mpr ⟨first, List.forall_mem_cons.mpr ⟨by rintro ⟨⟩, last⟩⟩

end Division

/-- The same token elsewhere. -/
def PlacedToken.moved (move : Position → Position) (t : PlacedToken) : PlacedToken :=
  ⟨t.token, move t.position⟩

namespace TokenStream

theorem exists_division {source : String} {s : TokenStream} (read : ofSource source = .ok s) :
    ∃ d : Division, source.toList = d.text ∧ d.Maximal [] ∧ ∀ p ∈ d, p.InRange := by
  obtain ⟨d, after, cut, maximal, range, rfl | ⟨cause, blocked⟩⟩ :=
    Division.exists_append source.toList
  · exact ⟨d, cut.trans (List.append_nil _), maximal, range⟩
  · rw [ofSource_of_blocked cut maximal range blocked] at read
    cases read

theorem reset_of_ofSource {source : String} {s : TokenStream}
    (read : ofSource source = .ok s) : s.reset = s := by
  obtain ⟨d, cut, maximal, range⟩ := exists_division read
  rw [ofSource_of_division cut maximal range] at read
  cases read
  rfl

/-- The tokens of the first text stay where they are, and those of the second are shifted. -/
theorem ofSource_append_lineBreak {a b : String} {s t : TokenStream} (first : ofSource a = .ok s)
    (second : ofSource b = .ok t) : ∃ u, ofSource (a ++ "\n" ++ b) = .ok u ∧
      u.tokens = s.tokens ++ t.tokens.map (PlacedToken.moved (Position.shift a.toList)) := by
  obtain ⟨d, cutA, maximalA, rangeA⟩ := exists_division first
  obtain ⟨e, cutB, maximalB, rangeB⟩ := exists_division second
  have cut : (a ++ "\n" ++ b).toList = (Division.join d e).text := by
    simp [Division.text_join, cutA, cutB]
  refine ⟨_, ofSource_of_division cut (maximalA.join maximalB)
    (Division.inRange_join rangeA rangeB), ?_⟩
  rw [ofSource_of_division cutA maximalA rangeA] at first
  rw [ofSource_of_division cutB maximalB rangeB] at second
  cases first
  cases second
  simp only [tokens, ofTokens, List.reverse_nil, List.nil_append, Division.tokens_join,
    List.map_append, List.map_map, cut, cutA, cutB, Division.text_join]
  congr 1
  · refine List.map_congr_left fun t member => ?_
    obtain ⟨before, after, split, place⟩ := Division.exists_of_mem_tokens member
    rw [split, place, Nat.zero_add, LineIndex.position_append]
  · refine List.map_congr_left fun t member => ?_
    obtain ⟨before, after, split, place⟩ := Division.exists_of_mem_tokens member
    simp only [Function.comp_apply, PlacedToken.moved]
    rw [split, place, Nat.zero_add, LineIndex.position_append_break]

end TokenStream
end OctetMachine
