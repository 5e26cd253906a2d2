import Mathlib
import OctetMachine.Proofs.Token.Joining

/-! Tokens of a text, line by line. A text is read as its lines are, one after another: every token
keeps its column, and the first line that cannot be read is the one that the whole text is refused
for. Blanks and a comment at the end of a line change neither. -/
namespace OctetMachine

/-- What follows some text does not prolong the piece at its end. -/
theorem Piece.EndsBefore.append {p : Piece} {rest : List Char} (ends : p.EndsBefore rest)
    (more : rest ≠ []) (other : List Char) : p.EndsBefore (rest ++ other) := by
  obtain ⟨c, rest, rfl⟩ := List.exists_cons_of_ne_nil more
  exact Lexer.stops_cons (ends c rfl) _

theorem Division.Maximal.prolong {d : Division} {rest : List Char} (maximal : d.Maximal rest)
    (more : rest ≠ []) (other : List Char) : d.Maximal (rest ++ other) := by
  induction d with
  | nil => trivial
  | cons p d ih =>
    refine ⟨?_, ih maximal.2⟩
    rw [← List.append_assoc]
    exact maximal.1.append (by simp [more]) other

namespace Lexer

theorem Blocked.ne_nil {rest : List Char} {cause : LexCause} (blocked : Blocked rest cause) :
    rest ≠ [] := by
  cases blocked <;> simp [Piece.text]

/-- Where no piece can be read none can with more text behind, as long as no digit run grows. -/
theorem Blocked.append {rest other : List Char} {cause : LexCause} (blocked : Blocked rest cause)
    (stops : Stops Char.isDigit other) : Blocked (rest ++ other) cause := by
  cases blocked with
  | character strange rest => exact .character strange _
  | @digits p rest ends large =>
    have number : p.kind = .number := (Classical.not_imp.mp large).1
    rw [List.append_assoc]
    refine .digits ?_ large
    cases rest with
    | nil =>
      unfold Piece.EndsBefore
      rw [number]
      exact stops
    | cons c rest => exact ends.append (by simp) other

end Lexer

namespace TokenStream

/-- A text is refused where its pieces end, for the cause that stops them. -/
theorem ofSource_eq_error_iff {source : String} {e : LexError} : ofSource source = .error e ↔
    ∃ (d : Division) (rest : List Char), source.toList = d.text ++ rest ∧ d.Maximal rest ∧
      (∀ p ∈ d, p.InRange) ∧ Lexer.Blocked rest e.cause ∧ e.position = .behind d.text := by
  constructor
  · intro failed
    obtain ⟨d, rest, cut, maximal, range, rfl | ⟨cause, blocked⟩⟩ :=
      Division.exists_append source.toList
    · rw [ofSource_of_division (cut.trans (List.append_nil _)) maximal range] at failed
      cases failed
    · rw [ofSource_of_blocked cut maximal range blocked, cut, LineIndex.position_ofText] at failed
      cases failed
      exact ⟨d, rest, cut, maximal, range, blocked, rfl⟩
  · rintro ⟨d, rest, cut, maximal, range, blocked, place⟩
    rw [ofSource_of_blocked cut maximal range blocked, cut, LineIndex.position_ofText, ← place]

/-- What comes later does not undo an error. -/
theorem ofSource_append_of_error {a more : String} {e : LexError} (failed : ofSource a = .error e)
    (stops : Lexer.Stops Char.isDigit more.toList) : ofSource (a ++ more) = .error e := by
  obtain ⟨d, rest, cut, maximal, range, blocked, place⟩ := ofSource_eq_error_iff.mp failed
  refine ofSource_eq_error_iff.mpr ⟨d, rest ++ more.toList, ?_, maximal.prolong blocked.ne_nil _,
    range, blocked.append stops, place⟩
  rw [String.toList_append, cut, List.append_assoc]

/-- An error in the second of two texts is shifted as its tokens would be. -/
theorem ofSource_lineBreak_of_error {a b : String} {s : TokenStream} {e : LexError}
    (first : ofSource a = .ok s) (failed : ofSource b = .error e) :
    ofSource (a ++ "\n" ++ b) = .error ⟨e.position.shift a.toList, e.cause⟩ := by
  obtain ⟨d, cutA, maximalA, rangeA⟩ := exists_division first
  obtain ⟨d', rest, cutB, maximalB, rangeB, blocked, place⟩ := ofSource_eq_error_iff.mp failed
  refine ofSource_eq_error_iff.mpr ⟨Division.join d d', rest, ?_, maximalA.join maximalB,
    Division.inRange_join rangeA rangeB, blocked, ?_⟩
  · simp [Division.text_join, cutA, cutB]
  · rw [place, cutA, Division.text_join, Position.behind_append_break]

/-- Pieces without a token behind a text leave its tokens as they are. -/
theorem ofSource_append_gap {a : String} {s : TokenStream} {gap : Division}
    (read : ofSource a = .ok s) (maximal : gap.Maximal []) (blank : ∀ p ∈ gap, p.token? = none)
    (ends : ∀ p : Piece, p.kind ≠ .comment → p.EndsBefore gap.text)
    (uncommented : ';' ∉ a.toList) :
    ∃ t, ofSource (a ++ String.ofList gap.text) = .ok t ∧ t.tokens = s.tokens := by
  obtain ⟨d, cut, maximal', range⟩ := exists_division read
  have kinds : ∀ p ∈ d, p.kind ≠ .comment := by
    intro p member comment
    have opens := p.opens
    rw [comment, PieceKind.comment_opens_iff] at opens
    rw [cut] at uncommented
    exact uncommented (List.mem_flatMap.mpr ⟨p, member, by simp [Piece.text, opens]⟩)
  have joined : (a ++ String.ofList gap.text).toList = Division.text (d ++ gap) := by
    simp [Division.text_append, cut]
  have whole : Division.Maximal [] (d ++ gap) := by
    refine Division.Maximal.append (maximal'.change_of_mem fun p member => ?_) maximal
    rw [List.append_nil]
    exact ends p (kinds p member)
  have ranges : ∀ p ∈ d ++ gap, p.InRange := by
    refine List.forall_mem_append.mpr ⟨range, fun p member number => ?_⟩
    have none := blank p member
    simp [Piece.token?, number] at none
  refine ⟨_, ofSource_of_division joined whole ranges, ?_⟩
  rw [ofSource_of_division cut maximal' range] at read
  cases read
  simp only [tokens, ofTokens, List.reverse_nil, List.nil_append, Division.tokens_append,
    Division.tokens_eq_nil blank, List.append_nil, joined, cut, Division.text_append]
  refine List.map_congr_left fun t member => ?_
  obtain ⟨before, after, split, place⟩ := Division.exists_of_mem_tokens member
  rw [split, place, Nat.zero_add, LineIndex.position_append]

end TokenStream

theorem PieceKind.goesOn_of_mem_nil (kind : PieceKind) :
    ∀ c ∈ ([] : List Char), kind.goesOn c = true :=
  List.forall_mem_nil _

/-- The piece that a space is. -/
def Piece.space : Piece := ⟨.blank, ' ', [], by decide, PieceKind.goesOn_of_mem_nil .blank⟩

/-- Spaces and then a comment up to the end of the line. -/
def Division.remark (count : Nat) (body : List Char)
    (inside : ∀ c ∈ body, Lexer.inComment c = true) : Division :=
  List.replicate count Piece.space ++ [⟨.comment, ';', body, by decide, inside⟩]

namespace Division

variable {count : Nat} {body : List Char} {inside : ∀ c ∈ body, Lexer.inComment c = true}

theorem text_remark :
    text (remark count body inside) = List.replicate count ' ' ++ ';' :: body := by
  rw [remark, text_append, text, List.flatMap_replicate]
  simp [Piece.space, Piece.text]

theorem maximal_remark : (remark count body inside).Maximal [] := by
  refine Maximal.append ?_ ⟨by simp [Piece.EndsBefore, Lexer.Stops], trivial⟩
  induction count with
  | zero => trivial
  | succ count ih => exact ⟨fun _ _ => rfl, ih⟩

theorem token?_of_mem_remark {p : Piece} (member : p ∈ remark count body inside) :
    p.token? = none := by
  rcases List.mem_append.mp member with space | comment
  · rw [List.eq_of_mem_replicate space]
    rfl
  · rw [List.mem_singleton.mp comment]
    rfl

/-- A space or a semicolon goes on with no word and no number. -/
theorem endsBefore_remark {p : Piece} (kind : p.kind ≠ .comment) :
    p.EndsBefore (remark count body inside).text := by
  have ended : ∀ kind : PieceKind, kind ≠ .comment →
      kind.goesOn ' ' = false ∧ kind.goesOn ';' = false := by
    intro kind
    cases kind <;> decide
  obtain ⟨space, semicolon⟩ := ended p.kind kind
  rw [text_remark]
  cases count with
  | zero => exact Lexer.stops_cons semicolon _
  | succ count => exact Lexer.stops_cons space _

end Division

namespace TokenStream

/-- Spaces and a comment behind a text leave its tokens as they are. -/
theorem ofSource_append_remark {a : String} {s : TokenStream} {body : List Char}
    (read : ofSource a = .ok s) (uncommented : ';' ∉ a.toList) (count : Nat)
    (inside : ∀ c ∈ body, Lexer.inComment c = true) :
    ∃ t, ofSource (a ++ String.ofList (List.replicate count ' ' ++ ';' :: body)) = .ok t ∧
      t.tokens = s.tokens := by
  have maximal : (Division.remark count body inside).Maximal [] := Division.maximal_remark
  have kept := ofSource_append_gap read maximal (fun p => Division.token?_of_mem_remark)
    (fun p => Division.endsBefore_remark) uncommented
  rwa [Division.text_remark] at kept

/-- The tokens with the line and the column at which each begins. -/
def spots (s : TokenStream) : List (Token × Nat × Nat) :=
  s.tokens.map fun t => (t.token, t.position.line, t.position.column)

/-- The tokens with their columns, as if they stood on another line. -/
def spotsOn (line : Nat) (s : TokenStream) : List (Token × Nat × Nat) :=
  s.tokens.map fun t => (t.token, line, t.position.column)

/-- A text without line breaks has all its tokens on the first line. -/
theorem spots_of_single {source : String} {s : TokenStream} (read : ofSource source = .ok s)
    (single : '\n' ∉ source.toList) : s.spots = s.spotsOn 1 := by
  obtain ⟨d, cut, maximal, range⟩ := exists_division read
  rw [ofSource_of_division cut maximal range] at read
  cases read
  simp only [spots, spotsOn, tokens, ofTokens, List.reverse_nil, List.nil_append, List.map_map]
  refine List.map_congr_left fun t member => ?_
  obtain ⟨before, after, split, place⟩ := Division.exists_of_mem_tokens member
  have absent : '\n' ∉ before := by
    rw [cut, split] at single
    exact fun found => single (List.mem_append_left after found)
  have line : ((LineIndex.ofText source.toList).position t.1).line = 1 := by
    rw [cut, split, place, Nat.zero_add, LineIndex.position_ofText, Position.behind,
      List.count_eq_zero_of_not_mem absent]
  simp [line]

theorem line_of_single {source : String} {e : LexError} (failed : ofSource source = .error e)
    (single : '\n' ∉ source.toList) : e.position.line = 1 := by
  obtain ⟨d, rest, cut, _, _, _, place⟩ := ofSource_eq_error_iff.mp failed
  have absent : '\n' ∉ d.text := by
    rw [cut] at single
    exact fun found => single (List.mem_append_left rest found)
  rw [place, Position.behind, List.count_eq_zero_of_not_mem absent]

/-- Where the tokens stand depends on the tokens of each line only. -/
theorem flatMap_spotsOn_congr {ss ts : List TokenStream} (same : ss.map tokens = ts.map tokens)
    (line : Nat) : (ss.zipIdx line).flatMap (fun t => t.1.spotsOn t.2) =
      (ts.zipIdx line).flatMap fun t => t.1.spotsOn t.2 := by
  have spots : ∀ us : List TokenStream, (us.zipIdx line).flatMap (fun t => t.1.spotsOn t.2) =
      ((us.map tokens).zipIdx line).flatMap fun p =>
        p.1.map fun t => (t.token, p.2, t.position.column) := by
    intro us
    rw [List.zipIdx_map, List.flatMap_map]
    rfl
  rw [spots, spots, same]

theorem flatMap_spotsOn_succ (streams : List TokenStream) (line : Nat) :
    (streams.zipIdx (line + 1)).flatMap (fun t => t.1.spotsOn t.2) =
      ((streams.zipIdx line).flatMap fun t => t.1.spotsOn t.2).map
        fun t => (t.1, t.2.1 + 1, t.2.2) := by
  rw [List.zipIdx_succ, List.flatMap_map, List.map_flatMap]
  refine List.flatMap_congr fun t _ => ?_
  simp [spotsOn]

theorem ofSource_empty : ofSource "" = .ok (.ofTokens [] ⟨1, 1, 0⟩) := by decide +kernel

/-- Lines are read one after another. -/
theorem ofSource_lines {texts : List String} {streams : List TokenStream}
    (each : List.Forall₂ (fun text s => ofSource text = .ok s) texts streams)
    (single : ∀ text ∈ texts, '\n' ∉ text.toList) :
    ∃ s, ofSource ("\n".intercalate texts) = .ok s ∧
      s.spots = (streams.zipIdx 1).flatMap fun t => t.1.spotsOn t.2 := by
  induction each with
  | nil => exact ⟨_, ofSource_empty, rfl⟩
  | @cons text s texts streams read rest ih =>
    obtain ⟨here, others⟩ := List.forall_mem_cons.mp single
    cases rest with
    | nil => exact ⟨s, read, by simp [spots_of_single read here]⟩
    | @cons next t texts streams read' rest =>
      obtain ⟨u, later, spots⟩ := ih others
      obtain ⟨v, joined, tokens⟩ := ofSource_append_lineBreak read later
      refine ⟨v, by rw [String.intercalate_cons_cons, joined], ?_⟩
      have moved : v.spots = s.spots ++ u.spots.map fun t => (t.1, t.2.1 + 1, t.2.2) := by
        simp [TokenStream.spots, tokens, PlacedToken.moved, Position.shift,
          List.count_eq_zero_of_not_mem here]
      rw [moved, spots, spots_of_single read here, ← flatMap_spotsOn_succ]
      rfl

/-- The first line that cannot be read is what a text is refused for. -/
theorem ofSource_lines_of_error {before : List String} {text : String} {e : LexError}
    (each : ∀ line ∈ before, ∃ s, ofSource line = .ok s)
    (single : ∀ line ∈ before, '\n' ∉ line.toList) (failed : ofSource text = .error e)
    (after : List String) : ∃ position,
      ofSource ("\n".intercalate (before ++ text :: after)) = .error ⟨position, e.cause⟩ ∧
      position.line = before.length + e.position.line ∧ position.column = e.position.column := by
  induction before with
  | nil =>
    refine ⟨e.position, ?_, by simp, rfl⟩
    cases after with
    | nil => exact failed
    | cons next after =>
      rw [List.nil_append, String.intercalate_cons_cons, String.append_assoc]
      exact ofSource_append_of_error failed (by simpa using Lexer.stops_cons rfl _)
  | cons line before ih =>
    obtain ⟨⟨s, read⟩, others⟩ := List.forall_mem_cons.mp each
    obtain ⟨here, singles⟩ := List.forall_mem_cons.mp single
    obtain ⟨position, later, down, column⟩ := ih others singles
    refine ⟨position.shift line.toList, ?_, ?_, column⟩
    · have more : before ++ text :: after ≠ [] := by simp
      obtain ⟨next, rest, cut⟩ := List.exists_cons_of_ne_nil more
      rw [List.cons_append, cut, String.intercalate_cons_cons, ← cut]
      exact ofSource_lineBreak_of_error read later
    · simp only [Position.shift, List.count_eq_zero_of_not_mem here, down, List.length_cons]
      omega

end TokenStream
end OctetMachine
