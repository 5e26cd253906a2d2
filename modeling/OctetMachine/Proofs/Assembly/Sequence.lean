import Mathlib
import OctetMachine.Proofs.Assembly.Source
import OctetMachine.Proofs.Statement.Language
import OctetMachine.Proofs.Token.Joining

/-! Tokens that are statements side by side. They are what parsing goes through to the end of. Such
sequences can be put together, since a statement never begins with the colon that would make the
word before it a label, and they can be moved to other places. -/
namespace OctetMachine

/-- The same statement elsewhere. -/
def Statement.moved (move : Position → Position) (st : Statement) : Statement :=
  ⟨move st.position, st.kind⟩

/-- The tokens are these statements, one after the other. -/
inductive Statement.Sequence : List PlacedToken → List Statement → Prop where
  | nil : Sequence [] []
  | cons {st : Statement} {sts : List Statement} {taken rest : List PlacedToken}
      (first : st.Opens taken rest) (others : Sequence rest sts) :
      Sequence (taken ++ rest) (st :: sts)

theorem StatementKind.Written.head? {kind : StatementKind} {tokens : List Token}
    (written : kind.Written tokens) : ∃ name, tokens.head? = some (.identifier name) := by
  cases written with
  | label name => exact ⟨name, rfl⟩
  | @instruction name i parts named arity count operands => exact ⟨name, rfl⟩

namespace Statement

theorem Opens.ne_nil {st : Statement} {taken rest : List PlacedToken}
    (opens : st.Opens taken rest) : taken ≠ [] := by
  rintro rfl
  cases opens.place

theorem Sequence.head?_ne_colon {tokens : List PlacedToken} {sts : List Statement}
    (sequence : Sequence tokens sts) : tokens.head?.map (·.token) ≠ some (.mark .colon) := by
  cases sequence with
  | nil => nofun
  | cons first others =>
    obtain ⟨name, word⟩ := first.written.head?
    rw [List.head?_append_of_ne_nil _ first.ne_nil, ← List.head?_map, word]
    nofun

/-- What follows a statement may go on with other statements. -/
theorem Opens.append {st : Statement} {taken rest tokens : List PlacedToken} {sts : List Statement}
    (opens : st.Opens taken rest) (sequence : Sequence tokens sts) :
    st.Opens taken (rest ++ tokens) := by
  refine ⟨opens.written, opens.place, fun i instruction => ?_⟩
  rw [← List.append_assoc]
  have plain := opens.unlabelled i instruction
  by_cases long : 1 < (taken ++ rest).length
  · rwa [List.getElem?_append_left long]
  · -- The first word is the last token, so what matters is the first token of the sequence.
    have one : (taken ++ rest).length = 1 := by
      have positive := List.length_pos_iff.mpr opens.ne_nil
      rw [List.length_append] at long ⊢
      omega
    rw [List.getElem?_append_right (Nat.not_lt.mp long), one, ← List.head?_eq_getElem?]
    exact sequence.head?_ne_colon

theorem Sequence.append {a b : List PlacedToken} {xs ys : List Statement} (first : Sequence a xs)
    (last : Sequence b ys) : Sequence (a ++ b) (xs ++ ys) := by
  induction first with
  | nil => exact last
  | cons opens _ ih =>
    rw [List.append_assoc]
    exact .cons (opens.append last) ih

theorem Opens.moved {st : Statement} {taken rest : List PlacedToken} (opens : st.Opens taken rest)
    (move : Position → Position) :
    (st.moved move).Opens (taken.map (PlacedToken.moved move))
      (rest.map (PlacedToken.moved move)) := by
  have tokens : ((·.token) ∘ PlacedToken.moved move) = fun t : PlacedToken => t.token := rfl
  refine ⟨?_, ?_, fun i instruction => ?_⟩
  · rw [List.map_map, tokens]
    exact opens.written
  · have place := congrArg (Option.map move) opens.place
    rw [Option.map_map] at place
    rw [List.head?_map, Option.map_map]
    exact place
  · rw [← List.map_append, List.getElem?_map, Option.map_map, tokens]
    exact opens.unlabelled i instruction

theorem Sequence.moved {tokens : List PlacedToken} {sts : List Statement}
    (sequence : Sequence tokens sts) (move : Position → Position) :
    Sequence (tokens.map (PlacedToken.moved move)) (sts.map (Statement.moved move)) := by
  induction sequence with
  | nil => exact .nil
  | cons first _ ih =>
    rw [List.map_append]
    exact .cons (first.moved move) ih

end Statement

/-- Parsing that goes through to the end of the tokens finds statements side by side. -/
theorem Parsed.sequence_of_failure {s : TokenStream} (complete : (ofStream s).failure = none) :
    Statement.Sequence s.ahead (ofStream s).statements := by
  fun_induction ofStream s with
  | case1 s t ended =>
    rw [(Parser.statement_eq_ok_none_iff.mp ended).1]
    exact .nil
  | case2 => cases complete
  | case3 s st t next others ih =>
    obtain ⟨taken, passes, opens⟩ := Parser.statement_eq_ok_some_iff_opens.mp next
    rw [passes.1]
    exact .cons opens (ih complete)

theorem Parsed.ofStream_of_sequence {s : TokenStream} {sts : List Statement}
    (sequence : Statement.Sequence s.ahead sts) : ofStream s = ⟨sts, none⟩ := by
  generalize ahead : s.ahead = tokens at sequence
  induction sequence generalizing s with
  | nil => exact ofStream_of_ahead_eq_nil ahead
  | @cons st sts taken rest first others ih =>
    have next : Parser.statement s = .ok (some st) ⟨taken.reverse ++ s.behind, rest, s.finish⟩ :=
      Parser.statement_eq_ok_some_iff_opens.mpr ⟨taken, ⟨ahead, rfl, rfl⟩, first⟩
    rw [ofStream_of_statement next, ih rfl]

/-- What is assembled from statements is what they are laid out as. -/
theorem Assembly.ofStream_of_sequence {s : TokenStream} {sts : List Statement}
    (sequence : Statement.Sequence s.tokens sts) : ofStream s = layout 0 [] sts := by
  have parsed : Parsed.ofStream s.reset = ⟨sts, none⟩ := Parsed.ofStream_of_sequence sequence
  simp only [ofStream, parsed]
  cases layout 0 [] sts <;> rfl

/-- A text that is read as an instruction is one statement. -/
theorem Instruction.exists_sequence {source : String} {i : Instruction}
    (parsed : ofSource source = .ok i) : ∃ s position, TokenStream.ofSource source = .ok s ∧
      Statement.Sequence s.tokens [⟨position, .instruction i⟩] := by
  unfold ofSource at parsed
  cases read : TokenStream.ofSource source with
  | error e => simp [read] at parsed
  | ok s =>
    simp only [read] at parsed
    split at parsed
    case h_3 st t next =>
      split at parsed
      case h_3 j ended instruction =>
        cases parsed
        obtain ⟨position, kind⟩ := st
        cases instruction
        obtain ⟨taken, passes, opens⟩ := Parser.statement_eq_ok_some_iff_opens.mp next
        have last : t.ahead = [] := List.head?_eq_none_iff.mp ended
        have tokens : s.tokens = s.ahead :=
          congrArg TokenStream.ahead (TokenStream.reset_of_ofSource read)
        refine ⟨s, position, rfl, ?_⟩
        rw [tokens, passes.1, last]
        exact .cons (last ▸ opens) .nil
      all_goals cases parsed
    all_goals cases parsed

end OctetMachine
