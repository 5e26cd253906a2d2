import OctetMachine.Instruction.Text
import OctetMachine.Proofs.Token.Reading

/-! The text of an instruction, read as tokens. Its words and marks are always read as themselves;
its numbers are, as long as literals can be so large. -/
namespace OctetMachine

open Lexer

/-- The token that a number in source text is read as. -/
def Token.ofNat (n : Nat) : Token := .literal (.integer (Int32.ofNat n))

theorem Lexer.toNat_le_literalLimit (b : UInt8) : b.toNat ≤ literalLimit := by
  have bound := b.toNat_lt
  have limit : 256 ≤ literalLimit := by decide
  omega

theorem Width.isWord_keyword (w : Width) : isWord w.keyword = true := by
  cases w <;> decide

theorem Opcode.isWord_mnemonic (op : Opcode) : isWord op.mnemonic = true := by
  cases op <;> decide

namespace Operand

/-- The number that an operand's text shows. -/
def shown : Operand → Nat
  | literal b => b.toNat
  | top => 0
  | reference address => address.toNat
  | shortReference address => address.toNat
  | immediate value => value.toNat

/-- Only values can show numbers beyond a byte. -/
theorem exists_value_of_shown {o : Operand} (large : literalLimit < o.shown) :
    ∃ v, o.shown = v.toNat ∧ (o = .immediate v ∨ o = .reference v) := by
  cases o with
  | literal b => exact absurd (toNat_le_literalLimit b) (Nat.not_le.mpr large)
  | top => cases large
  | reference v => exact ⟨v, rfl, .inr rfl⟩
  | shortReference b => exact absurd (toNat_le_literalLimit b) (Nat.not_le.mpr large)
  | immediate v => exact ⟨v, rfl, .inl rfl⟩

/-- The tokens that an operand's text is read as. -/
def tokens : Operand → List Token
  | literal b => [.ofNat b.toNat]
  | top => [.identifier "TOP"]
  | reference address =>
    match address.width with
    | .byte => [.mark .openBracket, .ofNat address.toNat, .mark .closeBracket]
    | w => [.mark .openBracket, .identifier w.keyword, .ofNat address.toNat, .mark .closeBracket]
  | shortReference address => [.mark .openBracket, .ofNat address.toNat, .mark .closeBracket]
  | immediate value => [.identifier value.width.keyword, .ofNat value.toNat]

/-- A text is one number between two pieces that are read as they are, whatever the number. -/
def ShowsNumber (text : List Char) (n : Nat) (tokens : List Token) : Prop :=
  ∃ (before after : List Char) (front back : List Token),
    text = before ++ (Nat.toDigits 10 n ++ after) ∧ tokens = front ++ (.ofNat n :: back) ∧
      (∀ rest, Reads before front rest) ∧ (∀ rest, Reads after back rest) ∧
        ∀ rest, Stops isWordRest rest → Stops Char.isDigit (after ++ rest)

theorem ShowsNumber.reads {text rest : List Char} {n : Nat} {tokens : List Token}
    (shows : ShowsNumber text n tokens) (bound : n ≤ literalLimit)
    (stops : Stops isWordRest rest) : Reads text tokens rest := by
  obtain ⟨before, after, front, back, rfl, rfl, first, last, edge⟩ := shows
  have number := (reads_number bound (edge rest stops)).append (last rest)
  exact (first _).append number

theorem ShowsNumber.fails {text rest : List Char} {n : Nat} {tokens : List Token}
    (shows : ShowsNumber text n tokens) (bound : literalLimit < n)
    (stops : Stops isWordRest rest) :
    Fails (text ++ rest) (.integerOutOfRange (toString n)) := by
  obtain ⟨before, after, front, back, rfl, rfl, first, last, edge⟩ := shows
  have number := fails_number bound (edge rest stops)
  rw [List.append_assoc, List.append_assoc]
  exact (first _).fails number

theorem showsNumber_bare (n : Nat) : ShowsNumber (toString n).toList n [.ofNat n] := by
  refine ⟨[], [], [], [], ?_, rfl, reads_nil, reads_nil, fun rest stops => stops.digits⟩
  simp

theorem ShowsNumber.sized {text : List Char} {n : Nat} {tokens : List Token} (w : Width)
    (shows : ShowsNumber text n tokens) :
    ShowsNumber (w.keyword.toList ++ ' ' :: text) n (.identifier w.keyword :: tokens) := by
  obtain ⟨before, after, front, back, rfl, rfl, first, last, edge⟩ := shows
  refine ⟨w.keyword.toList ++ ([' '] ++ before), after, .identifier w.keyword :: front, back,
    by simp, by simp, fun rest => ?_, last, edge⟩
  have space : Reads ([' '] ++ before) front rest := (reads_blank rfl _).append (first rest)
  exact (reads_name w.isWord_keyword (stops_space (before ++ rest))).append space

theorem ShowsNumber.bracketed {text : List Char} {n : Nat} {tokens : List Token}
    (shows : ShowsNumber text n tokens) :
    ShowsNumber ('[' :: (text ++ [']'])) n
      (.mark .openBracket :: (tokens ++ [.mark .closeBracket])) := by
  obtain ⟨before, after, front, back, rfl, rfl, first, last, edge⟩ := shows
  refine ⟨'[' :: before, after ++ [']'], .mark .openBracket :: front, back ++ [.mark .closeBracket],
    by simp, by simp, fun rest => ?_, fun rest => ?_, fun rest stops => ?_⟩
  · exact (reads_mark .openBracket (before ++ rest)).append (first rest)
  · exact (last _).append (reads_mark .closeBracket rest)
  · have bracket : Stops isWordRest (']' :: rest) := stops_cons rfl rest
    simpa using edge _ bracket

theorem showsNumber_text {o : Operand} (number : o ≠ .top) :
    ShowsNumber o.text.toList o.shown o.tokens := by
  cases o with
  | literal b => exact showsNumber_bare b.toNat
  | top => exact absurd rfl number
  | shortReference address =>
    simpa [text, shown, tokens] using (showsNumber_bare address.toNat).bracketed
  | immediate value =>
    simpa [text, shown, tokens, Value.text] using (showsNumber_bare value.toNat).sized value.width
  | reference address =>
    cases width : address.width with
    | byte =>
      have bare := (showsNumber_bare address.toNat).bracketed
      simpa [text, shown, tokens, Value.text, width] using bare
    | _ =>
      have sized := ((showsNumber_bare address.toNat).sized address.width).bracketed
      simpa [text, shown, tokens, Value.text, width] using sized

theorem reads_text {o : Operand} {rest : List Char} (bound : o.shown ≤ literalLimit)
    (stops : Stops isWordRest rest) : Reads o.text.toList o.tokens rest := by
  by_cases top : o = .top
  · subst top
    exact reads_name (by decide) stops
  · exact (showsNumber_text top).reads bound stops

theorem fails_text {o : Operand} {rest : List Char} (bound : literalLimit < o.shown)
    (stops : Stops isWordRest rest) :
    Fails (o.text.toList ++ rest) (.integerOutOfRange (toString o.shown)) := by
  have number : o ≠ .top := by
    rintro rfl
    cases bound
  exact (showsNumber_text number).fails bound stops

/-- Operands behind another, each with the comma in front of it. -/
def trailingText (os : List Operand) : List Char := os.flatMap fun o => ',' :: ' ' :: o.text.toList

def trailingTokens (os : List Operand) : List Token := os.flatMap fun o => .mark .comma :: o.tokens

theorem stops_trailingText {os : List Operand} {rest : List Char} (stops : Stops isWordRest rest) :
    Stops isWordRest (trailingText os ++ rest) := by
  cases os with
  | nil => exact stops
  | cons o os => exact stops_cons rfl _

theorem reads_trailingText {os : List Operand} {rest : List Char}
    (bound : ∀ o ∈ os, o.shown ≤ literalLimit) (stops : Stops isWordRest rest) :
    Reads (trailingText os) (trailingTokens os) rest := by
  induction os with
  | nil => exact reads_nil rest
  | cons o os ih =>
    have others := ih fun o' member => bound o' (by simp [member])
    have edge : Stops isWordRest (trailingText os ++ rest) := stops_trailingText stops
    have first := reads_text (bound o (by simp)) edge
    have space : Reads [' '] [] (o.text.toList ++ trailingText os ++ rest) := reads_blank rfl _
    have comma : Reads [','] [.mark .comma] ([' '] ++ (o.text.toList ++ trailingText os) ++ rest) :=
      reads_mark .comma _
    have whole := comma.append (space.append (first.append others))
    simpa [trailingText, trailingTokens] using whole

theorem fails_trailingText {os : List Operand} {rest : List Char}
    (beyond : ∃ o ∈ os, literalLimit < o.shown) (stops : Stops isWordRest rest) :
    ∃ o ∈ os, literalLimit < o.shown ∧
      Fails (trailingText os ++ rest) (.integerOutOfRange (toString o.shown)) := by
  induction os with
  | nil => simp at beyond
  | cons o os ih =>
    have edge : Stops isWordRest (trailingText os ++ rest) := stops_trailingText stops
    have space : Reads [' '] [] (o.text.toList ++ (trailingText os ++ rest)) := reads_blank rfl _
    have comma : Reads [','] [.mark .comma] ([' '] ++ (o.text.toList ++ (trailingText os ++ rest))) :=
      reads_mark .comma _
    by_cases bound : o.shown ≤ literalLimit
    · obtain ⟨o', member, large, fails⟩ := ih (by simpa [Nat.not_lt.mpr bound] using beyond)
      refine ⟨o', by simp [member], large, ?_⟩
      have whole := comma.fails (space.fails ((reads_text bound edge).fails fails))
      simpa [trailingText] using whole
    · refine ⟨o, by simp, Nat.not_le.mp bound, ?_⟩
      have whole := comma.fails (space.fails (fails_text (Nat.not_le.mp bound) edge))
      simpa [trailingText] using whole

end Operand

namespace Instruction

/-- The tokens that an instruction's text is read as. -/
def tokens (i : Instruction) : List Token :=
  match i.operands with
  | [] => [.identifier i.opcode.mnemonic]
  | o :: os => .identifier i.opcode.mnemonic :: (o.tokens ++ Operand.trailingTokens os)

theorem toList_text (i : Instruction) :
    i.text.toList = i.opcode.mnemonic.toList ++
      match i.operands with
      | [] => []
      | o :: os => ' ' :: (o.text.toList ++ Operand.trailingText os) := by
  have joined : ∀ (os : List Operand) (o : Operand),
      [',', ' '].intercalate ((o :: os).map fun o => o.text.toList) =
        o.text.toList ++ Operand.trailingText os := by
    intro os
    induction os with
    | nil => simp [Operand.trailingText]
    | cons o' os ih =>
      intro o
      have tail := ih o'
      rw [List.map_cons] at tail
      rw [List.map_cons, List.map_cons, List.intercalate_cons_cons, tail]
      simp [Operand.trailingText]
  obtain ⟨op, os⟩ := i
  cases os with
  | nil => simp [text]
  | cons o os =>
    have operands := joined os o
    simp only [text, String.toList_append, String.toList_intercalate, List.map_map,
      List.append_assoc]
    exact congrArg (op.mnemonic.toList ++ ' ' :: ·) operands

theorem reads_text {i : Instruction} {rest : List Char}
    (bound : ∀ o ∈ i.operands, o.shown ≤ literalLimit) (stops : Stops isWordRest rest) :
    Reads i.text.toList i.tokens rest := by
  obtain ⟨op, os⟩ := i
  rw [toList_text]
  cases os with
  | nil => simpa [tokens] using reads_name op.isWord_mnemonic stops
  | cons o os =>
    have others : Reads (Operand.trailingText os) (Operand.trailingTokens os) rest :=
      Operand.reads_trailingText (fun o' member => bound o' (by simp [member])) stops
    have edge : Stops isWordRest (Operand.trailingText os ++ rest) :=
      Operand.stops_trailingText stops
    have first := Operand.reads_text (bound o (by simp)) edge
    have space : Reads [' '] [] (o.text.toList ++ Operand.trailingText os ++ rest) :=
      reads_blank rfl _
    have name := reads_name op.isWord_mnemonic
      (stops_space (o.text.toList ++ Operand.trailingText os ++ rest))
    simpa [tokens] using name.append (space.append (first.append others))

theorem fails_text {i : Instruction} {rest : List Char}
    (beyond : ∃ o ∈ i.operands, literalLimit < o.shown) (stops : Stops isWordRest rest) :
    ∃ o ∈ i.operands, literalLimit < o.shown ∧
      Fails (i.text.toList ++ rest) (.integerOutOfRange (toString o.shown)) := by
  obtain ⟨op, os⟩ := i
  rw [toList_text]
  cases os with
  | nil => simp at beyond
  | cons o os =>
    have edge : Stops isWordRest (Operand.trailingText os ++ rest) :=
      Operand.stops_trailingText stops
    have space : Reads [' '] [] (o.text.toList ++ (Operand.trailingText os ++ rest)) :=
      reads_blank rfl _
    have name := reads_name op.isWord_mnemonic
      (stops_space (o.text.toList ++ (Operand.trailingText os ++ rest)))
    by_cases bound : o.shown ≤ literalLimit
    · have others : ∃ o ∈ os, literalLimit < o.shown := by
        simpa [Nat.not_lt.mpr bound] using beyond
      obtain ⟨o', member, large, fails⟩ := Operand.fails_trailingText others stops
      refine ⟨o', by simp [member], large, ?_⟩
      simpa using name.fails (space.fails ((Operand.reads_text bound edge).fails fails))
    · refine ⟨o, by simp, Nat.not_le.mp bound, ?_⟩
      simpa using name.fails (space.fails (Operand.fails_text (Nat.not_le.mp bound) edge))

end Instruction
end OctetMachine
