import OctetMachine.Proofs.Assembly.Source
import OctetMachine.Proofs.Instruction.Spelling
import OctetMachine.Proofs.Listing.Text

/-! Listings as source text. The listing of an assembly assembles to the same code, unless an
immediate is larger than a literal can be. Only streams put together by hand have such immediates. -/
namespace OctetMachine

open Lexer

/-- Among the operands that tokens can express only immediates show numbers beyond a byte. -/
theorem Operand.Expressible.exists_immediate {op : Opcode} {slot : Slot} {o : Operand}
    (expressible : Expressible op slot o) (large : literalLimit < o.shown) :
    ∃ v, o = .immediate v := by
  have byte : ∀ b : UInt8, ¬ literalLimit < b.toNat := fun b =>
    Nat.not_lt.mpr (toNat_le_literalLimit b)
  cases expressible with
  | leading => exact absurd large (byte _)
  | trailing => exact absurd large (byte _)
  | top => exact absurd large (Nat.not_lt_zero _)
  | reference address =>
    rw [shown, Value.toNat_ofByte] at large
    exact absurd large (byte address)
  | immediate => exact ⟨_, rfl⟩

theorem Instruction.Expressible.exists_immediate {i : Instruction} {o : Operand}
    (expressible : i.Expressible) (member : o ∈ i.operands) (large : literalLimit < o.shown) :
    ∃ v, o = .immediate v := by
  obtain ⟨_, operands⟩ := forall₂_slots_iff.mp expressible
  obtain ⟨k, found⟩ := List.mem_iff_getElem?.mp member
  exact (operands k o found).exists_immediate large

/-- One turn of the parsing loop on the tokens of an instruction. -/
theorem Parser.statement_of_tokens {s : TokenStream} {i : Instruction}
    {taken rest : List PlacedToken} (expressible : i.Expressible)
    (bound : ∀ o ∈ i.operands, o.shown ≤ literalLimit) (ahead : s.ahead = taken ++ rest)
    (tokens : taken.map (·.token) = i.tokens)
    (unlabelled : .mark .colon ∉ s.ahead.map (·.token)) :
    ∃ position, statement s =
      .ok (some ⟨position, .instruction i⟩) ⟨taken.reverse ++ s.behind, rest, s.finish⟩ := by
  have spelled := Instruction.spelled_tokens expressible bound
  rw [← tokens] at spelled
  cases taken with
  | nil => cases spelled
  | cons first others =>
    refine ⟨first.position, statement_eq_ok_some_iff.mpr
      ⟨first, others, ⟨ahead, rfl, rfl⟩, rfl, spelled, ?_⟩⟩
    intro _ _ colon
    apply unlabelled
    obtain ⟨next, found, token⟩ := Option.map_eq_some_iff.mp colon
    have later : next ∈ s.advance.ahead := List.mem_of_head? found
    rw [← token, ahead]
    simp only [TokenStream.advance, ahead, List.cons_append] at later ⊢
    exact List.mem_map_of_mem (List.mem_cons_of_mem _ later)

/-- The tokens of instructions are parsed as these instructions. -/
theorem Parsed.ofStream_of_tokens {s : TokenStream} {is : List Instruction}
    (expressible : ∀ i ∈ is, i.Expressible)
    (bound : ∀ i ∈ is, ∀ o ∈ i.operands, o.shown ≤ literalLimit)
    (tokens : s.ahead.map (·.token) = is.flatMap Instruction.tokens) :
    ∃ statements, ofStream s = ⟨statements, none⟩ ∧
      statements.map Statement.instruction? = is.map some := by
  induction is generalizing s with
  | nil =>
    have ended : s.ahead = [] := List.map_eq_nil_iff.mp tokens
    exact ⟨[], ofStream_of_ahead_eq_nil ended, rfl⟩
  | cons i is ih =>
    have unlabelled : .mark .colon ∉ s.ahead.map (·.token) := by
      rw [tokens]
      intro colon
      obtain ⟨j, _, inside⟩ := List.mem_flatMap.mp colon
      exact j.colon_not_mem_tokens inside
    rw [List.flatMap_cons] at tokens
    obtain ⟨taken, rest, ahead, first, others⟩ := List.map_eq_append_iff.mp tokens
    obtain ⟨position, parsed⟩ := Parser.statement_of_tokens (expressible i (by simp))
      (bound i (by simp)) ahead first unlabelled
    obtain ⟨statements, remaining, same⟩ := @ih ⟨taken.reverse ++ s.behind, rest, s.finish⟩
      (fun j member => expressible j (by simp [member]))
      (fun j member => bound j (by simp [member])) others
    refine ⟨⟨position, .instruction i⟩ :: statements, ?_, ?_⟩
    · rw [ofStream_of_statement parsed, remaining]
    · rw [List.map_cons, same]
      rfl

namespace Assembly

/-- Without labels nothing can go wrong. -/
theorem layout_of_instructions {statements : List Statement} {is : List Instruction} (offset : Nat)
    (seen : List String) (same : statements.map Statement.instruction? = is.map some) :
    layout offset seen statements = .ok ⟨is.flatMap Instruction.encode, []⟩ := by
  induction statements generalizing is offset with
  | nil =>
    cases is with
    | nil => rfl
    | cons => cases same
  | cons st statements ih =>
    obtain ⟨position, kind⟩ := st
    cases is with
    | nil => cases same
    | cons i is =>
      obtain ⟨here, others⟩ := List.cons.inj same
      cases kind with
      | label name => cases here
      | instruction j =>
        cases here
        simp [layout, ih _ others, Except.map]

theorem ofStream_of_tokens {s : TokenStream} {is : List Instruction}
    (expressible : ∀ i ∈ is, i.Expressible)
    (bound : ∀ i ∈ is, ∀ o ∈ i.operands, o.shown ≤ literalLimit)
    (tokens : s.tokens.map (·.token) = is.flatMap Instruction.tokens) :
    ofStream s = .ok ⟨is.flatMap Instruction.encode, []⟩ := by
  obtain ⟨statements, parsed, same⟩ := Parsed.ofStream_of_tokens (s := s.reset) expressible bound tokens
  rw [ofStream_eq_ok_iff, parsed]
  exact ⟨layout_of_instructions 0 [] same, rfl⟩

end Assembly

namespace Listing

variable {s : TokenStream} {a : Assembly}

theorem reassembles_of_small (assembled : Assembly.ofStream s = .ok a)
    (small : ∀ i ∈ (Parsed.ofStream s.reset).instructions, ∀ v,
      .immediate v ∈ i.operands → v.toNat ≤ literalLimit) :
    ∃ listed, text a.code = .ok listed ∧ Assembly.ofSource listed = .ok ⟨a.code, []⟩ := by
  have expressible : ∀ i ∈ (Parsed.ofStream s.reset).instructions, i.Expressible :=
    fun i member => Parsed.expressible_of_mem member
  have bound : ∀ i ∈ (Parsed.ofStream s.reset).instructions, ∀ o ∈ i.operands,
      o.shown ≤ literalLimit := by
    intro i member o inside
    by_contra large
    obtain ⟨v, rfl⟩ := (expressible i member).exists_immediate inside (Nat.not_le.mp large)
    exact large (small i member v inside)
  obtain ⟨listed, printed, reads⟩ := reads_text (Assembly.decode_code assembled)
    fun e member => bound _ (instruction_mem_of_mem member)
  obtain ⟨t, read, tokens⟩ := TokenStream.ofSource_of_reads reads
  rw [flatMap_ofInstructions] at tokens
  refine ⟨listed, printed, Assembly.ofSource_eq_ok_iff.mpr ⟨t, read, ?_⟩⟩
  rw [Assembly.code_of_ofStream assembled]
  exact Assembly.ofStream_of_tokens expressible bound tokens

/-- The first immediate that is too large stops the lexer, which quotes its digits. -/
theorem fails_of_large (assembled : Assembly.ofStream s = .ok a)
    (large : ∃ i ∈ (Parsed.ofStream s.reset).instructions, ∃ v,
      .immediate v ∈ i.operands ∧ literalLimit < v.toNat) :
    ∃ listed, text a.code = .ok listed ∧
      ∃ i ∈ (Parsed.ofStream s.reset).instructions, ∃ v, .immediate v ∈ i.operands ∧
        literalLimit < v.toNat ∧ ∃ position, Assembly.ofSource listed =
          .error ⟨position, .lexical (.integerOutOfRange (toString v.toNat))⟩ := by
  have beyond : ∃ e ∈ ofInstructions 0 (Parsed.ofStream s.reset).instructions,
      ∃ o ∈ e.instruction.operands, literalLimit < o.shown := by
    obtain ⟨i, member, v, inside, large⟩ := large
    rw [← map_instruction_ofInstructions 0 (Parsed.ofStream s.reset).instructions] at member
    obtain ⟨e, found, rfl⟩ := List.mem_map.mp member
    exact ⟨e, found, .immediate v, inside, large⟩
  obtain ⟨listed, printed, e, found, o, inside, large, fails⟩ :=
    fails_text (Assembly.decode_code assembled) beyond
  have member := instruction_mem_of_mem found
  obtain ⟨v, rfl⟩ := (Parsed.expressible_of_mem member).exists_immediate inside large
  obtain ⟨position, unread⟩ := TokenStream.ofSource_of_fails fails
  refine ⟨listed, printed, _, member, v, inside, large, position, ?_⟩
  simp only [Assembly.ofSource, unread]
  rfl

/-- Assembled source text has a listing, and that assembles to the same code. So it is for streams
put together by hand, except that an immediate may then be too large to be read again. -/
theorem reassembles :
    (∀ source a, Assembly.ofSource source = .ok a → ∃ listed, text a.code = .ok listed ∧
      (Assembly.ofSource listed).map Assembly.code = .ok a.code) ∧
    (∀ s a, Assembly.ofStream s = .ok a → ∃ listed, text a.code = .ok listed ∧
      let is := (Parsed.ofStream s.reset).instructions
      ((Assembly.ofSource listed).map Assembly.code = .ok a.code ↔
        ∀ i ∈ is, ∀ v, .immediate v ∈ i.operands → v.toNat ≤ 2147483647) ∧
      ((∃ i ∈ is, ∃ v, .immediate v ∈ i.operands ∧ 2147483647 < v.toNat) →
        ∃ i ∈ is, ∃ v, .immediate v ∈ i.operands ∧ 2147483647 < v.toNat ∧
          ∃ position, Assembly.ofSource listed =
            .error ⟨position, .lexical (.integerOutOfRange (toString v.toNat))⟩)) := by
  refine ⟨fun source a assembled => ?_, fun s a assembled => ?_⟩
  · obtain ⟨s, read, assembled⟩ := Assembly.ofSource_eq_ok_iff.mp assembled
    obtain ⟨listed, printed, again⟩ := reassembles_of_small assembled
      fun i member v inside => Parsed.toNat_le_of_ofSource read member inside
    exact ⟨listed, printed, by rw [again]; rfl⟩
  · by_cases small : ∀ i ∈ (Parsed.ofStream s.reset).instructions, ∀ v,
        .immediate v ∈ i.operands → v.toNat ≤ literalLimit
    · obtain ⟨listed, printed, again⟩ := reassembles_of_small assembled small
      refine ⟨listed, printed, ⟨fun _ => small, fun _ => by rw [again]; rfl⟩, ?_⟩
      rintro ⟨i, member, v, inside, large⟩
      exact absurd (small i member v inside) (Nat.not_le.mpr large)
    · simp only [not_forall, exists_prop, Nat.not_le] at small
      obtain ⟨listed, printed, i, member, v, inside, large, position, fails⟩ :=
        fails_of_large assembled small
      refine ⟨listed, printed, ⟨fun again => ?_, fun all => ?_⟩,
        fun _ => ⟨i, member, v, inside, large, position, fails⟩⟩
      · rw [fails] at again
        cases again
      · exact absurd (all i member v inside) (Nat.not_le.mpr large)

/-- A source text with a label, a comment and operands of every kind, and a stream with a literal
that no source text has. -/
theorem reassembles_long_literal :
    let source := "again: MovD 3, 70000 ; low\n  sub 1, 464\njeq [3], top, word 7\npop"
    let code : List UInt8 := [0xED, 0x03, 0xD2, 0x00, 0x01, 0x11, 0x70, 0xA1, 0x01, 0xD0, 0xD0,
      0xF0, 0xC0, 0xD0, 0x03, 0xB0, 0xD1, 0x00, 0x07, 0xFC]
    let s := TokenStream.ofTokenList
      [⟨.identifier "movq", ⟨1, 1, 0⟩⟩, ⟨.literal (.byte 3), ⟨1, 6, 5⟩⟩,
        ⟨.mark .comma, ⟨1, 7, 6⟩⟩, ⟨.literal (.long 1099511627776), ⟨1, 9, 8⟩⟩]
    let wide : List UInt8 :=
      [0xEC, 0x03, 0xD3, 0x00, 0x00, 0x01, 0x00, 0x00, 0x00, 0x00, 0x00]
    (Assembly.ofSource source = .ok ⟨code, [("again", 0)]⟩ ∧ ∃ listed, text code = .ok listed ∧
      (Assembly.ofSource listed).map Assembly.code = .ok code) ∧
    (Assembly.ofStream s = .ok ⟨wide, []⟩ ∧ ∃ listed, text wide = .ok listed ∧
      ∃ position digits, Assembly.ofSource listed =
        .error ⟨position, .lexical (.integerOutOfRange digits)⟩) := by
  intro source code s wide
  have first : Assembly.ofSource source = .ok ⟨code, [("again", 0)]⟩ := by decide +kernel
  have second : Assembly.ofStream s = .ok ⟨wide, []⟩ := by decide +kernel
  have parsed : (Parsed.ofStream s.reset).instructions =
      [⟨.movq, [.literal 3, .immediate (.ofNat .quadWord 1099511627776)]⟩] := by decide +kernel
  refine ⟨⟨first, reassembles.1 _ _ first⟩, second, ?_⟩
  obtain ⟨listed, printed, _, fails⟩ := reassembles.2 _ _ second
  have large : ∃ i ∈ (Parsed.ofStream s.reset).instructions, ∃ v,
      .immediate v ∈ i.operands ∧ 2147483647 < v.toNat := by
    rw [parsed]
    exact ⟨_, .head _, .ofNat .quadWord 1099511627776, by simp, by decide +kernel⟩
  obtain ⟨_, _, v, _, _, position, unread⟩ := fails large
  exact ⟨listed, printed, position, toString v.toNat, unread⟩

end Listing
end OctetMachine
