import OctetMachine.Assembly
import OctetMachine.Parts
import OctetMachine.Proofs.Listing.Decoding
import OctetMachine.Proofs.Statement.Expressible
import OctetMachine.Proofs.Statement.Parsing

/-! The code of an assembly is the encodings of the instructions that were parsed, and nothing in it
can be read as anything else. -/
namespace OctetMachine

def Statement.instruction? (st : Statement) : Option Instruction :=
  match st.kind with
  | .label _ => none
  | .instruction i => some i

namespace Parsed

/-- The instructions among the statements, in order. -/
def instructions (p : Parsed) : List Instruction := p.statements.filterMap Statement.instruction?

theorem ofStream_of_ahead_eq_nil {s : TokenStream} (ended : s.ahead = []) :
    ofStream s = ⟨[], none⟩ := by
  have parsed : Parser.statement s = .ok none s := Parser.statement_eq_ok_none_iff.mpr ⟨ended, rfl⟩
  rw [ofStream]
  split <;> simp_all

/-- One turn of the parsing loop. -/
theorem ofStream_of_statement {s t : TokenStream} {st : Statement}
    (parsed : Parser.statement s = .ok (some st) t) :
    ofStream s = ⟨st :: (ofStream t).statements, (ofStream t).failure⟩ := by
  rw [ofStream]
  split <;> simp_all

/-- Every statement is spelled by some of the tokens, side by side in the stream. -/
theorem spelled_of_mem {s : TokenStream} {st : Statement} (member : st ∈ (ofStream s).statements) :
    ∃ taken, taken <:+: s.ahead ∧ st.kind.Spelled (taken.map (·.token)) := by
  fun_induction ofStream s with
  | case1 => cases member
  | case2 => cases member
  | case3 s st' rest parsed others ih =>
    obtain ⟨first, tail, passes, _, spelled, _⟩ := Parser.statement_eq_ok_some_iff.mp parsed
    rcases List.mem_cons.mp member with rfl | member
    · exact ⟨first :: tail, ⟨[], rest.ahead, passes.1.symm⟩, spelled⟩
    · obtain ⟨taken, inside, spelled⟩ := ih member
      have later : rest.ahead <:+ s.ahead := ⟨first :: tail, passes.1.symm⟩
      exact ⟨taken, inside.trans later.isInfix, spelled⟩

theorem spelled_of_mem_instructions {s : TokenStream} {i : Instruction}
    (member : i ∈ (ofStream s).instructions) :
    ∃ taken, taken <:+: s.ahead ∧
      StatementKind.Spelled (taken.map (·.token)) (.instruction i) := by
  obtain ⟨⟨position, kind⟩, found, here⟩ := List.mem_filterMap.mp member
  cases kind with
  | label name => cases here
  | instruction j =>
    cases here
    exact spelled_of_mem found

theorem expressible_of_mem {s : TokenStream} {i : Instruction}
    (member : i ∈ (ofStream s).instructions) : i.Expressible := by
  obtain ⟨_, _, spelled⟩ := spelled_of_mem_instructions member
  exact Instruction.expressible_of_spelled spelled

end Parsed

namespace Assembly

theorem ofStream_eq_ok_iff {s : TokenStream} {a : Assembly} :
    ofStream s = .ok a ↔ layout 0 [] (Parsed.ofStream s.reset).statements = .ok a ∧
      (Parsed.ofStream s.reset).failure = none := by
  simp only [ofStream]
  split <;> simp_all

theorem code_of_layout {offset : Nat} {seen : List String} {statements : List Statement}
    {a : Assembly} (laid : layout offset seen statements = .ok a) :
    a.code = (statements.filterMap Statement.instruction?).flatMap Instruction.encode := by
  induction statements generalizing offset seen a with
  | nil =>
    cases laid
    rfl
  | cons st statements ih =>
    obtain ⟨position, kind⟩ := st
    cases kind with
    | label name =>
      simp only [layout] at laid
      split at laid
      · cases laid
      · obtain ⟨b, others, rfl⟩ := ok_map_iff.mp laid
        have same := ih others
        exact same
    | instruction i =>
      obtain ⟨b, others, rfl⟩ := ok_map_iff.mp laid
      simp [Statement.instruction?, ih others]

theorem code_of_ofStream {s : TokenStream} {a : Assembly} (assembled : ofStream s = .ok a) :
    a.code = (Parsed.ofStream s.reset).instructions.flatMap Instruction.encode :=
  code_of_layout (ofStream_eq_ok_iff.mp assembled).1

theorem decode_code {s : TokenStream} {a : Assembly} (assembled : ofStream s = .ok a) :
    Listing.decode a.code =
      .ok (Listing.ofInstructions 0 (Parsed.ofStream s.reset).instructions) := by
  apply Listing.decode_eq_ok_iff.mpr
  refine ⟨_, ?_, code_of_ofStream assembled, rfl⟩
  intro i member
  exact (Parsed.expressible_of_mem member).encodable

/-- No byte of an assembly is ambiguous. The parsed instructions have encodings that read back, the
code is these side by side, and its listing is the parsed instructions at the sums of the lengths
before them. -/
theorem code_is_unambiguous {s : TokenStream} {a : Assembly} (assembled : ofStream s = .ok a) :
    let is := (Parsed.ofStream s.reset).instructions
    (∀ i ∈ is, i.Encodable) ∧
    a.code = is.flatMap Instruction.encode ∧
    Listing.decode a.code =
      .ok (is.mapIdx fun k i => ⟨((is.take k).map Instruction.encodedLength).sum, i⟩) := by
  intro is
  refine ⟨?_, code_of_ofStream assembled, ?_⟩
  · intro i member
    exact (Parsed.expressible_of_mem member).encodable
  · simpa [Listing.ofInstructions] using decode_code assembled

/-- A label, and a number whose low byte would open an immediate where it stands. -/
theorem code_is_unambiguous_escaped_byte :
    let s := TokenStream.ofTokenList
      [⟨.identifier "again", ⟨1, 1, 0⟩⟩, ⟨.mark .colon, ⟨1, 6, 5⟩⟩,
        ⟨.identifier "sub", ⟨2, 1, 7⟩⟩, ⟨.literal (.byte 1), ⟨2, 5, 11⟩⟩,
        ⟨.mark .comma, ⟨2, 6, 12⟩⟩, ⟨.literal (.short 464), ⟨2, 8, 14⟩⟩]
    ofStream s = .ok ⟨[0xA1, 0x01, 0xD0, 0xD0], [("again", 0)]⟩ ∧
    (∀ i ∈ (Parsed.ofStream s.reset).instructions, i.Encodable) ∧
    (Parsed.ofStream s.reset).instructions =
      [⟨.sub, [.literal 1, .immediate (.ofByte 0xD0)]⟩] := by
  intro s
  have assembled : ofStream s = .ok ⟨[0xA1, 0x01, 0xD0, 0xD0], [("again", 0)]⟩ := by
    decide +kernel
  exact ⟨assembled, (code_is_unambiguous assembled).1, by decide +kernel⟩

end Assembly
end OctetMachine
