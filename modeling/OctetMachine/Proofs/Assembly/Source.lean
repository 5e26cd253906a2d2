import OctetMachine.Proofs.Assembly.Code
import OctetMachine.Proofs.Token.Reading

/-! Assembling source text. Its literals are bounded, and so are the immediates made from them. -/
namespace OctetMachine

theorem Lexer.value_le_of_scan {offset place : Nat} {text : List Char}
    {placed : List (Nat × Token)} {l : Literal} (scanned : scan offset text = .ok placed)
    (member : (place, .literal l) ∈ placed) : l.value ≤ literalLimit := by
  fun_induction scan offset text generalizing placed with
  | case1 =>
    cases scanned
    cases member
  | case2 _ _ _ _ ih => exact ih scanned member
  | case3 _ _ _ ih => exact ih scanned member
  | case4 =>
    rename_i ih
    obtain ⟨others, rest, rfl⟩ := ok_map_iff.mp scanned
    rcases List.mem_cons.mp member with same | member
    · cases same
    · exact ih rest member
  | case5 =>
    rename_i bound ih
    obtain ⟨others, rest, rfl⟩ := ok_map_iff.mp scanned
    rcases List.mem_cons.mp member with same | member
    · cases same
      rw [Literal.value_integer bound]
      exact Int.ofNat_le.mpr bound
    · exact ih rest member
  | case6 => cases scanned
  | case7 _ _ _ _ _ _ _ _ _ ih =>
    obtain ⟨others, rest, rfl⟩ := ok_map_iff.mp scanned
    rcases List.mem_cons.mp member with same | member
    · cases same
    · exact ih rest member
  | case8 => cases scanned

theorem TokenStream.value_le_of_ofSource {source : String} {s : TokenStream} {t : PlacedToken}
    {l : Literal} (read : ofSource source = .ok s) (member : t ∈ s.tokens)
    (literal : t.token = .literal l) : l.value ≤ Lexer.literalLimit := by
  simp only [ofSource] at read
  split at read
  · rename_i placed scanned
    cases read
    simp only [TokenStream.tokens, ofTokens, List.reverse_nil, List.nil_append] at member
    obtain ⟨⟨place, token⟩, found, rfl⟩ := List.mem_map.mp member
    cases literal
    exact Lexer.value_le_of_scan scanned found
  · cases read

/-- No immediate that was parsed from source text is larger than a literal can be. -/
theorem Parsed.toNat_le_of_ofSource {source : String} {s : TokenStream} {i : Instruction}
    {v : Value} (read : TokenStream.ofSource source = .ok s)
    (member : i ∈ (ofStream s.reset).instructions) (immediate : .immediate v ∈ i.operands) :
    v.toNat ≤ Lexer.literalLimit := by
  obtain ⟨taken, inside, spelled⟩ := spelled_of_mem_instructions member
  obtain ⟨l, found, bound⟩ := Instruction.toNat_le_of_spelled spelled immediate
  obtain ⟨t, taken, literal⟩ := List.mem_map.mp found
  have small := TokenStream.value_le_of_ofSource read (inside.subset taken) literal
  omega

theorem Assembly.ofSource_eq_ok_iff {source : String} {a : Assembly} :
    ofSource source = .ok a ↔ ∃ s, TokenStream.ofSource source = .ok s ∧ ofStream s = .ok a := by
  unfold ofSource
  cases TokenStream.ofSource source with
  | error e => simp
  | ok s => simp

end OctetMachine
