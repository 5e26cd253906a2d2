import OctetMachine.Proofs.Statement.Grammar
import OctetMachine.Proofs.Statement.Recognition

/-! The parsers of operands and statements recognize the grammar. -/
namespace OctetMachine.Parser

theorem recognizes_reference (op : Opcode) (slot : Slot) :
    Recognizes reference fun taken o =>
      Operand.Spelled op slot (.mark .openBracket :: taken.map (·.token)) o := by
  unfold reference
  refine (recognizes_integer.bind (M := fun found back o => found.1 < 256 ∧
    back.map (·.token) = [.mark .closeBracket] ∧
      o = Operand.reference (.ofByte found.1.toUInt8)) ?_).congr ?_
  · rintro ⟨n, position⟩
    dsimp only
    split
    · rename_i small
      refine ((recognizes_mark .closeBracket).bind fun _ => recognizes_pure _).congr
        fun back o => ?_
      constructor
      · rintro ⟨_, _, _, rfl, close, rfl, rfl⟩
        exact ⟨small, by simpa using close, rfl⟩
      · rintro ⟨-, close, rfl⟩
        exact ⟨back, [], (), by simp, close, rfl, rfl⟩
    · rename_i large
      exact (recognizes_fail _ _).congr fun back o => by simp [large]
  · intro taken o
    rw [Operand.spelled_bracket_iff]
    constructor
    · rintro ⟨_, back, ⟨n, position⟩, rfl, ⟨l, rfl, value⟩, small, close, rfl⟩
      refine ⟨l, n.toUInt8, by simpa using close, ?_, rfl⟩
      simpa [Nat.mod_eq_of_lt small] using value
    · rintro ⟨l, address, tokens, value, rfl⟩
      obtain ⟨⟨_, position⟩, back, rfl, rfl, close⟩ := List.map_eq_cons_iff.mp tokens
      exact ⟨[⟨.literal l, position⟩], back, (address.toNat, position), rfl, ⟨l, rfl, value⟩,
        address.toNat_lt, close, by simp⟩

theorem recognizes_sizedImmediate (op : Opcode) (slot : Slot) (w : Width) (position : Position) :
    Recognizes (sizedImmediate op slot w position) fun taken o => ∃ (l : Literal) (n : Nat),
      taken.map (·.token) = [.literal l] ∧ l.value = n ∧
        LiteralMode.admits op w (.ofSlot op slot) = .ok () ∧ Operand.ofSized w n = .ok o := by
  refine ((recognizes_accept position _).bind fun _ => recognizes_integer.bind fun found =>
    recognizes_accept found.2 (Operand.ofSized w found.1)).congr fun taken o => ?_
  constructor
  · rintro ⟨_, _, _, rfl, ⟨rfl, admitted⟩, _, _, ⟨n, place⟩, rfl, ⟨l, rfl, value⟩, rfl, accepted⟩
    exact ⟨l, n, rfl, value, admitted, accepted⟩
  · rintro ⟨l, n, tokens, value, admitted, accepted⟩
    obtain ⟨⟨_, place⟩, back, rfl, rfl, none⟩ := List.map_eq_cons_iff.mp tokens
    cases List.map_eq_nil_iff.mp none
    exact ⟨[], _, (), rfl, ⟨rfl, admitted⟩, _, [], (n, place), rfl, ⟨l, rfl, value⟩, rfl, accepted⟩

theorem recognizes_keyword (op : Opcode) (slot : Slot) (name : String) (position : Position) :
    Recognizes (keyword op slot name position) fun taken o =>
      Operand.Spelled op slot (.identifier name :: taken.map (·.token)) o := by
  unfold keyword
  split
  · rename_i top
    have noWidth := Width.ofKeyword?_eq_none_of_top top
    split
    · rename_i destination
      refine (recognizes_fail _ _).congr fun taken o => ?_
      simp [Operand.spelled_word_iff, destination, noWidth]
    · rename_i readable
      refine (recognizes_pure _).congr fun taken o => ?_
      simp only [Operand.spelled_word_iff, top, readable, noWidth]
      simp
  · rename_i noTop
    cases width : Width.ofKeyword? name with
    | some w =>
      refine (recognizes_sizedImmediate op slot w position).congr fun taken o => ?_
      simp [Operand.spelled_word_iff, noTop, width]
    | none =>
      refine (recognizes_fail _ _).congr fun taken o => ?_
      simp [Operand.spelled_word_iff, noTop, width]

theorem recognizes_literal (op : Opcode) (slot : Slot) (l : Literal) (position : Position) :
    Recognizes (do
        let literal ← magnitude position l.value
        accept position (Operand.ofLiteral (.ofSlot op slot) literal))
      fun taken o => Operand.Spelled op slot (.literal l :: taken.map (·.token)) o := by
  refine ((recognizes_magnitude position l.value).bind fun n =>
    recognizes_accept position (Operand.ofLiteral (.ofSlot op slot) n)).congr fun taken o => ?_
  rw [Operand.spelled_literal_iff, List.map_eq_nil_iff]
  constructor
  · rintro ⟨_, _, n, rfl, ⟨rfl, value⟩, rfl, accepted⟩
    exact ⟨rfl, n, value, accepted⟩
  · rintro ⟨rfl, n, value, accepted⟩
    exact ⟨[], [], n, rfl, ⟨rfl, value⟩, rfl, accepted⟩

theorem recognizes_operand (op : Opcode) (slot : Slot) :
    Recognizes (operand op slot) fun taken o =>
      Operand.Spelled op slot (taken.map (·.token)) o := by
  unfold operand
  refine (recognizes_take_bind (M := fun t back o =>
    Operand.Spelled op slot (t.token :: back.map (·.token)) o) ?_).congr ?_
  · rintro ⟨token, position⟩
    cases token with
    | identifier name => exact recognizes_keyword op slot name position
    | literal l => exact recognizes_literal op slot l position
    | mark m =>
      -- No operand begins with any other mark.
      cases m with
      | openBracket => exact recognizes_reference op slot
      | _ => exact (recognizes_fail _ _).congr fun back o => ⟨False.elim, nofun⟩
  · intro taken o
    constructor
    · rintro ⟨first, back, rfl, spelled⟩
      exact spelled
    · intro spelled
      cases taken with
      | nil => cases spelled
      | cons first back => exact ⟨first, back, rfl, spelled⟩

theorem recognizes_separator (slot : Slot) :
    Recognizes (separator slot) fun taken _ => taken.map (·.token) = slot.separator := by
  cases slot with
  | leading => exact (recognizes_pure ()).congr fun taken _ => by simp [Slot.separator]
  | trailing => exact recognizes_mark .comma

theorem recognizes_operands (op : Opcode) (slots : List Slot) :
    Recognizes (operands op slots) fun taken os =>
      Operand.AllSpelled op slots (taken.map (·.token)) os := by
  induction slots with
  | nil =>
    refine (recognizes_pure []).congr fun taken os => ?_
    constructor
    · rintro ⟨rfl, rfl⟩
      exact .nil
    · generalize tokens : taken.map (·.token) = ts
      intro spelled
      cases spelled
      exact ⟨List.map_eq_nil_iff.mp tokens, rfl⟩
  | cons slot slots ih =>
    refine ((recognizes_separator slot).bind fun _ => (recognizes_operand op slot).bind fun o =>
      ih.bind fun os => recognizes_pure (o :: os)).congr fun taken os => ?_
    constructor
    · rintro ⟨a, _, _, rfl, comma, b, _, o, rfl, first, c, _, rest, rfl, others, rfl, rfl⟩
      simpa [comma] using Operand.AllSpelled.cons first others
    · generalize tokens : taken.map (·.token) = ts
      intro spelled
      cases spelled with
      | cons first others =>
        obtain ⟨ab, c, rfl, front, rfl⟩ := List.map_eq_append_iff.mp tokens
        obtain ⟨a, b, rfl, comma, rfl⟩ := List.map_eq_append_iff.mp front
        exact ⟨a, b ++ c, (), by simp, comma, b, c, _, rfl, first, c, [], _, by simp, others,
          rfl, rfl⟩

/-- A colon behind its first word makes a statement a label. -/
theorem statementNamed_of_colon {s : TokenStream} (name : String) (position : Position)
    (colon : s.peek?.map (·.token) = some (.mark .colon)) :
    statementNamed name position s = (do mark .colon; return .label name : Parser StatementKind) s :=
  congrFun (if_pos colon) s

theorem statementNamed_of_mnemonic {s : TokenStream} {name : String} {op : Opcode}
    (position : Position) (noColon : s.peek?.map (·.token) ≠ some (.mark .colon))
    (known : Opcode.ofMnemonic? name = some op) :
    statementNamed name position s =
      (do return .instruction ⟨op, ← operands op op.slots⟩ : Parser StatementKind) s := by
  unfold statementNamed
  rw [known]
  exact congrFun (if_neg noColon) s

theorem statementNamed_of_unknown {s : TokenStream} {name : String} (position : Position)
    (noColon : s.peek?.map (·.token) ≠ some (.mark .colon))
    (unknown : Opcode.ofMnemonic? name = none) :
    statementNamed name position s = fail position (.unknownInstruction name) s := by
  unfold statementNamed
  rw [unknown]
  exact congrFun (if_neg noColon) s

theorem statementNamed_eq_ok_iff {name : String} {position : Position} {s t : TokenStream}
    {kind : StatementKind} :
    statementNamed name position s = .ok kind t ↔ ∃ taken, s.Passes taken t ∧
      kind.Spelled (.identifier name :: taken.map (·.token)) ∧
        ∀ i, kind = .instruction i → s.peek?.map (·.token) ≠ some (.mark .colon) := by
  simp only [StatementKind.spelled_word_iff]
  by_cases colon : s.peek?.map (·.token) = some (.mark .colon)
  · rw [statementNamed_of_colon name position colon,
      ((recognizes_mark .colon).bind fun _ => recognizes_pure (StatementKind.label name)) s kind t]
    constructor
    · rintro ⟨_, passes, taken, _, _, rfl, tokens, rfl, rfl⟩
      rw [List.append_nil] at passes
      refine ⟨taken, passes, .inl ⟨tokens, rfl⟩, ?_⟩
      intro i other
      cases other
    · rintro ⟨taken, passes, ⟨tokens, rfl⟩ | ⟨op, os, _, _, rfl⟩, noColon⟩
      · exact ⟨taken, passes, taken, [], (), by simp, tokens, rfl, rfl⟩
      · exact absurd colon (noColon _ rfl)
  · have noLabel : ∀ taken : List PlacedToken, s.Passes taken t →
        taken.map (·.token) ≠ [.mark .colon] := by
      intro taken passes tokens
      obtain ⟨first, back, rfl, same, _⟩ := List.map_eq_cons_iff.mp tokens
      apply colon
      simp [TokenStream.peek?, passes.1, same]
    cases known : Opcode.ofMnemonic? name with
    | none =>
      rw [statementNamed_of_unknown position colon known]
      constructor
      · intro result
        cases result
      · rintro ⟨taken, passes, ⟨tokens, _⟩ | ⟨op, os, mnemonic, _⟩, -⟩
        · exact absurd tokens (noLabel taken passes)
        · cases mnemonic
    | some op =>
      rw [statementNamed_of_mnemonic position colon known,
        ((recognizes_operands op op.slots).bind fun os =>
          recognizes_pure (StatementKind.instruction ⟨op, os⟩)) s kind t]
      constructor
      · rintro ⟨_, passes, taken, _, os, rfl, spelled, rfl, rfl⟩
        rw [List.append_nil] at passes
        exact ⟨taken, passes, .inr ⟨op, os, rfl, spelled, rfl⟩, fun _ _ => colon⟩
      · rintro ⟨taken, passes, ⟨tokens, _⟩ | ⟨_, os, mnemonic, spelled, rfl⟩, -⟩
        · exact absurd tokens (noLabel taken passes)
        · cases mnemonic
          exact ⟨taken, passes, taken, [], os, by simp, spelled, rfl, rfl⟩

theorem statementAt_eq_ok_iff {first : PlacedToken} {s t : TokenStream} {st : Statement} :
    statementAt first s = .ok st t ↔ ∃ rest, s.Passes rest t ∧ st.position = first.position ∧
      st.kind.Spelled (first.token :: rest.map (·.token)) ∧
        ∀ i, st.kind = .instruction i → s.peek?.map (·.token) ≠ some (.mark .colon) := by
  obtain ⟨token, position⟩ := first
  obtain ⟨place, kind⟩ := st
  cases token with
  | identifier name =>
    simp only [statementAt, bind_eq_ok_iff, statementNamed_eq_ok_iff]
    constructor
    · rintro ⟨_, _, ⟨rest, passes, spelled, noColon⟩, result⟩
      cases result
      exact ⟨rest, passes, rfl, spelled, noColon⟩
    · rintro ⟨rest, passes, rfl, spelled, noColon⟩
      exact ⟨kind, t, ⟨rest, passes, spelled, noColon⟩, rfl⟩
  | literal l =>
    refine ⟨nofun, ?_⟩
    rintro ⟨_, _, _, spelled, -⟩
    cases spelled
  | mark m =>
    refine ⟨nofun, ?_⟩
    rintro ⟨_, _, _, spelled, -⟩
    cases spelled

/-- A statement is parsed from exactly the tokens that spell it. An instruction's first word must
not be read as a label. -/
theorem statement_eq_ok_some_iff {s t : TokenStream} {st : Statement} :
    statement s = .ok (some st) t ↔ ∃ first rest, s.Passes (first :: rest) t ∧
      st.position = first.position ∧ st.kind.Spelled (first.token :: rest.map (·.token)) ∧
        ∀ i, st.kind = .instruction i →
          s.advance.peek?.map (·.token) ≠ some (.mark .colon) := by
  simp only [TokenStream.passes_cons_iff]
  unfold statement
  cases s.peek? with
  | none => simp
  | some first =>
    have mapped : (some <$> statementAt first) s.advance = .ok (some st) t ↔
        statementAt first s.advance = .ok st t := by
      simp only [Functor.map, EStateM.map]
      cases statementAt first s.advance <;> simp
    rw [mapped, statementAt_eq_ok_iff]
    constructor
    · rintro ⟨rest, passes, meaning⟩
      exact ⟨first, rest, ⟨rfl, passes⟩, meaning⟩
    · rintro ⟨_, rest, ⟨same, passes⟩, meaning⟩
      cases same
      exact ⟨rest, passes, meaning⟩

theorem statement_eq_ok_none_iff {s t : TokenStream} :
    statement s = .ok none t ↔ s.ahead = [] ∧ t = s := by
  obtain ⟨behind, ahead, finish⟩ := s
  cases ahead with
  | nil => simp [statement, TokenStream.peek?, eq_comm]
  | cons first rest =>
    simp only [statement, TokenStream.peek?, List.head?_cons, Functor.map, EStateM.map]
    cases statementAt first (TokenStream.advance ⟨behind, first :: rest, finish⟩) <;> simp

end OctetMachine.Parser
