import Mathlib
import OctetMachine.Proofs.Statement.Language

/-! Parsing depends on what tokens mean. Two streams whose tokens mean the same, one by one, are
parsed in step: either both give the same statement, or both fail for the same reason. How
positions correspond is left open, so that it can be chosen afterwards; whatever it is,
corresponding positions come out if corresponding positions go in. -/
namespace OctetMachine

/-- Tokens that mean the same: words up to case, literals of one value, and the same marks. -/
inductive Token.Alike : Token → Token → Prop where
  | identifier {a b : String} (same : Text.sameSpelling a b = true) :
      Alike (.identifier a) (.identifier b)
  | literal {k l : Literal} (same : k.value = l.value) : Alike (.literal k) (.literal l)
  | mark (m : Mark) : Alike (.mark m) (.mark m)

/-- Complaints of one kind, about the same or about tokens that mean the same. -/
inductive SourceCause.Alike : SourceCause → SourceCause → Prop where
  | unexpectedToken {t u : Token} (expected : Expectation) (same : t.Alike u) :
      Alike (.unexpected expected (.token t)) (.unexpected expected (.token u))
  | unexpectedEnd (expected : Expectation) :
      Alike (.unexpected expected .endOfInput) (.unexpected expected .endOfInput)
  | unknownInstruction {a b : String} (same : Text.sameSpelling a b = true) :
      Alike (.unknownInstruction a) (.unknownInstruction b)
  | unsupported (refusal : Refusal) : Alike (.unsupported refusal) (.unsupported refusal)
  | duplicateLabel (name : String) : Alike (.duplicateLabel name) (.duplicateLabel name)
  | labelOperand : Alike .labelOperand .labelOperand

theorem Token.Alike.refl (t : Token) : t.Alike t := by
  cases t with
  | identifier name => exact .identifier (Text.sameSpelling_iff.mpr rfl)
  | literal l => exact .literal rfl
  | mark m => exact .mark m

theorem Token.Alike.eq_mark_iff {t u : Token} (same : t.Alike u) (m : Mark) :
    t = .mark m ↔ u = .mark m := by
  cases same with
  | identifier | literal => simp
  | mark => rfl

section Correspondence

variable (R : Position → Position → Prop)

structure PlacedToken.Alike (a b : PlacedToken) : Prop where
  token : a.token.Alike b.token
  position : R a.position b.position

structure SourceError.Alike (e f : SourceError) : Prop where
  position : R e.position f.position
  cause : e.cause.Alike f.cause

structure Statement.Alike (a b : Statement) : Prop where
  position : R a.position b.position
  kind : a.kind = b.kind

/-- Tokens that mean the same one by one. A word before a colon names a label, and there the letters
count as they are. -/
inductive PlacedToken.AllAlike : List PlacedToken → List PlacedToken → Prop where
  | nil : AllAlike [] []
  | cons {a b : PlacedToken} {as bs : List PlacedToken} (first : a.Alike R b)
      (named : as.head?.map (·.token) = some (.mark .colon) →
        a.token.identifier? = b.token.identifier?)
      (others : AllAlike as bs) : AllAlike (a :: as) (b :: bs)

structure TokenStream.Alike (s t : TokenStream) : Prop where
  ahead : PlacedToken.AllAlike R s.ahead t.ahead
  finish : R s.finish t.finish

end Correspondence

theorem TokenStream.Alike.peek?_iff {R : Position → Position → Prop} {s t : TokenStream}
    (alike : s.Alike R t) (m : Mark) :
    s.peek?.map (·.token) = some (.mark m) ↔ t.peek?.map (·.token) = some (.mark m) := by
  obtain ⟨_, ahead, _⟩ := s
  obtain ⟨_, ahead', _⟩ := t
  obtain ⟨tokens, _⟩ := alike
  dsimp only at tokens
  cases tokens with
  | nil => rfl
  | cons first named others => simpa [peek?] using first.token.eq_mark_iff m

namespace Parser

/-- Two results that come to the same: corresponding values with streams alike, or errors alike. -/
inductive Parallel (R : Position → Position → Prop) {α β : Type} (V : α → β → Prop) :
    EStateM.Result SourceError TokenStream α → EStateM.Result SourceError TokenStream β → Prop where
  | ok {a : α} {b : β} {s t : TokenStream} (value : V a b) (rest : s.Alike R t) :
      Parallel R V (.ok a s) (.ok b t)
  | error {e f : SourceError} {s t : TokenStream} (same : e.Alike R f) :
      Parallel R V (.error e s) (.error f t)

/-- Parsers that come to the same on streams alike. -/
def InStep (R : Position → Position → Prop) {α β : Type} (V : α → β → Prop) (p : Parser α)
    (q : Parser β) : Prop :=
  ∀ s t : TokenStream, s.Alike R t → Parallel R V (p s) (q t)

section Combinators

variable {R : Position → Position → Prop} {α β γ δ : Type} {V : α → β → Prop} {W : γ → δ → Prop}

theorem inStep_pure {a : α} {b : β} (same : V a b) : InStep R V (pure a) (pure b) :=
  fun _ _ alike => .ok same alike

theorem inStep_fail {p q : Position} {c d : SourceCause} (place : R p q) (cause : c.Alike d) :
    InStep R V (fail p c) (fail q d) :=
  fun _ _ _ => .error ⟨place, cause⟩

theorem Parallel.bind {p : Parser α} {q : Parser β} {f : α → Parser γ} {g : β → Parser δ}
    {s t : TokenStream} (first : Parallel R V (p s) (q t))
    (last : ∀ a b, V a b → InStep R W (f a) (g b)) : Parallel R W ((p >>= f) s) ((q >>= g) t) := by
  simp only [Bind.bind, EStateM.bind]
  generalize p s = x at first ⊢
  generalize q t = y at first ⊢
  cases first with
  | ok value rest => exact last _ _ value _ _ rest
  | error same => exact .error same

theorem InStep.bind {p : Parser α} {q : Parser β} {f : α → Parser γ} {g : β → Parser δ}
    (first : InStep R V p q) (last : ∀ a b, V a b → InStep R W (f a) (g b)) :
    InStep R W (p >>= f) (q >>= g) :=
  fun s t alike => (first s t alike).bind last

theorem Parallel.map {p : Parser α} {q : Parser β} {f : α → γ} {g : β → δ} {s t : TokenStream}
    (same : Parallel R V (p s) (q t)) (maps : ∀ a b, V a b → W (f a) (g b)) :
    Parallel R W ((f <$> p) s) ((g <$> q) t) := by
  simp only [Functor.map, EStateM.map]
  generalize p s = x at same ⊢
  generalize q t = y at same ⊢
  cases same with
  | ok value rest => exact .ok (maps _ _ value) rest
  | error same => exact .error same

theorem inStep_accept {p q : Position} (place : R p q) (answer : Except Refusal α) :
    InStep R Eq (accept p answer) (accept q answer) := by
  cases answer with
  | ok a => exact inStep_pure rfl
  | error refusal => exact inStep_fail place (.unsupported refusal)

end Combinators

section Parsers

variable {R : Position → Position → Prop}

theorem inStep_take (expected : Expectation) :
    InStep R (PlacedToken.Alike R) (take expected) (take expected) := by
  rintro ⟨_, ahead, finish⟩ ⟨_, ahead', finish'⟩ ⟨tokens, place⟩
  dsimp only at tokens place
  cases tokens with
  | nil => exact .error ⟨place, .unexpectedEnd expected⟩
  | cons first named others => exact .ok first ⟨others, place⟩

theorem inStep_mark (m : Mark) : InStep R Eq (mark m) (mark m) := by
  refine (inStep_take _).bind fun a b same => ?_
  by_cases hit : a.token = .mark m
  · rw [if_pos hit, if_pos ((same.token.eq_mark_iff m).mp hit)]
    exact inStep_pure rfl
  · rw [if_neg hit, if_neg fun other => hit ((same.token.eq_mark_iff m).mpr other)]
    exact inStep_fail same.position (.unexpectedToken _ same.token)

theorem inStep_magnitude {p q : Position} {k l : Int} (place : R p q) (same : k = l) :
    InStep R Eq (magnitude p k) (magnitude q l) := by
  cases same
  cases k with
  | ofNat n => exact inStep_pure rfl
  | negSucc n => exact inStep_fail place (.unsupported .negative)

theorem inStep_integer :
    InStep R (fun a b => a.1 = b.1 ∧ R a.2 b.2) integer integer := by
  refine (inStep_take _).bind fun ⟨t, p⟩ ⟨u, q⟩ ⟨same, place⟩ => ?_
  dsimp only at same place ⊢
  cases same with
  | literal value =>
    exact (inStep_magnitude place value).bind fun _ _ same => inStep_pure ⟨same, place⟩
  | identifier spelling => exact inStep_fail place (.unexpectedToken _ (.identifier spelling))
  | mark m =>
    cases m with
    | minus => exact inStep_fail place (.unsupported .negative)
    | _ => exact inStep_fail place (.unexpectedToken _ (.mark _))

theorem inStep_reference : InStep R Eq reference reference := by
  refine inStep_integer.bind fun ⟨n, p⟩ ⟨n', q⟩ ⟨same, place⟩ => ?_
  dsimp only at same place ⊢
  cases same
  split
  · exact (inStep_mark _).bind fun _ _ _ => inStep_pure rfl
  · exact inStep_fail place (.unsupported _)

theorem inStep_sizedImmediate (op : Opcode) (slot : Slot) (w : Width) {p q : Position}
    (place : R p q) : InStep R Eq (sizedImmediate op slot w p) (sizedImmediate op slot w q) := by
  refine (inStep_accept place _).bind fun _ _ _ => inStep_integer.bind ?_
  rintro ⟨n, p⟩ ⟨_, q⟩ ⟨rfl, place⟩
  exact inStep_accept place _

theorem inStep_keyword (op : Opcode) (slot : Slot) {a b : String}
    (same : Text.sameSpelling a b = true) {p q : Position} (place : R p q) :
    InStep R Eq (keyword op slot a p) (keyword op slot b q) := by
  have folded := Text.sameSpelling_iff.mp same
  have top : Text.sameSpelling "TOP" a = Text.sameSpelling "TOP" b := by
    rw [Text.sameSpelling, Text.sameSpelling, folded]
  unfold keyword
  rw [top, Width.ofKeyword?_congr folded]
  split
  · split
    · exact inStep_fail place (.unsupported _)
    · exact inStep_pure rfl
  · split
    · exact inStep_sizedImmediate op slot _ place
    · exact inStep_fail place .labelOperand

theorem inStep_operand (op : Opcode) (slot : Slot) :
    InStep R Eq (operand op slot) (operand op slot) := by
  refine (inStep_take _).bind fun ⟨t, p⟩ ⟨u, q⟩ ⟨same, place⟩ => ?_
  dsimp only at same place ⊢
  cases same with
  | identifier spelling => exact inStep_keyword op slot spelling place
  | literal value =>
    refine (inStep_magnitude place value).bind ?_
    rintro n _ rfl
    exact inStep_accept place _
  | mark m =>
    cases m with
    | openBracket => exact inStep_reference
    | minus => exact inStep_fail place (.unsupported .negative)
    | _ => exact inStep_fail place (.unexpectedToken _ (.mark _))

theorem inStep_separator (slot : Slot) : InStep R Eq (separator slot) (separator slot) := by
  cases slot with
  | leading => exact inStep_pure rfl
  | trailing => exact inStep_mark _

theorem inStep_operands (op : Opcode) (slots : List Slot) :
    InStep R Eq (operands op slots) (operands op slots) := by
  induction slots with
  | nil => exact inStep_pure rfl
  | cons slot slots ih =>
    refine (inStep_separator slot).bind fun _ _ _ => (inStep_operand op slot).bind ?_
    rintro o _ rfl
    exact ih.bind fun os os' same => inStep_pure (congrArg (o :: ·) same)

end Parsers

section Statements

variable {R : Position → Position → Prop} {s t : TokenStream}

/-- Before a colon the names have to be the same, since they come out as a label. -/
theorem parallel_statementNamed {a b : String} {p q : Position} (alike : s.Alike R t)
    (same : Text.sameSpelling a b = true) (place : R p q)
    (named : s.peek?.map (·.token) = some (.mark .colon) → a = b) :
    Parallel R Eq (statementNamed a p s) (statementNamed b q t) := by
  by_cases colon : s.peek?.map (·.token) = some (.mark .colon)
  · rw [statementNamed_of_colon a p colon,
      statementNamed_of_colon b q ((alike.peek?_iff .colon).mp colon), named colon]
    exact ((inStep_mark .colon).bind fun _ _ _ => inStep_pure rfl) s t alike
  · have colon' := fun other => colon ((alike.peek?_iff .colon).mpr other)
    have mnemonic := Opcode.ofMnemonic?_congr (Text.sameSpelling_iff.mp same)
    cases known : Opcode.ofMnemonic? a with
    | none =>
      rw [statementNamed_of_unknown p colon known,
        statementNamed_of_unknown q colon' (mnemonic.symm.trans known)]
      exact inStep_fail place (.unknownInstruction same) s t alike
    | some op =>
      rw [statementNamed_of_mnemonic p colon known,
        statementNamed_of_mnemonic q colon' (mnemonic.symm.trans known)]
      refine ((inStep_operands op op.slots).bind ?_) s t alike
      rintro os _ rfl
      exact inStep_pure rfl

theorem parallel_statementAt {a b : PlacedToken} (alike : s.Alike R t) (same : a.Alike R b)
    (named : s.peek?.map (·.token) = some (.mark .colon) →
      a.token.identifier? = b.token.identifier?) :
    Parallel R (Statement.Alike R) (statementAt a s) (statementAt b t) := by
  obtain ⟨token, p⟩ := a
  obtain ⟨token', q⟩ := b
  obtain ⟨same, place⟩ := same
  dsimp only at same place named
  cases same with
  | identifier spelling =>
    have kinds := parallel_statementNamed alike spelling place fun colon =>
      Option.some.inj (named colon)
    exact kinds.bind fun _ _ kind => inStep_pure ⟨place, kind⟩
  | literal value => exact .error ⟨place, .unexpectedToken _ (.literal value)⟩
  | mark m => exact .error ⟨place, .unexpectedToken _ (.mark m)⟩

/-- Streams alike are parsed in step, one statement at a time. -/
theorem inStep_statement :
    InStep R (Option.Rel (Statement.Alike R)) statement statement := by
  rintro ⟨behind, ahead, finish⟩ ⟨behind', ahead', finish'⟩ ⟨tokens, place⟩
  dsimp only at tokens place
  cases tokens with
  | nil => exact .ok .none ⟨.nil, place⟩
  | @cons a b as bs first named others =>
    have rest : TokenStream.Alike R ⟨a :: behind, as, finish⟩ ⟨b :: behind', bs, finish'⟩ :=
      ⟨others, place⟩
    exact (parallel_statementAt rest first named).map fun _ _ same => .some same

end Statements
end Parser
end OctetMachine
