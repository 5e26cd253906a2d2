import OctetMachine.Proofs.Statement.Parsing

/-! What parsers complain about: that the input ended, once all of it was taken, or a token that was
taken. A complaint about a token does not depend on what follows the tokens that were taken, except
that a colon may follow the first word of a statement. -/
namespace OctetMachine

/-- The complaint is that the input ended. -/
def SourceError.AtEnd (e : SourceError) : Prop :=
  ∃ expected found, e.cause = .unexpected expected found ∧ found.text = "end of input"

/-- No token is described like the end of input. -/
theorem Finding.text_eq_endOfInput_iff {found : Finding} :
    found.text = "end of input" ↔ found = .endOfInput := by
  have opening : ∀ t : Token, t.text.toList.head? ≠ "end of input".toList.head? := by
    intro t
    cases t with
    | identifier name => simp [Token.text]
    | literal l => simp [Token.text]
    | mark m => simp [Token.text, Mark.text]
  cases found with
  | token t =>
    refine iff_of_false (fun same => ?_) (by simp)
    exact opening t (congrArg (·.toList.head?) same)
  | endOfInput => simp [text]
  | labelDefinition => simp [text]

theorem SourceError.atEnd_iff {e : SourceError} :
    e.AtEnd ↔ ∃ expected, e.cause = .unexpected expected .endOfInput := by
  simp [AtEnd, Finding.text_eq_endOfInput_iff]

namespace Parser

variable {α β : Type}

/-- Behind tokens that were seen, a parser complains that the input ended, having taken all of it, or
about a token that was seen or that it has taken. In the second case it does so whatever follows the
tokens that it has taken. -/
def Complains (seen : List PlacedToken) (p : Parser α) : Prop :=
  ∀ (s t : TokenStream) (e : SourceError), p s = .error e t → ∃ taken, s.Passes taken t ∧
    ((e.AtEnd ∧ t.ahead = [] ∧ e.position = s.finish) ∨
      (¬ e.AtEnd ∧ (∃ u ∈ seen ++ taken, u.position = e.position) ∧
        ∀ s' t' : TokenStream, s'.Passes taken t' → p s' = .error e t'))

section Combinators

variable {seen : List PlacedToken} {p : Parser α} {f : α → Parser β}

theorem bind_eq_error_iff {s u : TokenStream} {e : SourceError} :
    (p >>= f) s = .error e u ↔
      p s = .error e u ∨ ∃ a t, p s = .ok a t ∧ f a t = .error e u := by
  simp only [Bind.bind, EStateM.bind]
  cases p s with
  | ok a t =>
    constructor
    · intro late
      exact .inr ⟨a, t, rfl, late⟩
    · rintro (early | ⟨_, _, parsed, late⟩)
      · cases early
      · cases parsed
        exact late
  | error e' t => simp

theorem complains_pure (a : α) : Complains seen (pure a) := by
  intro s t e failed
  cases failed

theorem complains_fail {position : Position} {cause : SourceCause}
    (known : ∃ u ∈ seen, u.position = position) (other : ¬ SourceError.AtEnd ⟨position, cause⟩) :
    Complains seen (fail position cause : Parser α) := by
  intro s t e failed
  cases failed
  refine ⟨[], TokenStream.passes_nil_iff.mpr rfl, .inr ⟨other, by simpa using known, ?_⟩⟩
  intro s' t' passes
  rw [TokenStream.passes_nil_iff.mp passes]
  rfl

theorem complains_accept {position : Position} (known : ∃ u ∈ seen, u.position = position)
    (answer : Except Refusal α) : Complains seen (accept position answer) := by
  cases answer with
  | ok a => exact complains_pure a
  | error refusal => exact complains_fail known (by simp [SourceError.atEnd_iff])

/-- A parser may complain about what the parser before it has taken. -/
theorem Complains.bind {L : List PlacedToken → α → Prop} (first : Complains seen p)
    (recognizes : Recognizes p L)
    (last : ∀ front a, L front a → Complains (seen ++ front) (f a)) :
    Complains seen (p >>= f) := by
  intro s u e failed
  rcases bind_eq_error_iff.mp failed with early | ⟨a, t, parsed, late⟩
  · obtain ⟨taken, passes, atEnd | ⟨other, known, again⟩⟩ := first s u e early
    · exact ⟨taken, passes, .inl atEnd⟩
    · refine ⟨taken, passes, .inr ⟨other, known, fun s' t' passes' => ?_⟩⟩
      exact bind_eq_error_iff.mpr (.inl (again s' t' passes'))
  · obtain ⟨front, passes₁, meaning⟩ := (recognizes s a t).mp parsed
    obtain ⟨back, passes₂, ⟨ended, all, place⟩ | ⟨other, known, again⟩⟩ :=
      last front a meaning t u e late
    all_goals
      refine ⟨front ++ back, TokenStream.passes_append_iff.mpr ⟨t, passes₁, passes₂⟩, ?_⟩
    · exact .inl ⟨ended, all, place.trans passes₁.2.2⟩
    · rw [List.append_assoc] at known
      refine .inr ⟨other, known, fun s' u' passes => ?_⟩
      obtain ⟨t', front', back'⟩ := TokenStream.passes_append_iff.mp passes
      have parsed' : p s' = .ok a t' := (recognizes s' a t').mpr ⟨front, front', meaning⟩
      exact bind_eq_error_iff.mpr (.inr ⟨a, t', parsed', again t' u' back'⟩)

theorem complains_take (expected : Expectation) : Complains seen (take expected) := by
  rintro ⟨behind, ahead, finish⟩ t e failed
  cases ahead with
  | cons first rest => cases failed
  | nil =>
    cases failed
    refine ⟨[], TokenStream.passes_nil_iff.mpr rfl, .inl ⟨?_, rfl, rfl⟩⟩
    exact SourceError.atEnd_iff.mpr ⟨expected, rfl⟩

theorem complains_take_bind {expected : Expectation} {f : PlacedToken → Parser β}
    (rest : ∀ t, Complains (seen ++ [t]) (f t)) : Complains seen (take expected >>= f) := by
  refine (complains_take expected).bind (recognizes_take expected) ?_
  rintro _ t rfl
  exact rest t

end Combinators

section Parsers

variable {seen : List PlacedToken} {position : Position}

theorem complains_mark (m : Mark) : Complains seen (mark m) := by
  refine complains_take_bind fun t => ?_
  split
  · exact complains_pure ()
  · exact complains_fail ⟨t, by simp, rfl⟩ (by simp [SourceError.atEnd_iff])

theorem complains_magnitude (known : ∃ u ∈ seen, u.position = position) (value : Int) :
    Complains seen (magnitude position value) := by
  cases value with
  | ofNat n => exact complains_pure n
  | negSucc n => exact complains_fail known (by simp [SourceError.atEnd_iff])

theorem complains_integer : Complains seen integer := by
  refine complains_take_bind fun t => ?_
  have known : ∃ u ∈ seen ++ [t], u.position = t.position := ⟨t, by simp, rfl⟩
  split
  · refine (complains_magnitude known _).bind (recognizes_magnitude _ _) fun _ n _ => ?_
    exact complains_pure _
  · exact complains_fail known (by simp [SourceError.atEnd_iff])
  · exact complains_fail known (by simp [SourceError.atEnd_iff])

theorem complains_reference : Complains seen reference := by
  refine complains_integer.bind recognizes_integer ?_
  rintro _ ⟨address, position⟩ ⟨l, rfl, _⟩
  dsimp only
  split
  · exact (complains_mark _).bind (recognizes_mark _) fun _ _ _ => complains_pure _
  · exact complains_fail ⟨⟨.literal l, position⟩, by simp, rfl⟩ (by simp [SourceError.atEnd_iff])

theorem complains_sizedImmediate (op : Opcode) (slot : Slot) (w : Width)
    (known : ∃ u ∈ seen, u.position = position) :
    Complains seen (sizedImmediate op slot w position) := by
  refine (complains_accept known _).bind (recognizes_accept _ _) fun front _ _ => ?_
  refine complains_integer.bind recognizes_integer ?_
  rintro _ ⟨n, place⟩ ⟨l, rfl, _⟩
  exact complains_accept ⟨⟨.literal l, place⟩, by simp, rfl⟩ _

theorem complains_keyword (op : Opcode) (slot : Slot) (name : String)
    (known : ∃ u ∈ seen, u.position = position) :
    Complains seen (keyword op slot name position) := by
  unfold keyword
  split
  · split
    · exact complains_fail known (by simp [SourceError.atEnd_iff])
    · exact complains_pure _
  · split
    · exact complains_sizedImmediate op slot _ known
    · exact complains_fail known (by simp [SourceError.atEnd_iff])

theorem complains_operand (op : Opcode) (slot : Slot) : Complains seen (operand op slot) := by
  refine complains_take_bind fun t => ?_
  have known : ∃ u ∈ seen ++ [t], u.position = t.position := ⟨t, by simp, rfl⟩
  split
  · exact complains_reference
  · exact complains_keyword op slot _ known
  · exact complains_fail known (by simp [SourceError.atEnd_iff])
  · refine (complains_magnitude known _).bind (recognizes_magnitude _ _) ?_
    rintro _ n ⟨rfl, _⟩
    rw [List.append_nil]
    exact complains_accept known _
  · exact complains_fail known (by simp [SourceError.atEnd_iff])

theorem complains_separator (slot : Slot) : Complains seen (separator slot) := by
  cases slot with
  | leading => exact complains_pure ()
  | trailing => exact complains_mark .comma

theorem complains_operands (op : Opcode) (slots : List Slot) :
    Complains seen (operands op slots) := by
  induction slots generalizing seen with
  | nil => exact complains_pure []
  | cons slot slots ih =>
    refine (complains_separator slot).bind (recognizes_separator slot) fun _ _ _ => ?_
    refine (complains_operand op slot).bind (recognizes_operand op slot) fun _ _ _ => ?_
    exact ih.bind (recognizes_operands op slots) fun _ _ _ => complains_pure _

end Parsers

/-- All that can be wrong with a statement that begins with a token, before a stream. -/
inductive Misread (first : PlacedToken) (s : TokenStream) : SourceError → TokenStream → Prop where
  | opening (noWord : ∀ name, first.token ≠ .identifier name) :
      Misread first s ⟨first.position, .unexpected .instruction (.token first.token)⟩ s
  | mnemonic {name : String} (word : first.token = .identifier name)
      (noColon : s.peek?.map (·.token) ≠ some (.mark .colon))
      (unknown : Opcode.ofMnemonic? name = none) :
      Misread first s ⟨first.position, .unknownInstruction name⟩ s
  | operands {name : String} {op : Opcode} {e : SourceError} {t : TokenStream}
      (word : first.token = .identifier name)
      (noColon : s.peek?.map (·.token) ≠ some (.mark .colon))
      (known : Opcode.ofMnemonic? name = some op)
      (failed : operands op op.slots s = .error e t) : Misread first s e t

theorem statementNamed_ne_error_of_colon {name : String} {position : Position} {s t : TokenStream}
    {e : SourceError} (colon : s.peek?.map (·.token) = some (.mark .colon)) :
    statementNamed name position s ≠ .error e t := by
  obtain ⟨next, found, same⟩ := Option.map_eq_some_iff.mp colon
  have taken : mark .colon s = .ok () s.advance := by
    refine (recognizes_mark .colon s () s.advance).mpr ⟨[next], ?_, by simp [same]⟩
    exact TokenStream.passes_singleton_iff.mpr ⟨found, rfl⟩
  rw [statementNamed_of_colon name position colon]
  intro failed
  rcases bind_eq_error_iff.mp failed with early | ⟨_, _, _, late⟩
  · cases taken.symm.trans early
  · cases late

theorem statementAt_eq_error_iff {first : PlacedToken} {s t : TokenStream} {e : SourceError} :
    statementAt first s = .error e t ↔ Misread first s e t := by
  obtain ⟨token, position⟩ := first
  constructor
  · intro failed
    cases token with
    | identifier name =>
      have failed : statementNamed name position s = .error e t := by
        rcases bind_eq_error_iff.mp failed with early | ⟨_, _, _, late⟩
        · exact early
        · cases late
      by_cases colon : s.peek?.map (·.token) = some (.mark .colon)
      · exact absurd failed (statementNamed_ne_error_of_colon colon)
      · cases known : Opcode.ofMnemonic? name with
        | none =>
          rw [statementNamed_of_unknown position colon known] at failed
          cases failed
          exact .mnemonic rfl colon known
        | some op =>
          rw [statementNamed_of_mnemonic position colon known] at failed
          rcases bind_eq_error_iff.mp failed with early | ⟨_, _, _, late⟩
          · exact .operands rfl colon known early
          · cases late
    | literal l =>
      cases failed
      exact .opening (by simp)
    | mark m =>
      cases failed
      exact .opening (by simp)
  · intro misread
    cases misread with
    | opening noWord =>
      cases token with
      | identifier name => exact absurd rfl (noWord name)
      | literal | mark => rfl
    | mnemonic word noColon unknown =>
      cases word
      refine bind_eq_error_iff.mpr (.inl ?_)
      rw [statementNamed_of_unknown position noColon unknown]
      rfl
    | operands word noColon known failed =>
      cases word
      refine bind_eq_error_iff.mpr (.inl ?_)
      rw [statementNamed_of_mnemonic position noColon known]
      exact bind_eq_error_iff.mpr (.inl failed)

theorem statement_eq_error_iff {s t : TokenStream} {e : SourceError} :
    statement s = .error e t ↔ ∃ first, s.peek? = some first ∧ Misread first s.advance e t := by
  unfold statement
  cases s.peek? with
  | none => simp
  | some first =>
    simp only [Option.some.injEq, exists_eq_left', ← statementAt_eq_error_iff, Functor.map,
      EStateM.map]
    cases statementAt first s.advance <;> simp

/-- A complaint about a statement. Behind the tokens that were taken, a colon might still turn their
first word into a label; nothing else that follows them matters. -/
theorem taken_of_statement {s t : TokenStream} {e : SourceError}
    (failed : statement s = .error e t) : ∃ taken, taken ≠ [] ∧ s.Passes taken t ∧
      ((e.AtEnd ∧ t.ahead = [] ∧ e.position = s.finish) ∨
        (¬ e.AtEnd ∧ (∃ u ∈ taken, u.position = e.position) ∧
          ∀ s' t' : TokenStream, s'.Passes taken t' →
            t'.peek?.map (·.token) ≠ some (.mark .colon) → statement s' = .error e t')) := by
  obtain ⟨first, next, misread⟩ := statement_eq_error_iff.mp failed
  have one : s.Passes [first] s.advance := TokenStream.passes_singleton_iff.mpr ⟨next, rfl⟩
  cases misread with
  | opening noWord =>
    refine ⟨[first], by simp, one, .inr ⟨by simp [SourceError.atEnd_iff], by simp, ?_⟩⟩
    intro s' t' passes _
    obtain ⟨next, rfl⟩ := TokenStream.passes_singleton_iff.mp passes
    exact statement_eq_error_iff.mpr ⟨first, next, .opening noWord⟩
  | mnemonic word noColon unknown =>
    refine ⟨[first], by simp, one, .inr ⟨by simp [SourceError.atEnd_iff], by simp, ?_⟩⟩
    intro s' t' passes follower
    obtain ⟨next, rfl⟩ := TokenStream.passes_singleton_iff.mp passes
    exact statement_eq_error_iff.mpr ⟨first, next, .mnemonic word follower unknown⟩
  | @operands name op _ _ word noColon known failed =>
    have complains : Complains [first] (operands op op.slots) := complains_operands op op.slots
    obtain ⟨taken, passes, ⟨ended, all, place⟩ | ⟨other, blamed, again⟩⟩ :=
      complains _ _ _ failed
    all_goals
      refine ⟨first :: taken, by simp, TokenStream.passes_cons_iff.mpr ⟨next, passes⟩, ?_⟩
    · exact .inl ⟨ended, all, place.trans one.2.2⟩
    · refine .inr ⟨other, blamed, fun s' t' passes' follower => ?_⟩
      obtain ⟨next', passes'⟩ := TokenStream.passes_cons_iff.mp passes'
      have noColon' : s'.advance.peek?.map (·.token) ≠ some (.mark .colon) := by
        -- What follows the first word was taken, or is what follows all that was taken.
        cases taken with
        | nil => rwa [TokenStream.passes_nil_iff.mp passes'] at follower
        | cons second others =>
          rw [(TokenStream.passes_cons_iff.mp passes).1] at noColon
          rwa [(TokenStream.passes_cons_iff.mp passes').1]
      exact statement_eq_error_iff.mpr
        ⟨first, next', .operands word noColon' known (again _ _ passes')⟩

end Parser
end OctetMachine
