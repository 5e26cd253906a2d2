import OctetMachine.Statement.Parser

/-! Parsers only move forward. Whether they succeed or fail, they take some tokens from the front of
what is ahead and change nothing else; a statement takes at least one. -/
namespace OctetMachine

/-- One stream is reached from another by taking tokens. -/
def TokenStream.Reaches (s t : TokenStream) : Prop :=
  ∃ taken, s.ahead = taken ++ t.ahead ∧ t.behind = taken.reverse ++ s.behind ∧ t.finish = s.finish

namespace TokenStream.Reaches

theorem refl (s : TokenStream) : s.Reaches s := ⟨[], by simp⟩

theorem trans {s t u : TokenStream} (first : s.Reaches t) (last : t.Reaches u) : s.Reaches u := by
  obtain ⟨a, ahead₁, behind₁, finish₁⟩ := first
  obtain ⟨b, ahead₂, behind₂, finish₂⟩ := last
  refine ⟨a ++ b, ?_, ?_, finish₂.trans finish₁⟩
  · rw [ahead₁, ahead₂, List.append_assoc]
  · rw [behind₂, behind₁, List.reverse_append, List.append_assoc]

theorem advance (s : TokenStream) : s.Reaches s.advance := by
  obtain ⟨behind, ahead, finish⟩ := s
  cases ahead with
  | nil => exact refl _
  | cons t rest => exact ⟨[t], rfl, rfl, rfl⟩

theorem length_le {s t : TokenStream} (reached : s.Reaches t) :
    t.ahead.length ≤ s.ahead.length := by
  obtain ⟨taken, ahead, _⟩ := reached
  simp [ahead]

end TokenStream.Reaches

namespace Parser

/-- The stream that a result leaves. -/
def stream {α : Type} : EStateM.Result SourceError TokenStream α → TokenStream
  | .ok _ s => s
  | .error _ s => s

def Forward {α : Type} (p : Parser α) : Prop :=
  ∀ s : TokenStream, s.Reaches (stream (p s))

theorem forward_pure {α : Type} (a : α) : Forward (pure a : Parser α) :=
  TokenStream.Reaches.refl

theorem forward_fail {α : Type} (position : Position) (cause : SourceCause) :
    Forward (fail position cause : Parser α) := TokenStream.Reaches.refl

theorem forward_accept {α : Type} (position : Position) (answer : Except Refusal α) :
    Forward (accept position answer) := by
  cases answer with
  | ok a => exact forward_pure a
  | error refusal => exact forward_fail _ _

theorem Forward.bind {α β : Type} {p : Parser α} {f : α → Parser β} (first : Forward p)
    (last : ∀ a, Forward (f a)) : Forward (p >>= f) := by
  intro s
  have step := first s
  simp only [Bind.bind, EStateM.bind]
  cases result : p s with
  | ok a t =>
    rw [result] at step
    exact step.trans (last a t)
  | error e t =>
    rw [result] at step
    exact step

theorem forward_take (expected : Expectation) : Forward (take expected) := by
  intro s
  unfold take
  split
  · exact .advance s
  · exact .refl s

theorem forward_get : Forward (get : Parser TokenStream) := TokenStream.Reaches.refl

theorem forward_mark (m : Mark) : Forward (mark m) := by
  refine (forward_take _).bind fun t => ?_
  split
  · exact forward_pure _
  · exact forward_fail _ _

theorem forward_magnitude (position : Position) (value : Int) :
    Forward (magnitude position value) := by
  cases value with
  | ofNat n => exact forward_pure n
  | negSucc n => exact forward_fail _ _

theorem forward_integer : Forward integer := by
  refine (forward_take _).bind fun t => ?_
  split
  · exact (forward_magnitude _ _).bind fun n => forward_pure _
  · exact forward_fail _ _
  · exact forward_fail _ _

theorem forward_reference : Forward reference := by
  refine forward_integer.bind fun (address, position) => ?_
  dsimp only
  split
  · exact (forward_mark _).bind fun _ => forward_pure _
  · exact forward_fail _ _

theorem forward_sizedImmediate (op : Opcode) (slot : Slot) (w : Width) (position : Position) :
    Forward (sizedImmediate op slot w position) :=
  (forward_accept _ _).bind fun _ => forward_integer.bind fun _ => forward_accept _ _

theorem forward_keyword (op : Opcode) (slot : Slot) (name : String) (position : Position) :
    Forward (keyword op slot name position) := by
  unfold keyword
  split
  · split
    · exact forward_fail _ _
    · exact forward_pure _
  · split
    · exact forward_sizedImmediate _ _ _ _
    · exact forward_fail _ _

theorem forward_operand (op : Opcode) (slot : Slot) : Forward (operand op slot) := by
  refine (forward_take _).bind fun t => ?_
  split
  · exact forward_reference
  · exact forward_keyword _ _ _ _
  · exact forward_fail _ _
  · exact (forward_magnitude _ _).bind fun n => forward_accept _ _
  · exact forward_fail _ _

theorem forward_separator (slot : Slot) : Forward (separator slot) := by
  cases slot with
  | leading => exact forward_pure _
  | trailing => exact forward_mark _

theorem forward_operands (op : Opcode) (slots : List Slot) : Forward (operands op slots) := by
  induction slots with
  | nil => exact forward_pure _
  | cons slot slots ih =>
    exact (forward_separator slot).bind fun _ =>
      (forward_operand op slot).bind fun _ => ih.bind fun _ => forward_pure _

theorem forward_statementNamed (name : String) (position : Position) :
    Forward (statementNamed name position) := by
  refine forward_get.bind fun s => ?_
  split
  · exact (forward_mark _).bind fun _ => forward_pure _
  · split
    · exact forward_fail _ _
    · exact (forward_operands _ _).bind fun _ => forward_pure _

theorem forward_statementAt (first : PlacedToken) : Forward (statementAt first) := by
  unfold statementAt
  split
  · exact (forward_statementNamed _ _).bind fun _ => forward_pure _
  · exact forward_fail _ _

theorem Forward.map {α β : Type} {p : Parser α} (f : α → β) (moves : Forward p) :
    Forward (f <$> p) := by
  intro s
  have step := moves s
  simp only [Functor.map, EStateM.map]
  cases result : p s with
  | ok a t => rwa [result] at step
  | error e t => rwa [result] at step

/-- A statement takes at least its first token. -/
theorem length_of_statement {s t : TokenStream} {st : Statement}
    (parsed : statement s = .ok (some st) t) : t.ahead.length < s.ahead.length := by
  unfold statement at parsed
  split at parsed
  · cases parsed
  · rename_i first found
    have reached := ((forward_statementAt first).map some s.advance).length_le
    rw [parsed] at reached
    obtain ⟨behind, ahead, finish⟩ := s
    cases ahead with
    | nil => cases found
    | cons t rest => exact Nat.lt_succ_of_le reached

end Parser
end OctetMachine
