import OctetMachine.Statement.Forward

/-! Parsers and languages. A parser recognizes a language of token sequences with meanings when it
succeeds exactly on the streams that continue with such a sequence, and takes just that sequence.
Languages are put together the way parsers are. -/
namespace OctetMachine

namespace TokenStream

/-- From one stream to another, exactly these tokens are taken. -/
def Passes (s : TokenStream) (taken : List PlacedToken) (t : TokenStream) : Prop :=
  s.ahead = taken ++ t.ahead ∧ t.behind = taken.reverse ++ s.behind ∧ t.finish = s.finish

theorem passes_nil_iff {s t : TokenStream} : s.Passes [] t ↔ t = s := by
  constructor
  · rintro ⟨ahead, behind, finish⟩
    exact TokenStream.ext behind ahead.symm finish
  · rintro rfl
    exact ⟨rfl, rfl, rfl⟩

theorem passes_append_iff {s u : TokenStream} {a b : List PlacedToken} :
    s.Passes (a ++ b) u ↔ ∃ t, s.Passes a t ∧ t.Passes b u := by
  constructor
  · rintro ⟨ahead, behind, finish⟩
    refine ⟨⟨a.reverse ++ s.behind, b ++ u.ahead, s.finish⟩, ⟨?_, rfl, rfl⟩, rfl, ?_, finish⟩
    · rw [ahead, List.append_assoc]
    · rw [behind, List.reverse_append, List.append_assoc]
  · rintro ⟨t, ⟨ahead₁, behind₁, finish₁⟩, ahead₂, behind₂, finish₂⟩
    refine ⟨?_, ?_, finish₂.trans finish₁⟩
    · rw [ahead₁, ahead₂, List.append_assoc]
    · rw [behind₂, behind₁, List.reverse_append, List.append_assoc]

theorem passes_singleton_iff {s t : TokenStream} {first : PlacedToken} :
    s.Passes [first] t ↔ s.peek? = some first ∧ t = s.advance := by
  obtain ⟨behind, ahead, finish⟩ := s
  obtain ⟨behind', ahead', finish'⟩ := t
  cases ahead with
  | nil => simp [Passes, peek?]
  | cons next rest =>
    simp only [Passes, peek?, advance, List.singleton_append, List.cons.injEq, List.head?_cons,
      Option.some.injEq, List.reverse_singleton, TokenStream.mk.injEq]
    constructor
    · rintro ⟨⟨rfl, rfl⟩, rfl, rfl⟩
      exact ⟨rfl, rfl, rfl, rfl⟩
    · rintro ⟨rfl, rfl, rfl, rfl⟩
      exact ⟨⟨rfl, rfl⟩, rfl, rfl⟩

theorem passes_cons_iff {s t : TokenStream} {first : PlacedToken} {rest : List PlacedToken} :
    s.Passes (first :: rest) t ↔ s.peek? = some first ∧ s.advance.Passes rest t := by
  rw [← List.singleton_append, passes_append_iff]
  simp only [passes_singleton_iff]
  constructor
  · rintro ⟨_, ⟨next, rfl⟩, passes⟩
    exact ⟨next, passes⟩
  · rintro ⟨next, passes⟩
    exact ⟨_, ⟨next, rfl⟩, passes⟩

end TokenStream

namespace Parser

/-- A parser succeeds exactly on the sequences of a language, and takes no token more. -/
def Recognizes {α : Type} (p : Parser α) (language : List PlacedToken → α → Prop) : Prop :=
  ∀ (s : TokenStream) (a : α) (t : TokenStream),
    p s = .ok a t ↔ ∃ taken, s.Passes taken t ∧ language taken a

theorem Recognizes.congr {α : Type} {p : Parser α} {L M : List PlacedToken → α → Prop}
    (recognizes : Recognizes p L) (same : ∀ taken a, L taken a ↔ M taken a) : Recognizes p M := by
  intro s a t
  rw [recognizes s a t]
  simp only [same]

theorem recognizes_pure {α : Type} (a : α) :
    Recognizes (pure a) fun taken b => taken = [] ∧ b = a := by
  intro s b t
  constructor
  · intro result
    cases result
    exact ⟨[], TokenStream.passes_nil_iff.mpr rfl, rfl, rfl⟩
  · rintro ⟨_, passes, rfl, rfl⟩
    rw [TokenStream.passes_nil_iff.mp passes]
    rfl

theorem recognizes_fail {α : Type} (position : Position) (cause : SourceCause) :
    Recognizes (fail position cause : Parser α) fun _ _ => False := by
  intro s a t
  constructor
  · intro result
    cases result
  · rintro ⟨_, _, impossible⟩
    exact impossible.elim

theorem bind_eq_ok_iff {α β : Type} {p : Parser α} {f : α → Parser β} {s u : TokenStream} {b : β} :
    (p >>= f) s = .ok b u ↔ ∃ a t, p s = .ok a t ∧ f a t = .ok b u := by
  simp only [Bind.bind, EStateM.bind]
  cases result : p s with
  | ok a t =>
    constructor
    · intro last
      exact ⟨a, t, rfl, last⟩
    · rintro ⟨_, _, first, last⟩
      cases first
      exact last
  | error e t =>
    constructor
    · intro last
      cases last
    · rintro ⟨_, _, first, _⟩
      cases first

/-- One parser after another recognizes the concatenations. -/
theorem Recognizes.bind {α β : Type} {p : Parser α} {f : α → Parser β}
    {L : List PlacedToken → α → Prop} {M : α → List PlacedToken → β → Prop}
    (first : Recognizes p L) (last : ∀ a, Recognizes (f a) (M a)) :
    Recognizes (p >>= f) fun taken b =>
      ∃ front back a, taken = front ++ back ∧ L front a ∧ M a back b := by
  intro s b u
  rw [bind_eq_ok_iff]
  constructor
  · rintro ⟨a, t, start, finish⟩
    obtain ⟨front, passes₁, meaning₁⟩ := (first s a t).mp start
    obtain ⟨back, passes₂, meaning₂⟩ := (last a t b u).mp finish
    exact ⟨front ++ back, TokenStream.passes_append_iff.mpr ⟨t, passes₁, passes₂⟩,
      front, back, a, rfl, meaning₁, meaning₂⟩
  · rintro ⟨_, passes, front, back, a, rfl, meaning₁, meaning₂⟩
    obtain ⟨t, passes₁, passes₂⟩ := TokenStream.passes_append_iff.mp passes
    exact ⟨a, t, (first s a t).mpr ⟨front, passes₁, meaning₁⟩,
      (last a t b u).mpr ⟨back, passes₂, meaning₂⟩⟩

theorem recognizes_take (expected : Expectation) :
    Recognizes (take expected) fun taken first => taken = [first] := by
  intro s first t
  simp only [exists_eq_right, TokenStream.passes_singleton_iff, take]
  cases s.peek? with
  | none => simp
  | some next =>
    simp only [EStateM.Result.ok.injEq, Option.some.injEq]
    constructor
    · rintro ⟨rfl, rfl⟩
      exact ⟨rfl, rfl⟩
    · rintro ⟨rfl, rfl⟩
      exact ⟨rfl, rfl⟩

/-- A parser that looks at one token first recognizes that token and what the rest makes of it. -/
theorem recognizes_take_bind {β : Type} {expected : Expectation} {f : PlacedToken → Parser β}
    {M : PlacedToken → List PlacedToken → β → Prop} (rest : ∀ first, Recognizes (f first) (M first)) :
    Recognizes (take expected >>= f) fun taken b =>
      ∃ first back, taken = first :: back ∧ M first back b := by
  refine ((recognizes_take expected).bind rest).congr fun taken b => ?_
  constructor
  · rintro ⟨_, back, first, rfl, rfl, meaning⟩
    exact ⟨first, back, rfl, meaning⟩
  · rintro ⟨first, back, rfl, meaning⟩
    exact ⟨[first], back, first, rfl, rfl, meaning⟩

theorem recognizes_accept {α : Type} (position : Position) (answer : Except Refusal α) :
    Recognizes (accept position answer) fun taken a => taken = [] ∧ answer = .ok a := by
  cases answer with
  | ok a =>
    refine (recognizes_pure a).congr fun taken b => ?_
    rw [Except.ok.injEq, eq_comm (a := a)]
  | error refusal =>
    refine (recognizes_fail position _).congr fun taken b => ?_
    simp

theorem recognizes_magnitude (position : Position) (value : Int) :
    Recognizes (magnitude position value) fun taken n => taken = [] ∧ value = n := by
  cases value with
  | ofNat n =>
    refine (recognizes_pure n).congr fun taken m => ?_
    rw [Int.ofNat_eq_natCast, Int.natCast_inj, eq_comm (a := n)]
  | negSucc n =>
    refine (recognizes_fail position _).congr fun taken m => ?_
    simp only [false_iff, not_and]
    omega

theorem recognizes_mark (m : Mark) :
    Recognizes (mark m) fun taken _ => taken.map (·.token) = [.mark m] := by
  unfold mark
  refine (recognizes_take_bind (M := fun t back _ => back = [] ∧ t.token = .mark m) ?_).congr ?_
  · intro t
    split
    · rename_i same
      exact (recognizes_pure ()).congr fun back _ => by simp [same]
    · rename_i different
      exact (recognizes_fail _ _).congr fun back _ => by simp [different]
  · intro taken _
    constructor
    · rintro ⟨first, _, rfl, rfl, same⟩
      simp [same]
    · intro tokens
      obtain ⟨first, back, rfl, same, none⟩ := List.map_eq_cons_iff.mp tokens
      exact ⟨first, back, rfl, List.map_eq_nil_iff.mp none, same⟩

theorem recognizes_integer :
    Recognizes integer fun taken found =>
      ∃ l : Literal, taken = [⟨.literal l, found.2⟩] ∧ l.value = found.1 := by
  unfold integer
  refine (recognizes_take_bind (M := fun t back found => back = [] ∧ t.position = found.2 ∧
    ∃ l : Literal, t.token = .literal l ∧ l.value = found.1) ?_).congr ?_
  · rintro ⟨token, position⟩
    cases token with
    | literal l =>
      refine ((recognizes_magnitude position l.value).bind
        (fun n => recognizes_pure (n, position))).congr fun back found => ?_
      constructor
      · rintro ⟨_, _, n, rfl, ⟨rfl, value⟩, rfl, rfl⟩
        exact ⟨rfl, rfl, l, rfl, value⟩
      · rintro ⟨rfl, rfl, _, same, value⟩
        cases same
        exact ⟨[], [], found.1, rfl, ⟨rfl, value⟩, rfl, rfl⟩
    | identifier name => exact (recognizes_fail _ _).congr fun back found => by simp
    | mark m =>
      cases m <;> exact (recognizes_fail _ _).congr fun back found => by simp
  · intro taken found
    constructor
    · rintro ⟨⟨_, _⟩, _, rfl, rfl, rfl, l, rfl, value⟩
      exact ⟨l, rfl, value⟩
    · rintro ⟨l, rfl, value⟩
      exact ⟨_, [], rfl, rfl, rfl, l, rfl, value⟩

end Parser
end OctetMachine
