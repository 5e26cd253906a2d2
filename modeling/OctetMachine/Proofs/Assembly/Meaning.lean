import Mathlib
import OctetMachine.Proofs.Assembly.Code
import OctetMachine.Proofs.Statement.Meaning

/-! Assembling depends on what tokens mean, not on how they are spelled or where they stand. Streams
whose tokens mean the same assemble to the same code with the same labels, or fail for the same
reason at the same token. -/
namespace OctetMachine

section Parallel

variable {R : Position → Position → Prop}

/-- Two attempts that come to the same. -/
inductive SourceError.Parallel (R : Position → Position → Prop) {α : Type} :
    Except SourceError α → Except SourceError α → Prop where
  | ok (a : α) : Parallel R (.ok a) (.ok a)
  | error {e f : SourceError} (same : e.Alike R f) : Parallel R (.error e) (.error f)

theorem SourceError.Parallel.map {α β : Type} {x y : Except SourceError α} (f : α → β)
    (same : Parallel R x y) : Parallel R (x.map f) (y.map f) := by
  cases same with
  | ok a => exact .ok (f a)
  | error same => exact .error same

theorem Parsed.ofStream_of_error {s t : TokenStream} {e : SourceError}
    (failed : Parser.statement s = .error e t) : ofStream s = ⟨[], some e⟩ := by
  rw [ofStream]
  split <;> simp_all

theorem Parsed.ofStream_of_none {s t : TokenStream} (ended : Parser.statement s = .ok none t) :
    ofStream s = ⟨[], none⟩ :=
  ofStream_of_ahead_eq_nil (Parser.statement_eq_ok_none_iff.mp ended).1

/-- Streams alike have the same statements in corresponding places, up to an error of one kind. -/
theorem Parsed.ofStream_alike {s t : TokenStream} (alike : s.Alike R t) :
    List.Forall₂ (Statement.Alike R) (ofStream s).statements (ofStream t).statements ∧
      Option.Rel (SourceError.Alike R) (ofStream s).failure (ofStream t).failure := by
  induction size : s.ahead.length using Nat.strong_induction_on generalizing s t with
  | _ size ih =>
    have step := Parser.inStep_statement s t alike
    generalize here : Parser.statement s = x at step
    generalize there : Parser.statement t = y at step
    cases step with
    | error same =>
      rw [ofStream_of_error here, ofStream_of_error there]
      exact ⟨.nil, .some same⟩
    | ok value rest =>
      cases value with
      | none =>
        rw [ofStream_of_none here, ofStream_of_none there]
        exact ⟨.nil, .none⟩
      | some same =>
        have shorter := Parser.length_of_statement here
        obtain ⟨statements, failure⟩ := ih _ (shorter.trans_eq size) rest rfl
        rw [ofStream_of_statement here, ofStream_of_statement there]
        exact ⟨.cons same statements, failure⟩

theorem Assembly.layout_alike {xs ys : List Statement}
    (same : List.Forall₂ (Statement.Alike R) xs ys) (offset : Nat) (seen : List String) :
    SourceError.Parallel R (layout offset seen xs) (layout offset seen ys) := by
  induction same generalizing offset seen with
  | nil => exact .ok _
  | @cons a b xs ys first others ih =>
    obtain ⟨p, kind⟩ := a
    obtain ⟨q, _⟩ := b
    obtain ⟨place, rfl⟩ := first
    cases kind with
    | label name =>
      rw [layout, layout]
      split
      · exact .error ⟨place, .duplicateLabel name⟩
      · exact (ih _ _).map _
    | instruction i => exact (ih _ _).map _

theorem Assembly.ofStream_alike {s t : TokenStream} (alike : s.reset.Alike R t.reset) :
    SourceError.Parallel R (ofStream s) (ofStream t) := by
  obtain ⟨statements, failure⟩ := Parsed.ofStream_alike alike
  have laid := layout_alike statements 0 []
  unfold ofStream
  dsimp only
  generalize layout 0 [] (Parsed.ofStream s.reset).statements = x at laid ⊢
  generalize layout 0 [] (Parsed.ofStream t.reset).statements = y at laid ⊢
  generalize (Parsed.ofStream s.reset).failure = e at failure ⊢
  generalize (Parsed.ofStream t.reset).failure = f at failure ⊢
  cases laid with
  | error same => exact .error same
  | ok a =>
    cases failure with
    | none => exact .ok a
    | some same => exact .error same

end Parallel

theorem PlacedToken.allAlike_of {R : Position → Position → Prop} {as bs : List PlacedToken}
    (alike : List.Forall₂ Token.Alike (as.map (·.token)) (bs.map (·.token)))
    (labels : ∀ (k : Nat) (a b : String), (as.map (·.token))[k]? = some (.identifier a) →
      (bs.map (·.token))[k]? = some (.identifier b) →
      (as.map (·.token))[k + 1]? = some (.mark .colon) → a = b)
    (places : ∀ (k : Nat) (a b : PlacedToken), as[k]? = some a → bs[k]? = some b →
      R a.position b.position) : PlacedToken.AllAlike R as bs := by
  induction as generalizing bs with
  | nil =>
    cases bs with
    | nil => exact .nil
    | cons b bs => cases alike
  | cons a as ih =>
    cases bs with
    | nil => cases alike
    | cons b bs =>
      cases alike with
      | cons first others =>
        refine .cons ⟨first, places 0 a b rfl rfl⟩ (fun colon => ?_) (ih others ?_ ?_)
        · have next : ((a :: as).map (·.token))[0 + 1]? = some (.mark .colon) := by
            simpa [List.head?_eq_getElem?] using colon
          obtain ⟨token, p⟩ := a
          obtain ⟨token', q⟩ := b
          dsimp only at first
          cases first with
          | identifier => exact congrArg some (labels 0 _ _ rfl rfl next)
          | literal | mark => rfl
        · intro k
          exact labels (k + 1)
        · intro k
          exact places (k + 1)

namespace TokenStream

/-- The tokens of a stream without their places. -/
def unplaced (s : TokenStream) : List Token := s.tokens.map (·.token)

/-- The place of a token, by its index; behind the last one it is the end of input. -/
def place (s : TokenStream) (k : Nat) : Position := (s.tokens[k]?.map (·.position)).getD s.finish

/-- The same tokens elsewhere, with the end of input behind the last of them. -/
def placed (s : TokenStream) (places : Nat → Position) : TokenStream :=
  ofTokens (s.tokens.mapIdx fun k t => ⟨t.token, places k⟩) (places s.tokens.length)

/-- Two streams whose tokens mean the same, one by one: words up to case, literals of one value, and
the same marks; and a word that a colon follows is the same letter by letter. -/
structure SameMeaning (s t : TokenStream) : Prop where
  alike : List.Forall₂ Token.Alike s.unplaced t.unplaced
  labels : ∀ (k : Nat) (a b : String), s.unplaced[k]? = some (.identifier a) →
    t.unplaced[k]? = some (.identifier b) → s.unplaced[k + 1]? = some (.mark .colon) → a = b

/-- Assembling fails and blames the token of this index, or the end of input if there is none,
wherever the tokens stand. -/
structure FailsAt (s : TokenStream) (site : Nat) (cause : SourceCause) : Prop where
  inside : site ≤ s.tokens.length
  reported : Assembly.ofStream s = .error ⟨s.place site, cause⟩
  blamed : ∀ places : Nat → Position, ∃ other,
    Assembly.ofStream (s.placed places) = .error ⟨places site, other⟩

variable {s t : TokenStream} {places : Nat → Position}

theorem length_unplaced (s : TokenStream) : s.unplaced.length = s.tokens.length := by
  simp [unplaced]

theorem tokens_placed (s : TokenStream) (places : Nat → Position) :
    (s.placed places).tokens = s.tokens.mapIdx fun k t => ⟨t.token, places k⟩ := by
  simp [placed, ofTokens, tokens]

theorem unplaced_placed (s : TokenStream) (places : Nat → Position) :
    (s.placed places).unplaced = s.unplaced := by
  rw [unplaced, unplaced, tokens_placed]
  apply List.ext_getElem?
  intro k
  simp [Function.comp_def]

theorem place_placed {k : Nat} (inside : k ≤ s.tokens.length) :
    (s.placed places).place k = places k := by
  rcases Nat.lt_or_eq_of_le inside with less | rfl
  · simp [place, tokens_placed, less]
  · have last : (s.placed places).tokens[s.tokens.length]? = none := by simp [tokens_placed]
    rw [place, last]
    rfl

namespace SameMeaning

theorem refl (s : TokenStream) : s.SameMeaning s := by
  refine ⟨List.forall₂_same.mpr fun t _ => .refl t, fun k a b here there _ => ?_⟩
  cases here.symm.trans there
  rfl

theorem length_eq (same : s.SameMeaning t) : s.tokens.length = t.tokens.length := by
  rw [← s.length_unplaced, ← t.length_unplaced, same.alike.length_eq]

theorem placed_left (same : s.SameMeaning t) (places : Nat → Position) :
    (s.placed places).SameMeaning t := by
  obtain ⟨alike, labels⟩ := same
  rw [← s.unplaced_placed places] at alike labels
  exact ⟨alike, labels⟩

theorem placed_right (same : s.SameMeaning t) (places : Nat → Position) :
    s.SameMeaning (t.placed places) := by
  obtain ⟨alike, labels⟩ := same
  rw [← t.unplaced_placed places] at alike labels
  exact ⟨alike, labels⟩

theorem alike_of {R : Position → Position → Prop} (same : s.SameMeaning t)
    (places : ∀ k ≤ s.tokens.length, R (s.place k) (t.place k)) : s.reset.Alike R t.reset := by
  constructor
  · refine PlacedToken.allAlike_of same.alike same.labels fun k a b here there => ?_
    have inside := (List.getElem?_eq_some_iff.mp here).1
    have related := places k inside.le
    have here : s.tokens[k]? = some a := here
    have there : t.tokens[k]? = some b := there
    simpa [place, here, there] using related
  · have related := places _ le_rfl
    have last : t.tokens[s.tokens.length]? = none := by simp [same.length_eq]
    rw [place, place, last, List.getElem?_eq_none le_rfl] at related
    exact related

/-- With every token placed at its own index, the error of a stream tells which token is blamed in
every stream that means the same. -/
theorem parallel (same : s.SameMeaning t) :
    SourceError.Parallel (fun p q => p.offset ≤ s.tokens.length ∧ q = t.place p.offset)
      (Assembly.ofStream (s.placed fun k => ⟨0, 0, k⟩)) (Assembly.ofStream t) := by
  apply Assembly.ofStream_alike
  apply (same.placed_left _).alike_of
  intro k inside
  have inside : k ≤ s.tokens.length := by simpa [tokens_placed] using inside
  rw [place_placed inside]
  exact ⟨inside, rfl⟩

/-- Every stream that means the same as `s` fails at the token that a numbered copy of `s`
blames. -/
theorem failsAt {e : SourceError} (same : s.SameMeaning t)
    (failed : Assembly.ofStream (s.placed fun k => ⟨0, 0, k⟩) = .error e) :
    ∃ cause, t.FailsAt e.position.offset cause := by
  have blames : ∀ u, s.SameMeaning u → e.position.offset ≤ s.tokens.length ∧
      ∃ cause, Assembly.ofStream u = .error ⟨u.place e.position.offset, cause⟩ := by
    intro u same
    have parallel := same.parallel
    rw [failed] at parallel
    generalize Assembly.ofStream u = result at parallel
    cases parallel with
    | @error _ f alike =>
      obtain ⟨place, cause⟩ := f
      obtain ⟨⟨inside, rfl⟩, _⟩ := alike
      exact ⟨inside, cause, rfl⟩
  obtain ⟨inside, cause, reported⟩ := blames t same
  rw [same.length_eq] at inside
  refine ⟨cause, inside, reported, fun places => ?_⟩
  obtain ⟨_, other, moved⟩ := blames _ (same.placed_right places)
  rw [place_placed inside] at moved
  exact ⟨other, moved⟩

end SameMeaning
end TokenStream

/-- Assembling depends only on what tokens mean. Streams that mean the same both assemble, to the
same code with the same labels, or both fail, for the same reason and because of the same token or
both because of the end of input. -/
theorem Assembly.ofStream_depends_on_meaning {s t : TokenStream} (same : s.SameMeaning t) :
    (∃ a, ofStream s = .ok a ∧ ofStream t = .ok a) ∨
    ∃ (site : Nat) (c d : SourceCause), s.FailsAt site c ∧ t.FailsAt site d ∧ c.Alike d := by
  have here := (TokenStream.SameMeaning.refl s).parallel
  have there := same.parallel
  have both : SourceError.Parallel (fun _ _ => True) (ofStream s) (ofStream t) :=
    ofStream_alike (same.alike_of fun _ _ => trivial)
  cases numbered : ofStream (s.placed fun k => ⟨0, 0, k⟩) with
  | ok a =>
    rw [numbered] at here there
    generalize ofStream s = x at here ⊢
    generalize ofStream t = y at there ⊢
    cases here
    cases there
    exact .inl ⟨a, rfl, rfl⟩
  | error e =>
    obtain ⟨c, failsS⟩ := (TokenStream.SameMeaning.refl s).failsAt numbered
    obtain ⟨d, failsT⟩ := same.failsAt numbered
    rw [failsS.reported, failsT.reported] at both
    cases both with
    | error alike => exact .inr ⟨_, c, d, failsS, failsT, alike.cause⟩

/-- A label and a push of a byte that would be read as a tag, in other cases, with another kind of
literal and all in one place. -/
theorem Assembly.ofStream_depends_on_meaning_push :
    let s := TokenStream.ofTokenList [⟨.identifier "Go", ⟨1, 1, 0⟩⟩, ⟨.mark .colon, ⟨1, 3, 2⟩⟩,
      ⟨.identifier "push", ⟨1, 5, 4⟩⟩, ⟨.literal (.integer 176), ⟨1, 10, 9⟩⟩]
    let t := TokenStream.ofTokenList [⟨.identifier "Go", .start⟩, ⟨.mark .colon, .start⟩,
      ⟨.identifier "PUSH", .start⟩, ⟨.literal (.short 176), .start⟩]
    s.SameMeaning t ∧
    ofStream s = .error ⟨⟨1, 10, 9⟩, .unsupported (.tagCollision 176 .top)⟩ ∧
    ∃ (site : Nat) (c d : SourceCause), s.FailsAt site c ∧ t.FailsAt site d ∧ c.Alike d := by
  intro s t
  have failed : ofStream s = .error ⟨⟨1, 10, 9⟩, .unsupported (.tagCollision 176 .top)⟩ := by
    decide +kernel
  have same : s.SameMeaning t := by
    constructor
    · exact .cons (.refl _) (.cons (.refl _) (.cons (.identifier (by decide +kernel))
        (.cons (.literal (by decide +kernel)) .nil)))
    · intro k a b here there colon
      rcases k with _ | _ | _ | _ | k
      · cases here
        cases there
        rfl
      all_goals cases colon
  rcases ofStream_depends_on_meaning same with ⟨a, assembled, _⟩ | fails
  · cases failed.symm.trans assembled
  · exact ⟨same, failed, fails⟩

end OctetMachine
