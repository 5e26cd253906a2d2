import Mathlib
import OctetMachine.Proofs.Assembly.Labels
import OctetMachine.Proofs.Assembly.Meaning
import OctetMachine.Proofs.Statement.Complaints

/-! The first error wins. A stream that does not assemble is cut before the statement at fault: what
stands before the cut assembles, and what follows the statement has no part in the complaint, unless
the complaint is that the input ended. -/
namespace OctetMachine

theorem TokenStream.passes_reset (s : TokenStream) {front back : List PlacedToken}
    (tokens : s.tokens = front ++ back) : s.reset.Passes front ⟨front.reverse, back, s.finish⟩ :=
  ⟨tokens, (List.append_nil _).symm, rfl⟩

namespace Parsed

variable {s : TokenStream}

theorem statement_of_cons {st : Statement} {sts : List Statement} {failure : Option SourceError}
    (parsed : ofStream s = ⟨st :: sts, failure⟩) :
    ∃ t, Parser.statement s = .ok (some st) t ∧ ofStream t = ⟨sts, failure⟩ := by
  cases next : Parser.statement s with
  | error e t => simp [ofStream_of_error next] at parsed
  | ok found t =>
    cases found with
    | none => simp [ofStream_of_none next] at parsed
    | some other =>
      rw [ofStream_of_statement next] at parsed
      cases parsed
      exact ⟨t, rfl, rfl⟩

theorem statement_of_failure {e : SourceError} (parsed : ofStream s = ⟨[], some e⟩) :
    ∃ t, Parser.statement s = .error e t := by
  cases next : Parser.statement s with
  | error other t =>
    rw [ofStream_of_error next] at parsed
    cases parsed
    exact ⟨t, rfl⟩
  | ok found t =>
    cases found with
    | none => simp [ofStream_of_none next] at parsed
    | some st => simp [ofStream_of_statement next] at parsed

/-- The tokens in front of a place are parsed as some statements, whatever comes instead of what is
there, as long as it brings no colon where there was none. -/
def Front (before : List PlacedToken) (sts : List Statement) (t : TokenStream) : Prop :=
  ∀ s' t' : TokenStream, s'.Passes before t' →
    (t'.peek?.map (·.token) = some (.mark .colon) → t.peek?.map (·.token) = some (.mark .colon)) →
    ofStream s' = ⟨sts ++ (ofStream t').statements, (ofStream t').failure⟩

/-- Parsing can be cut behind any statement. -/
theorem exists_cut {xs ys : List Statement} (cut : (ofStream s).statements = xs ++ ys) :
    ∃ before t, s.Passes before t ∧ ofStream t = ⟨ys, (ofStream s).failure⟩ ∧
      Front before xs t := by
  induction xs generalizing s with
  | nil =>
    refine ⟨[], s, TokenStream.passes_nil_iff.mpr rfl, by rw [← List.nil_append ys, ← cut], ?_⟩
    intro s' t' passes _
    rw [TokenStream.passes_nil_iff.mp passes, List.nil_append]
  | cons st xs ih =>
    have whole : ofStream s = ⟨st :: (xs ++ ys), (ofStream s).failure⟩ := by
      rw [← List.cons_append, ← cut]
    obtain ⟨u, parsed, others⟩ := statement_of_cons whole
    obtain ⟨taken, first, opens⟩ := Parser.statement_eq_ok_some_iff_opens.mp parsed
    obtain ⟨before, t, last, rest, again⟩ := ih (s := u) (by rw [others])
    rw [others] at rest
    refine ⟨taken ++ before, t, TokenStream.passes_append_iff.mpr ⟨u, first, last⟩, rest, ?_⟩
    intro s' t' passes next
    obtain ⟨u', first', last'⟩ := TokenStream.passes_append_iff.mp passes
    have follower : u'.ahead.head?.map (·.token) = some (.mark .colon) →
        u.ahead.head?.map (·.token) = some (.mark .colon) := by
      rw [last.1, last'.1]
      cases before with
      | nil => exact next
      | cons => exact id
    have parsed' : Parser.statement s' = .ok (some st) u' :=
      Parser.statement_eq_ok_some_iff_opens.mpr ⟨taken, first', opens.replace follower⟩
    rw [ofStream_of_statement parsed', again u' t' last' next, List.cons_append]

end Parsed

/-- The next statement of a stream is at fault, where some names are defined already: it cannot be
read, or it defines one of them again. -/
inductive Parser.Raises (names : List String) (s : TokenStream) :
    SourceError → TokenStream → Prop where
  | misread {e : SourceError} {t : TokenStream} (failed : statement s = .error e t) :
      Raises names s e t
  | redefined {position : Position} {name : String} {t : TokenStream}
      (parsed : statement s = .ok (some ⟨position, .label name⟩) t) (known : name ∈ names) :
      Raises names s ⟨position, .duplicateLabel name⟩ t

/-- The statement at fault takes some tokens. Its complaint is that the input ended, or is about one
of these tokens; in the second case it does not depend on what follows them. -/
theorem Parser.Raises.exists_taken {names : List String} {s t : TokenStream} {e : SourceError}
    (raises : Raises names s e t) : ∃ taken, taken ≠ [] ∧ s.Passes taken t ∧
      ((e.AtEnd ∧ t.ahead = [] ∧ e.position = s.finish) ∨
        (¬ e.AtEnd ∧ (∃ u ∈ taken, u.position = e.position) ∧
          ∀ s' t' : TokenStream, s'.Passes taken t' →
            t'.peek?.map (·.token) ≠ some (.mark .colon) → Raises names s' e t')) := by
  cases raises with
  | misread failed =>
    obtain ⟨taken, some, passes, atEnd | ⟨other, blamed, again⟩⟩ := taken_of_statement failed
    · exact ⟨taken, some, passes, .inl atEnd⟩
    · refine ⟨taken, some, passes, .inr ⟨other, blamed, fun s' t' passes' next => ?_⟩⟩
      exact .misread (again s' t' passes' next)
  | redefined parsed known =>
    obtain ⟨taken, passes, opens⟩ := statement_eq_ok_some_iff_opens.mp parsed
    refine ⟨taken, opens.ne_nil, passes, .inr ⟨by simp [SourceError.atEnd_iff], ?_, ?_⟩⟩
    · obtain ⟨u, head, place⟩ := Option.map_eq_some_iff.mp opens.place
      exact ⟨u, List.mem_of_head? head, place⟩
    · intro s' t' passes' next
      refine .redefined (statement_eq_ok_some_iff_opens.mpr ⟨taken, passes', ?_⟩) known
      exact opens.replace fun colon => absurd colon next

theorem SourceCause.Alike.atEnd_iff {e f : SourceError}
    (same : e.cause.Alike f.cause) : e.AtEnd ↔ f.AtEnd := by
  rw [SourceError.atEnd_iff, SourceError.atEnd_iff]
  generalize e.cause = c at same ⊢
  generalize f.cause = d at same ⊢
  cases same <;> simp

namespace Assembly

variable {s : TokenStream} {e : SourceError}

theorem ofStream_eq_error_iff : ofStream s = .error e ↔
    layout 0 [] (Parsed.ofStream s.reset).statements = .error e ∨
      (Parsed.ofStream s.reset).failure = some e ∧
        ∃ a, layout 0 [] (Parsed.ofStream s.reset).statements = .ok a := by
  simp only [ofStream]
  split <;> simp_all

/-- Where a stream that does not assemble is cut. -/
theorem exists_raises (failed : ofStream s = .error e) :
    ∃ before t u sts a, s.reset.Passes before t ∧ layout 0 [] sts = .ok a ∧
      Parser.Raises a.names t e u ∧ Parsed.Front before sts t := by
  rcases ofStream_eq_error_iff.mp failed with twice | ⟨unread, a, laid⟩
  · obtain ⟨sts, position, name, others, cut, rfl, ⟨a, laid⟩, known⟩ :=
      layout_eq_error_iff.mp twice
    obtain ⟨before, t, passes, rest, again⟩ := Parsed.exists_cut cut
    obtain ⟨u, parsed, _⟩ := Parsed.statement_of_cons rest
    have known : name ∈ a.names := by simpa [names_of_layout laid] using known
    exact ⟨before, t, u, sts, a, passes, laid, .redefined parsed known, again⟩
  · obtain ⟨before, t, passes, rest, again⟩ := Parsed.exists_cut (List.append_nil _).symm
    rw [unread] at rest
    obtain ⟨u, misread⟩ := Parsed.statement_of_failure rest
    exact ⟨before, t, u, _, a, passes, laid, .misread misread, again⟩

/-- Behind statements that can be laid out, the next statement at fault decides. -/
theorem ofStream_of_raises {t u : TokenStream} {sts : List Statement} {a : Assembly}
    (laid : layout 0 [] sts = .ok a) (raises : Parser.Raises a.names t e u)
    (parsed : Parsed.ofStream s.reset =
      ⟨sts ++ (Parsed.ofStream t).statements, (Parsed.ofStream t).failure⟩) :
    ofStream s = .error e := by
  rw [ofStream_eq_error_iff, parsed]
  cases raises with
  | misread failed =>
    rw [Parsed.ofStream_of_error failed, List.append_nil]
    exact .inr ⟨rfl, a, laid⟩
  | @redefined position name _ next known =>
    rw [Parsed.ofStream_of_statement next]
    refine .inl (layout_eq_error_iff.mpr ⟨sts, position, name, _, rfl, rfl, ⟨a, laid⟩, .inl ?_⟩)
    rwa [← names_of_layout laid]

/-- What stands before the statement at fault assembles alone. -/
theorem ofStream_of_front {before : List PlacedToken} {sts : List Statement} {t : TokenStream}
    {a : Assembly} (laid : layout 0 [] sts = .ok a) (front : Parsed.Front before sts t)
    (tokens : s.tokens = before) : ofStream s = .ok a := by
  have passes : s.reset.Passes before ⟨before.reverse, [], s.finish⟩ :=
    s.passes_reset (tokens.trans (List.append_nil before).symm)
  have parsed : Parsed.ofStream s.reset = ⟨sts, none⟩ := by
    rw [front _ _ passes (fun colon => by cases colon), Parsed.ofStream_of_ahead_eq_nil rfl,
      List.append_nil]
  rw [ofStream_eq_ok_iff, parsed]
  exact ⟨laid, rfl⟩

/-- A complaint is about the end of input or stands at a token. -/
theorem position_of_error (failed : ofStream s = .error e) :
    (e.AtEnd → e.position = s.finish) ∧
      (¬ e.AtEnd → ∃ t ∈ s.tokens, t.position = e.position) := by
  obtain ⟨before, t, u, sts, a, passes, laid, raises, _⟩ := exists_raises failed
  obtain ⟨taken, _, through, ⟨atEnd, _, place⟩ | ⟨other, ⟨v, member, place⟩, _⟩⟩ :=
    raises.exists_taken
  · exact ⟨fun _ => place.trans passes.2.2, fun other => absurd atEnd other⟩
  · refine ⟨fun atEnd => absurd atEnd other, fun _ => ⟨v, ?_, place⟩⟩
    have all : s.tokens = before ++ (taken ++ u.ahead) := by
      rw [← through.1]
      exact passes.1
    rw [all]
    simp [member]

/-- With every token placed at its own index it can be told whether the end of input is blamed. -/
theorem exists_failsAt (failed : ofStream s = .error e) :
    ∃ site, s.FailsAt site e.cause ∧ (site = s.tokens.length ↔ e.AtEnd) := by
  have parallel := (TokenStream.SameMeaning.refl s).parallel
  rw [failed] at parallel
  generalize numbered : ofStream (s.placed fun k => ⟨0, 0, k⟩) = result at parallel
  cases parallel with
  | @error n _ alike =>
    obtain ⟨cause, fails⟩ := (TokenStream.SameMeaning.refl s).failsAt numbered
    cases failed.symm.trans fails.reported
    refine ⟨n.position.offset, fails, ?_⟩
    rw [← alike.cause.atEnd_iff]
    obtain ⟨ended, inside⟩ := position_of_error numbered
    constructor
    · intro last
      by_contra other
      obtain ⟨t, member, place⟩ := inside other
      rw [TokenStream.tokens_placed] at member
      obtain ⟨k, less, rfl⟩ := List.mem_mapIdx.mp member
      have same : k = n.position.offset := congrArg Position.offset place
      omega
    · intro atEnd
      exact congrArg Position.offset (ended atEnd)

/-- The first error wins. A stream that does not assemble is cut before the statement at fault: what
stands before it assembles alone, and the statement cannot be read there or defines a name again. The
complaint is about the end of input, all of which was taken, or stands at a token of the statement;
it blames no token exactly when it is about the end of input. A complaint about a token stays the
same whatever follows the statement, except that a colon might turn its first word into a label. -/
theorem first_error_wins (failed : ofStream s = .error e) :
    ∃ before taken after : List PlacedToken,
      s.tokens = before ++ taken ++ after ∧
      (∃ a, (∀ p : TokenStream, p.tokens = before → ofStream p = .ok a) ∧
        Parser.Raises a.names ⟨before.reverse, taken ++ after, s.finish⟩ e
          ⟨taken.reverse ++ before.reverse, after, s.finish⟩) ∧
      (e.AtEnd → after = [] ∧ e.position = s.finish) ∧
      (¬ e.AtEnd → (∃ t ∈ taken, t.position = e.position) ∧
        ∀ (rest : List PlacedToken) (u : TokenStream),
          rest.head?.map (·.token) ≠ some (.mark .colon) →
          u.tokens = before ++ taken ++ rest → ofStream u = .error e) ∧
      ∃ site, s.FailsAt site e.cause ∧ (site = s.tokens.length ↔ e.AtEnd) := by
  obtain ⟨before, t, u, sts, a, passes, laid, raises, front⟩ := exists_raises failed
  obtain ⟨taken, some, through, complaint⟩ := raises.exists_taken
  have start : t = ⟨before.reverse, taken ++ u.ahead, s.finish⟩ :=
    TokenStream.ext (passes.2.1.trans (List.append_nil _)) through.1 passes.2.2
  have stop : u = ⟨taken.reverse ++ before.reverse, u.ahead, s.finish⟩ := by
    refine TokenStream.ext ?_ rfl (through.2.2.trans passes.2.2)
    rw [through.2.1, start]
  have tokens : s.tokens = before ++ taken ++ u.ahead := by
    rw [List.append_assoc, ← through.1]
    exact passes.1
  refine ⟨before, taken, u.ahead, tokens, ⟨a, fun p => ofStream_of_front laid front, ?_⟩,
    fun atEnd => ?_, fun other => ?_, exists_failsAt failed⟩
  · rwa [← start, ← stop]
  · obtain ⟨_, all, place⟩ | ⟨other, _⟩ := complaint
    · exact ⟨all, place.trans passes.2.2⟩
    · exact absurd atEnd other
  · obtain ⟨atEnd, _⟩ | ⟨_, blamed, kept⟩ := complaint
    · exact absurd atEnd other
    refine ⟨blamed, fun rest v next whole => ?_⟩
    have passes' := v.passes_reset (whole.trans (List.append_assoc _ _ _))
    refine ofStream_of_raises laid (kept _ ⟨_, rest, _⟩ ⟨rfl, rfl, rfl⟩ next)
      (front _ _ passes' fun colon => ?_)
    -- Some token was taken, so the same token stands behind the cut.
    obtain ⟨first, others, rfl⟩ := List.exists_cons_of_ne_nil some
    rwa [start]

/-- A name defined twice, with an unknown mnemonic behind it: the definition is at fault, and it
would be with any other end. -/
theorem first_error_wins_duplicate :
    let word (name : String) (column : Nat) : PlacedToken := ⟨.identifier name, ⟨1, column, 0⟩⟩
    let colon : PlacedToken := ⟨.mark .colon, .start⟩
    let s := TokenStream.ofTokenList [word "x" 1, colon, word "pop" 3, word "x" 4, colon,
      word "frob" 6]
    let e : SourceError := ⟨⟨1, 4, 0⟩, .duplicateLabel "x"⟩
    ofStream s = .error e ∧ ¬ e.AtEnd ∧
    ∃ before taken after, s.tokens = before ++ taken ++ after ∧
      (∃ t ∈ taken, t.position = ⟨1, 4, 0⟩) ∧
      ∀ rest : List PlacedToken, rest.head?.map (·.token) ≠ some (.mark .colon) →
        ofStream (TokenStream.ofTokenList (before ++ taken ++ rest)) = .error e := by
  intro word colon s e
  have failed : ofStream s = .error e := by decide +kernel
  have other : ¬ e.AtEnd := by simp [SourceError.atEnd_iff, e]
  obtain ⟨before, taken, after, tokens, _, _, inside, _⟩ := first_error_wins failed
  obtain ⟨blamed, again⟩ := inside other
  exact ⟨failed, other, before, taken, after, tokens, blamed,
    fun rest next => again rest _ next rfl⟩

end Assembly
end OctetMachine
