import Mathlib
import OctetMachine.Proofs.Assembly.Sequence

/-! Assembling texts joined by a line break. The second text is laid out behind the first, whose
labels it may not define again. -/
namespace OctetMachine

def Statement.label? (st : Statement) : Option String :=
  match st.kind with
  | .label name => some name
  | .instruction _ => none

theorem Statement.label?_eq_some_iff {st : Statement} {name : String} :
    st.label? = some name ↔ st.kind = .label name := by
  obtain ⟨position, kind⟩ := st
  cases kind <;> simp [label?]

/-- The first statement that defines one of some names. -/
theorem Statement.exists_clash {sts : List Statement} {extra : List String}
    (clash : ¬ extra.Disjoint (sts.filterMap label?)) :
    ∃ before after position name, sts = before ++ ⟨position, .label name⟩ :: after ∧
      name ∈ extra ∧ ∀ st ∈ before, ∀ other ∈ extra, st.kind ≠ .label other := by
  obtain ⟨name, taken, defined⟩ : ∃ name, name ∈ extra ∧ name ∈ sts.filterMap label? := by
    simpa [List.Disjoint] using clash
  obtain ⟨st, member, label⟩ := List.mem_filterMap.mp defined
  cases found : sts.find? fun st => st.label?.any (· ∈ extra) with
  | none =>
    have missed := List.find?_eq_none.mp found st member
    simp [label, taken] at missed
  | some st =>
    obtain ⟨hit, before, after, rfl, earlier⟩ := List.find?_eq_some_iff_append.mp found
    obtain ⟨name, label, taken⟩ := Option.any_eq_true _ _ |>.mp hit
    obtain ⟨position, kind⟩ := st
    cases label?_eq_some_iff.mp label
    refine ⟨before, after, position, name, rfl, by simpa using taken, ?_⟩
    intro st member other known same
    simpa [label?_eq_some_iff.mpr same, known] using earlier st member

/-- The same complaint about another place. -/
def SourceError.moved (move : Position → Position) (e : SourceError) : SourceError :=
  ⟨move e.position, e.cause⟩

namespace Assembly

/-- The names that an assembly defines, in order. -/
def names (a : Assembly) : List String := a.labels.map (·.1)

/-- The same code behind so many bytes. -/
def shifted (count : Nat) (a : Assembly) : Assembly :=
  { a with labels := a.labels.map fun l => (l.1, l.2 + count) }

theorem layout_add (offset count : Nat) (seen : List String) (sts : List Statement) :
    layout (offset + count) seen sts = (layout offset seen sts).map (shifted count) := by
  induction sts generalizing offset seen with
  | nil => rfl
  | cons st sts ih =>
    obtain ⟨position, kind⟩ := st
    cases kind with
    | label name =>
      rw [layout, layout, ih]
      split
      · rfl
      · cases layout offset (name :: seen) sts <;> rfl
    | instruction i =>
      rw [layout, layout, Nat.add_right_comm, ih]
      cases layout (offset + i.encode.length) seen sts <;> rfl

theorem layout_moved (move : Position → Position) (offset : Nat) (seen : List String)
    (sts : List Statement) :
    layout offset seen (sts.map (Statement.moved move)) =
      (layout offset seen sts).mapError (SourceError.moved move) := by
  induction sts generalizing offset seen with
  | nil => rfl
  | cons st sts ih =>
    obtain ⟨position, kind⟩ := st
    cases kind with
    | label name =>
      rw [List.map_cons, Statement.moved, layout, layout, ih]
      split
      · rfl
      · cases layout offset (name :: seen) sts <;> rfl
    | instruction i =>
      rw [List.map_cons, Statement.moved, layout, layout, ih]
      cases layout (offset + i.encode.length) seen sts <;> rfl

/-- The second statements are laid out where the first end, and may not define their labels. -/
theorem layout_append (offset : Nat) (seen : List String) (xs ys : List Statement) :
    layout offset seen (xs ++ ys) = (layout offset seen xs).bind fun a =>
      (layout (offset + a.code.length) (a.names.reverse ++ seen) ys).map fun b =>
        ⟨a.code ++ b.code, a.labels ++ b.labels⟩ := by
  induction xs generalizing offset seen with
  | nil =>
    change layout offset seen ys = (layout offset seen ys).map fun b => ⟨b.code, b.labels⟩
    cases layout offset seen ys <;> rfl
  | cons st xs ih =>
    obtain ⟨position, kind⟩ := st
    cases kind with
    | label name =>
      rw [List.cons_append, layout, layout, ih]
      split
      · rfl
      · cases layout offset (name :: seen) xs with
        | error e => rfl
        | ok a =>
          have avoided : names ⟨a.code, (name, offset) :: a.labels⟩ = name :: a.names := rfl
          simp only [Except.bind, Except.map, avoided, List.reverse_cons, List.append_assoc,
            List.singleton_append]
          cases layout (offset + a.code.length) (a.names.reverse ++ name :: seen) ys <;> rfl
    | instruction i =>
      rw [List.cons_append, layout, layout, ih]
      cases layout (offset + i.encode.length) seen xs with
      | error e => rfl
      | ok a =>
        have avoided : names ⟨i.encode ++ a.code, a.labels⟩ = a.names := rfl
        simp only [Except.bind, Except.map, avoided, List.length_append, ← Nat.add_assoc,
          List.append_assoc]
        cases layout (offset + i.encode.length + a.code.length) (a.names.reverse ++ seen) ys <;> rfl

theorem names_of_layout {offset : Nat} {seen : List String} {sts : List Statement} {a : Assembly}
    (laid : layout offset seen sts = .ok a) : a.names = sts.filterMap Statement.label? := by
  induction sts generalizing offset seen a with
  | nil =>
    cases laid
    rfl
  | cons st sts ih =>
    obtain ⟨position, kind⟩ := st
    cases kind with
    | label name =>
      rw [layout] at laid
      split at laid
      · cases laid
      · obtain ⟨b, others, rfl⟩ := ok_map_iff.mp laid
        exact congrArg (name :: ·) (ih others)
    | instruction i =>
      obtain ⟨b, others, rfl⟩ := ok_map_iff.mp laid
      have same := ih others
      exact same

section Extra

variable {offset : Nat} {seen more extra : List String}
  (same : ∀ name, name ∈ more ↔ name ∈ extra ∨ name ∈ seen)

include same

/-- More names to avoid do not matter to statements that define none of them. -/
theorem layout_of_fresh {sts : List Statement} {a : Assembly}
    (laid : layout offset seen sts = .ok a)
    (fresh : ∀ name ∈ sts.filterMap Statement.label?, name ∉ extra) :
    layout offset more sts = .ok a := by
  -- Both lists of names grow with every label, so they are only kept related as sets.
  induction sts generalizing offset seen more a with
  | nil => exact laid
  | cons st sts ih =>
    obtain ⟨position, kind⟩ := st
    cases kind with
    | label name =>
      obtain ⟨new, fresh⟩ := List.forall_mem_cons.mp fresh
      rw [layout] at laid ⊢
      split at laid
      · cases laid
      case isFalse unseen =>
        have unseen : name ∉ more := fun member => ((same name).mp member).elim new unseen
        obtain ⟨b, others, rfl⟩ := ok_map_iff.mp laid
        rw [if_neg unseen, ih _ others fresh]
        · rfl
        · intro other
          simp only [List.mem_cons, same]
          tauto
    | instruction i =>
      obtain ⟨b, others, rfl⟩ := ok_map_iff.mp laid
      rw [layout, ih same others fresh]
      rfl

/-- The first statement that defines a name to avoid is complained about. -/
theorem layout_of_clash {before after : List Statement} {st : Statement} {name : String}
    {a : Assembly} (laid : layout offset seen (before ++ st :: after) = .ok a)
    (fresh : ∀ name ∈ before.filterMap Statement.label?, name ∉ extra)
    (label : st.kind = .label name) (taken : name ∈ extra) :
    layout offset more (before ++ st :: after) =
      .error ⟨st.position, .duplicateLabel name⟩ := by
  rw [layout_append] at laid ⊢
  cases front : layout offset seen before with
  | error e =>
    rw [front] at laid
    cases laid
  | ok b =>
    obtain ⟨position, kind⟩ := st
    cases label
    have member : name ∈ b.names.reverse ++ more :=
      List.mem_append_right _ ((same name).mpr (.inl taken))
    rw [layout_of_fresh same front fresh, Except.bind, layout, if_pos member]
    rfl

end Extra

theorem ofSource_of_sequence {source : String} {s : TokenStream} {sts : List Statement}
    (read : TokenStream.ofSource source = .ok s) (sequence : Statement.Sequence s.tokens sts) :
    ofSource source = layout 0 [] sts := by
  simp only [ofSource, read]
  exact ofStream_of_sequence sequence

theorem exists_sequence {source : String} {a : Assembly} (assembled : ofSource source = .ok a) :
    ∃ s, TokenStream.ofSource source = .ok s ∧
      Statement.Sequence s.tokens (Parsed.ofStream s.reset).statements ∧
      layout 0 [] (Parsed.ofStream s.reset).statements = .ok a := by
  obtain ⟨s, read, assembled⟩ := ofSource_eq_ok_iff.mp assembled
  obtain ⟨laid, complete⟩ := ofStream_eq_ok_iff.mp assembled
  exact ⟨s, read, Parsed.sequence_of_failure complete, laid⟩

/-- Joined texts assemble to the first code and, behind it, what the statements of the second are
laid out as when they must avoid the first labels. -/
theorem ofSource_append_lineBreak {a b : String} {first : Assembly} {t : TokenStream}
    {sts : List Statement} (assembled : ofSource a = .ok first)
    (read : TokenStream.ofSource b = .ok t) (sequence : Statement.Sequence t.tokens sts) :
    ofSource (a ++ "\n" ++ b) =
      ((layout 0 first.names.reverse sts).map fun second => ⟨first.code ++ second.code,
        first.labels ++ (second.shifted first.code.length).labels⟩).mapError
          (SourceError.moved (Position.shift a.toList)) := by
  obtain ⟨s, readA, sequenceA, laid⟩ := exists_sequence assembled
  obtain ⟨u, joined, tokens⟩ := TokenStream.ofSource_append_lineBreak readA read
  have all := sequenceA.append (sequence.moved (Position.shift a.toList))
  rw [← tokens] at all
  rw [ofSource_of_sequence joined all, layout_append, laid, Except.bind, List.append_nil,
    layout_moved, layout_add]
  cases layout 0 first.names.reverse sts <;> rfl

/-- A text that is one instruction assembles to its encoding. -/
theorem ofSource_of_instruction {source : String} {i : Instruction}
    (parsed : Instruction.ofSource source = .ok i) : ofSource source = .ok ⟨i.encode, []⟩ := by
  obtain ⟨s, position, read, sequence⟩ := Instruction.exists_sequence parsed
  rw [ofSource_of_sequence read sequence]
  simp [layout, Except.map]

section Joined

variable {a b : String} {first second : Assembly} (assembledA : ofSource a = .ok first)
  (assembledB : ofSource b = .ok second)

include assembledA assembledB

theorem ofSource_of_disjoint (disjoint : first.names.Disjoint second.names) :
    ofSource (a ++ "\n" ++ b) = .ok ⟨first.code ++ second.code,
      first.labels ++ second.labels.map fun l => (l.1, l.2 + first.code.length)⟩ := by
  obtain ⟨t, read, sequence, laid⟩ := exists_sequence assembledB
  have same : ∀ name, name ∈ first.names.reverse ↔ name ∈ first.names ∨ name ∈ [] := by simp
  have avoided :
      layout 0 first.names.reverse (Parsed.ofStream t.reset).statements = .ok second := by
    refine layout_of_fresh same laid fun name defined taken => ?_
    rw [← names_of_layout laid] at defined
    exact disjoint taken defined
  rw [ofSource_append_lineBreak assembledA read sequence, avoided]
  rfl

theorem ofSource_of_clash (clash : ¬ first.names.Disjoint second.names) :
    ∃ (s : TokenStream) (before after : List Statement) (position : Position) (name : String),
      TokenStream.ofSource b = .ok s ∧
      (Parsed.ofStream s).statements = before ++ ⟨position, .label name⟩ :: after ∧
      name ∈ first.names ∧ (∀ st ∈ before, ∀ other ∈ first.names, st.kind ≠ .label other) ∧
      ofSource (a ++ "\n" ++ b) =
        .error ⟨position.shift a.toList, .duplicateLabel name⟩ := by
  obtain ⟨s, read, sequence, laid⟩ := exists_sequence assembledB
  rw [names_of_layout laid] at clash
  obtain ⟨before, after, position, name, cut, taken, fresh⟩ := Statement.exists_clash clash
  have same : ∀ name, name ∈ first.names.reverse ↔ name ∈ first.names ∨ name ∈ [] := by simp
  have refused : layout 0 first.names.reverse (Parsed.ofStream s.reset).statements =
      .error ⟨position, .duplicateLabel name⟩ := by
    rw [cut] at laid ⊢
    refine layout_of_clash same laid (fun other defined => ?_) rfl taken
    obtain ⟨st, member, label⟩ := List.mem_filterMap.mp defined
    exact fun known => fresh st member other known (Statement.label?_eq_some_iff.mp label)
  refine ⟨s, before, after, position, name, read, ?_, taken, fresh, ?_⟩
  · rw [← cut, TokenStream.reset_of_ofSource read]
  · rw [ofSource_append_lineBreak assembledA read sequence, refused]
    rfl

end Joined

theorem ofSource_of_instructions {texts : List String} {is : List Instruction}
    (each : List.Forall₂ (fun text i => Instruction.ofSource text = .ok i) texts is) :
    ofSource ("\n".intercalate texts) = .ok ⟨is.flatMap Instruction.encode, []⟩ := by
  induction each with
  | nil => decide +kernel
  | @cons text i texts is parsed others ih =>
    have here := ofSource_of_instruction parsed
    cases texts with
    | nil =>
      cases others
      simpa using here
    | cons next texts =>
      have disjoint :
          (names ⟨i.encode, []⟩).Disjoint (names ⟨is.flatMap Instruction.encode, []⟩) :=
        List.disjoint_nil_left _
      rw [String.intercalate_cons_cons, ofSource_of_disjoint here ih disjoint]
      rfl

/-- Assembling is compositional. Joined texts whose labels differ assemble to both codes, the second
with its labels behind the first. If they share labels, the first definition in the second text of a
label of the first text is complained about, where it stands in the joined text. So texts that are
one instruction each assemble to the encodings side by side. -/
theorem ofSource_is_compositional :
    (∀ (a b : String) (first second : Assembly), ofSource a = .ok first → ofSource b = .ok second →
      (first.names.Disjoint second.names →
        ofSource (a ++ "\n" ++ b) = .ok ⟨first.code ++ second.code,
          first.labels ++ second.labels.map fun l => (l.1, l.2 + first.code.length)⟩) ∧
      (¬ first.names.Disjoint second.names →
        ∃ (s : TokenStream) (before after : List Statement) (position : Position) (name : String),
          TokenStream.ofSource b = .ok s ∧
          (Parsed.ofStream s).statements = before ++ ⟨position, .label name⟩ :: after ∧
          name ∈ first.names ∧
          (∀ st ∈ before, ∀ other ∈ first.names, st.kind ≠ .label other) ∧
          ofSource (a ++ "\n" ++ b) = .error
            ⟨⟨position.line + (a.toList.count '\n' + 1), position.column,
              position.offset + (a.utf8ByteSize + 1)⟩, .duplicateLabel name⟩)) ∧
    (∀ (texts : List String) (is : List Instruction),
      List.Forall₂ (fun text i => Instruction.ofSource text = .ok i) texts is →
        ofSource ("\n".intercalate texts) = .ok ⟨is.flatMap Instruction.encode, []⟩) := by
  refine ⟨fun a b first second assembledA assembledB => ⟨?_, ?_⟩, fun texts is each => ?_⟩
  · exact ofSource_of_disjoint assembledA assembledB
  · intro clash
    rw [← Text.utf8Length_toList]
    exact ofSource_of_clash assembledA assembledB clash
  · exact ofSource_of_instructions each

/-- A first text that ends in a comment, then one with other labels, one with its label, and single
instructions. -/
theorem ofSource_is_compositional_comment :
    ofSource ("x: PUSH 1 ;é" ++ "\n" ++ "y:\n z: POP") =
      .ok ⟨[0xFD, 1, 0xFC], [("x", 0), ("y", 2), ("z", 2)]⟩ ∧
    (∃ position : Position, ofSource ("x: PUSH 1 ;é" ++ "\n" ++ "y:\n x: POP") =
      .error ⟨⟨position.line + 1, position.column, position.offset + 14⟩, .duplicateLabel "x"⟩) ∧
    ofSource ("\n".intercalate ["PUSH 1 ;é", "POP"]) = .ok ⟨[0xFD, 1, 0xFC], []⟩ := by
  have first : ofSource "x: PUSH 1 ;é" = .ok ⟨[0xFD, 1], [("x", 0)]⟩ := by decide +kernel
  have other : ofSource "y:\n z: POP" = .ok ⟨[0xFC], [("y", 0), ("z", 0)]⟩ := by decide +kernel
  have same : ofSource "y:\n x: POP" = .ok ⟨[0xFC], [("y", 0), ("x", 0)]⟩ := by decide +kernel
  refine ⟨?_, ?_, ?_⟩
  · exact (ofSource_is_compositional.1 _ _ _ _ first other).1 (by simp [names])
  · obtain ⟨_, _, _, position, name, _, _, known, _, refused⟩ :=
      (ofSource_is_compositional.1 _ _ _ _ first same).2 (by simp [names])
    cases List.mem_singleton.mp known
    exact ⟨position, refused⟩
  · exact ofSource_is_compositional.2 _ [⟨.push, [.literal 1]⟩, ⟨.pop, []⟩]
      (.cons (by decide +kernel) (.cons (by decide +kernel) .nil))

end Assembly
end OctetMachine
