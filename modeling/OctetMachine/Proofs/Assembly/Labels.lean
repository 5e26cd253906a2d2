import Mathlib
import OctetMachine.Proofs.Assembly.Joining
import OctetMachine.Proofs.Listing.Reassembly

/-! The table of labels. A label names the place where the instructions before it end, which is
where the next one begins, if there is one. Labels take part in nothing else: without them the code
is the same. -/
namespace OctetMachine

namespace Statement

/-- The length of the code that statements are laid out as. -/
def codeLength (sts : List Statement) : Nat :=
  ((sts.filterMap instruction?).map Instruction.encodedLength).sum

theorem codeLength_cons_instruction (position : Position) (i : Instruction)
    (sts : List Statement) :
    codeLength (⟨position, .instruction i⟩ :: sts) = i.encodedLength + codeLength sts := by
  simp [codeLength, instruction?]

end Statement

namespace Assembly

variable {offset : Nat} {seen : List String} {sts : List Statement} {a : Assembly}

theorem mem_labels_of_layout (laid : layout offset seen sts = .ok a) {name : String}
    {place : Nat} :
    (name, place) ∈ a.labels ↔ ∃ before position after,
      sts = before ++ ⟨position, .label name⟩ :: after ∧
        place = offset + Statement.codeLength before := by
  induction sts generalizing offset seen a with
  | nil =>
    cases laid
    simp
  | cons st sts ih =>
    obtain ⟨position, kind⟩ := st
    cases kind with
    | label other =>
      rw [layout] at laid
      split at laid
      · cases laid
      · obtain ⟨b, others, rfl⟩ := ok_map_iff.mp laid
        rw [List.mem_cons, ih others]
        constructor
        · rintro (here | ⟨before, place, after, rfl, rfl⟩)
          · cases here
            exact ⟨[], position, sts, rfl, rfl⟩
          · exact ⟨_ :: before, place, after, rfl, rfl⟩
        · rintro ⟨before, place, after, cut, rfl⟩
          cases before with
          | nil =>
            cases cut
            exact .inl rfl
          | cons first before =>
            cases cut
            exact .inr ⟨before, place, after, rfl, rfl⟩
    | instruction i =>
      obtain ⟨b, others, rfl⟩ := ok_map_iff.mp laid
      rw [ih others]
      constructor
      · rintro ⟨before, place, after, rfl, rfl⟩
        refine ⟨_ :: before, place, after, rfl, ?_⟩
        rw [Statement.codeLength_cons_instruction, Instruction.length_encode, Nat.add_assoc]
      · rintro ⟨before, place, after, cut, rfl⟩
        cases before with
        | nil => cases cut
        | cons first before =>
          cases cut
          refine ⟨before, place, after, rfl, ?_⟩
          rw [Statement.codeLength_cons_instruction, Instruction.length_encode, Nat.add_assoc]

/-- Statements can be laid out when they define no name twice, and none that is to be avoided. -/
theorem exists_layout_iff : (∃ a, layout offset seen sts = .ok a) ↔
    (sts.filterMap Statement.label?).Nodup ∧
      ∀ name ∈ sts.filterMap Statement.label?, name ∉ seen := by
  induction sts generalizing offset seen with
  | nil => simp [layout]
  | cons st sts ih =>
    obtain ⟨position, kind⟩ := st
    cases kind with
    | label name =>
      have names : (⟨position, .label name⟩ :: sts).filterMap Statement.label? =
          name :: sts.filterMap Statement.label? := rfl
      rw [layout, names, List.nodup_cons, List.forall_mem_cons]
      by_cases taken : name ∈ seen
      · simp [taken]
      · rw [if_neg taken, exists_ok_map_iff, ih]
        simp only [List.mem_cons, not_or]
        grind
    | instruction i =>
      rw [layout, exists_ok_map_iff, ih]
      rfl

/-- The first definition of a name that was defined before is what is complained about. -/
theorem layout_eq_error_iff {e : SourceError} : layout offset seen sts = .error e ↔
    ∃ before position name after, sts = before ++ ⟨position, .label name⟩ :: after ∧
      e = ⟨position, .duplicateLabel name⟩ ∧ (∃ b, layout offset seen before = .ok b) ∧
      (name ∈ before.filterMap Statement.label? ∨ name ∈ seen) := by
  constructor
  · intro failed
    induction sts generalizing offset seen with
    | nil => cases failed
    | cons st sts ih =>
      obtain ⟨place, kind⟩ := st
      cases kind with
      | label other =>
        rw [layout] at failed
        split at failed
        · rename_i taken
          cases failed
          exact ⟨[], place, other, sts, rfl, rfl, ⟨_, rfl⟩, .inr taken⟩
        · rename_i fresh
          obtain ⟨before, position, name, after, rfl, rfl, ⟨b, laid⟩, taken⟩ :=
            ih (error_map_iff.mp failed)
          refine ⟨_ :: before, position, name, after, rfl, rfl, ?_, ?_⟩
          · rw [layout, if_neg fresh, laid]
            exact ⟨_, rfl⟩
          · change name ∈ other :: before.filterMap Statement.label? ∨ name ∈ seen
            rw [List.mem_cons] at taken ⊢
            tauto
      | instruction i =>
        obtain ⟨before, position, name, after, rfl, rfl, ⟨b, laid⟩, taken⟩ :=
          ih (error_map_iff.mp failed)
        refine ⟨_ :: before, position, name, after, rfl, rfl, ?_, taken⟩
        rw [layout, laid]
        exact ⟨_, rfl⟩
  · rintro ⟨before, position, name, after, rfl, rfl, ⟨b, laid⟩, taken⟩
    have known : name ∈ b.names.reverse ++ seen := by
      simpa [names_of_layout laid] using taken
    rw [layout_append, laid, Except.bind, layout, if_pos known]
    rfl

theorem exists_layout_iff_nodup :
    (∃ a, layout offset [] sts = .ok a) ↔ (sts.filterMap Statement.label?).Nodup := by
  simp [exists_layout_iff]

theorem layout_eq_duplicateLabel_iff {position : Position} {name : String} :
    layout offset [] sts = .error ⟨position, .duplicateLabel name⟩ ↔
      ∃ before after, sts = before ++ ⟨position, .label name⟩ :: after ∧
        name ∈ before.filterMap Statement.label? ∧
        (before.filterMap Statement.label?).Nodup := by
  rw [layout_eq_error_iff]
  constructor
  · rintro ⟨before, _, _, after, cut, same, laid, taken⟩
    cases same
    exact ⟨before, after, cut, by simpa using taken, exists_layout_iff_nodup.mp laid⟩
  · rintro ⟨before, after, cut, taken, distinct⟩
    exact ⟨before, position, name, after, cut, rfl, exists_layout_iff_nodup.mpr distinct,
      .inl taken⟩

/-- Nothing but a repeated name keeps statements from being laid out. -/
theorem exists_duplicateLabel_iff :
    (∃ position name, layout offset [] sts = .error ⟨position, .duplicateLabel name⟩) ↔
      ¬ (sts.filterMap Statement.label?).Nodup := by
  constructor
  · rintro ⟨position, name, failed⟩ distinct
    obtain ⟨a, laid⟩ := exists_layout_iff_nodup.mpr distinct
    cases failed.symm.trans laid
  · intro repeated
    cases result : layout offset [] sts with
    | ok a => exact absurd (exists_layout_iff_nodup.mp ⟨a, result⟩) repeated
    | error e =>
      obtain ⟨_, position, name, _, _, rfl, _⟩ := layout_eq_error_iff.mp result
      exact ⟨position, name, rfl⟩

end Assembly

theorem Listing.offset_of_append (front back : List Instruction) :
    (∃ e ∈ ofInstructions 0 (front ++ back),
      e.offset = (front.map Instruction.encodedLength).sum) ∨
    (front.map Instruction.encodedLength).sum =
      ((front ++ back).flatMap Instruction.encode).length := by
  cases back with
  | nil =>
    right
    rw [List.append_nil, length_flatMap_encode]
  | cons i back =>
    left
    refine ⟨⟨(front.map Instruction.encodedLength).sum, i⟩, ?_, rfl⟩
    apply List.mem_iff_getElem?.mpr
    exact ⟨front.length, getElem?_ofInstructions.mpr ⟨by simp, by simp⟩⟩

theorem Operand.AllSpelled.colon_not_mem {op : Opcode} {slots : List Slot} {ts : List Token}
    {os : List Operand} (spelled : AllSpelled op slots ts os) : Token.mark .colon ∉ ts := by
  induction spelled with
  | nil => simp
  | @cons slot slots ts us o os first others ih =>
    have part : Token.mark .colon ∉ ts := by cases first <;> simp
    cases slot <;> simp [Slot.separator, part, ih]

namespace PlacedToken

/-- The tokens without the label definitions among them, which are words directly before a colon. -/
def withoutLabels : List PlacedToken → List PlacedToken
  | ⟨.identifier _, _⟩ :: ⟨.mark .colon, _⟩ :: rest => withoutLabels rest
  | t :: rest => t :: withoutLabels rest
  | [] => []

theorem withoutLabels_cons {t : PlacedToken} {rest : List PlacedToken}
    (plain : rest.head?.map (·.token) ≠ some (.mark .colon)) :
    withoutLabels (t :: rest) = t :: withoutLabels rest := by
  rw [withoutLabels.eq_def]
  split <;> simp_all

theorem withoutLabels_append {before rest : List PlacedToken}
    (plain : .mark .colon ∉ before.map (·.token))
    (next : rest.head?.map (·.token) ≠ some (.mark .colon)) :
    withoutLabels (before ++ rest) = before ++ withoutLabels rest := by
  induction before with
  | nil => rfl
  | cons t before ih =>
    rw [List.map_cons, List.mem_cons, not_or] at plain
    rw [List.cons_append, List.cons_append, withoutLabels_cons, ih plain.2]
    cases before with
    | nil => exact next
    | cons u before =>
      intro colon
      exact plain.2 (by simp_all)

end PlacedToken

namespace Statement

variable {st : Statement} {taken rest : List PlacedToken} {i : Instruction}

theorem Opens.colon_not_mem (opens : st.Opens taken rest) (instruction : st.kind = .instruction i) :
    .mark .colon ∉ taken.map (·.token) := by
  have spelled := StatementKind.written_iff_spelled.mp opens.written
  rw [instruction] at spelled
  generalize taken.map (·.token) = tokens at spelled
  cases spelled with
  | instruction mnemonic operands => simpa using operands.colon_not_mem

/-- What follows a statement may be replaced, as long as no colon comes to stand there. -/
theorem Opens.replace {other : List PlacedToken} (opens : st.Opens taken rest)
    (next : other.head?.map (·.token) = some (.mark .colon) →
      rest.head?.map (·.token) = some (.mark .colon)) : st.Opens taken other := by
  refine ⟨opens.written, opens.place, fun i instruction => ?_⟩
  have plain := opens.unlabelled i instruction
  cases taken with
  | nil => cases opens.place
  | cons t tail =>
    cases tail with
    | nil =>
      simp only [List.head?_eq_getElem?] at next
      exact mt next plain
    | cons u tail => exact plain

theorem Sequence.withoutLabels {tokens : List PlacedToken} {sts : List Statement}
    (sequence : Sequence tokens sts) :
    Sequence (PlacedToken.withoutLabels tokens) (sts.filter (·.label?.isNone)) := by
  induction sequence with
  | nil => exact .nil
  | @cons st sts taken rest first others ih =>
    obtain ⟨position, kind⟩ := st
    cases kind with
    | label name =>
      have written : StatementKind.Written _ (.label name) := first.written
      generalize two : taken.map (·.token) = tokens at written
      cases written
      obtain ⟨⟨_, _⟩, tail, rfl, rfl, one⟩ := List.map_eq_cons_iff.mp two
      obtain ⟨⟨_, _⟩, tail, rfl, rfl, none⟩ := List.map_eq_cons_iff.mp one
      rw [List.map_eq_nil_iff.mp none]
      exact ih
    | instruction i =>
      rw [PlacedToken.withoutLabels_append (first.colon_not_mem rfl) others.head?_ne_colon]
      exact .cons (first.replace fun colon => absurd colon ih.head?_ne_colon) ih

theorem map_instruction?_filter (sts : List Statement) :
    (sts.filter (·.label?.isNone)).map instruction? = (sts.filterMap instruction?).map some := by
  induction sts with
  | nil => rfl
  | cons st sts ih =>
    obtain ⟨position, kind⟩ := st
    cases kind with
    | label name => exact ih
    | instruction i => exact congrArg (some i :: ·) ih

end Statement

namespace Assembly

variable {s : TokenStream} {a : Assembly}

theorem ofStream_withoutLabels {t : TokenStream} (assembled : ofStream s = .ok a)
    (tokens : t.tokens = PlacedToken.withoutLabels s.tokens) : ofStream t = .ok ⟨a.code, []⟩ := by
  obtain ⟨laid, complete⟩ := ofStream_eq_ok_iff.mp assembled
  have sequence := (Parsed.sequence_of_failure complete).withoutLabels
  have all : s.reset.ahead = s.tokens := rfl
  rw [all, ← tokens] at sequence
  rw [ofStream_of_sequence sequence, code_of_ofStream assembled]
  apply layout_of_instructions
  exact Statement.map_instruction?_filter _

theorem place_of_label (assembled : ofStream s = .ok a) :
    ∃ entries, Listing.decode a.code = .ok entries ∧
      ∀ l ∈ a.labels, (∃ e ∈ entries, e.offset = l.2) ∨ l.2 = a.code.length := by
  refine ⟨_, decode_code assembled, ?_⟩
  rintro ⟨name, place⟩ member
  obtain ⟨before, position, after, cut, rfl⟩ :=
    (mem_labels_of_layout (ofStream_eq_ok_iff.mp assembled).1).mp member
  rw [code_of_ofStream assembled, Parsed.instructions, cut, List.filterMap_append, Nat.zero_add]
  exact Listing.offset_of_append _ _

/-- Labels name places between instructions. The table of an assembly holds every definition once,
with the length of the code before it, which is the offset of an entry in the listing or the end of
the code; and the code is the same without the definitions. Statements that define a name twice are
complained about where this first happens, and only these. -/
theorem labels_name_places (s : TokenStream) :
    let sts := (Parsed.ofStream s.reset).statements
    (∀ a, ofStream s = .ok a →
      (∀ name offset, (name, offset) ∈ a.labels ↔ ∃ before position after,
        sts = before ++ ⟨position, .label name⟩ :: after ∧
          offset = Statement.codeLength before) ∧
      a.names = sts.filterMap Statement.label? ∧ a.names.Nodup ∧
      (∃ entries, Listing.decode a.code = .ok entries ∧
        ∀ l ∈ a.labels, (∃ e ∈ entries, e.offset = l.2) ∨ l.2 = a.code.length) ∧
      ∀ t : TokenStream, t.tokens = PlacedToken.withoutLabels s.tokens →
        ofStream t = .ok ⟨a.code, []⟩) ∧
    ((Parsed.ofStream s.reset).failure = none →
      (∀ position name, ofStream s = .error ⟨position, .duplicateLabel name⟩ ↔
        ∃ before after, sts = before ++ ⟨position, .label name⟩ :: after ∧
          name ∈ before.filterMap Statement.label? ∧
          (before.filterMap Statement.label?).Nodup) ∧
      ((∃ position name, ofStream s = .error ⟨position, .duplicateLabel name⟩) ↔
        ¬ (sts.filterMap Statement.label?).Nodup) ∧
      ((∃ a, ofStream s = .ok a) ↔ (sts.filterMap Statement.label?).Nodup)) := by
  intro sts
  refine ⟨fun a assembled => ?_, fun complete => ?_⟩
  · have laid := (ofStream_eq_ok_iff.mp assembled).1
    have names := names_of_layout laid
    refine ⟨fun name offset => ?_, names, ?_, place_of_label assembled, fun t tokens => ?_⟩
    · simpa using mem_labels_of_layout laid
    · rw [names]
      exact (exists_layout_iff.mp ⟨a, laid⟩).1
    · exact ofStream_withoutLabels assembled tokens
  · have sequence : Statement.Sequence s.tokens sts := Parsed.sequence_of_failure complete
    rw [ofStream_of_sequence sequence]
    refine ⟨fun position name => ?_, ?_, ?_⟩
    · exact layout_eq_duplicateLabel_iff
    · exact exists_duplicateLabel_iff
    · exact exists_layout_iff_nodup

/-- A label named like a mnemonic, one at the end, and one that differs only in case; then a name
defined twice. -/
theorem labels_name_places_mnemonic :
    let word (name : String) (column : Nat) : PlacedToken := ⟨.identifier name, ⟨1, column, 0⟩⟩
    let colon : PlacedToken := ⟨.mark .colon, .start⟩
    let s := TokenStream.ofTokenList [word "pop" 1, word "POP" 2, colon, word "pop" 3,
      word "pop" 4, colon]
    let t := TokenStream.ofTokenList [word "pop" 1, word "pop" 3]
    let r := TokenStream.ofTokenList [word "x" 1, colon, word "pop" 2, word "x" 3, colon]
    ofStream s = .ok ⟨[0xFC, 0xFC], [("POP", 1), ("pop", 2)]⟩ ∧
    ofStream t = .ok ⟨[0xFC, 0xFC], []⟩ ∧
    (Parsed.ofStream r.reset).failure = none ∧
    ofStream r = .error ⟨⟨1, 3, 0⟩, .duplicateLabel "x"⟩ := by
  intro word colon s t r
  have assembled : ofStream s = .ok ⟨[0xFC, 0xFC], [("POP", 1), ("pop", 2)]⟩ := by decide +kernel
  have complete : (Parsed.ofStream r.reset).failure = none := by decide +kernel
  have cut : (Parsed.ofStream r.reset).statements =
      [⟨⟨1, 1, 0⟩, .label "x"⟩, ⟨⟨1, 2, 0⟩, .instruction ⟨.pop, []⟩⟩] ++
        [⟨⟨1, 3, 0⟩, .label "x"⟩] := by
    decide +kernel
  have table := (labels_name_places s).1 _ assembled
  have repeated := (labels_name_places r).2 complete
  refine ⟨assembled, ?_, complete, ?_⟩
  · exact table.2.2.2.2 t (by decide)
  · exact (repeated.1 _ _).mpr ⟨_, [], cut, by decide, by decide⟩

end Assembly
end OctetMachine
