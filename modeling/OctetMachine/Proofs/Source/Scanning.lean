import Mathlib
import OctetMachine.Proofs.Source.Lines

/-! The look-up of a place against a scan that reads the source character by character up to it. Both
come to the same line and column at every boundary between characters, and the scan moves on with
each character, so that no two places of a source have the same line and column. -/
namespace OctetMachine

namespace Text

variable {source : String}

/-- The characters of a source before a position in it. -/
def before (p : source.Pos) : List Char := (source.sliceTo p).copy.toList

def after (p : source.Pos) : List Char := (source.sliceFrom p).copy.toList

theorem before_append_after (p : source.Pos) : before p ++ after p = source.toList := by
  rw [before, after, ← String.toList_append, ← p.splits.eq_append]

theorem utf8Length_before (p : source.Pos) : utf8Length (before p) = p.offset.byteIdx := by
  rw [before, utf8Length_toList, p.splits.offset_eq_rawEndPos]
  rfl

/-- Between two positions there are characters. -/
theorem exists_before_eq_append {p q : source.Pos} (less : p < q) :
    ∃ between : List Char, between ≠ [] ∧ before q = before p ++ between := by
  have bytes : utf8Length (before p) < utf8Length (before q) := by
    rw [utf8Length_before, utf8Length_before]
    exact String.Pos.Raw.lt_iff.mp (String.Pos.lt_iff.mp less)
  -- Both cut the same source; of the two first parts the one with fewer bytes starts the other.
  have same := (before_append_after p).trans (before_append_after q).symm
  rcases List.append_eq_append_iff.mp same with ⟨between, longer, _⟩ | ⟨between, longer, _⟩
  · refine ⟨between, ?_, longer⟩
    rintro rfl
    simp [longer] at bytes
  · rw [longer, utf8Length_append] at bytes
    omega

end Text

namespace Position

/-- The place behind one more character. -/
def advance (p : Position) (c : Char) : Position :=
  if c = '\n' then ⟨p.line + 1, 1, p.offset + c.utf8Size⟩
  else ⟨p.line, p.column + 1, p.offset + c.utf8Size⟩

/-- Line and column; lines count before columns. -/
def place (p : Position) : ℕ ×ₗ ℕ := toLex (p.line, p.column)

theorem place_lt_advance (p : Position) (c : Char) : p.place < (p.advance c).place := by
  unfold advance place
  split <;> simp [Prod.Lex.toLex_lt_toLex]

theorem place_le_foldl_advance (p : Position) (text : List Char) :
    p.place ≤ (text.foldl advance p).place := by
  induction text generalizing p with
  | nil => exact le_rfl
  | cons c text ih => exact (p.place_lt_advance c).le.trans (ih (p.advance c))

theorem behind_concat (text : List Char) (c : Char) :
    behind (text ++ [c]) = (behind text).advance c := by
  unfold advance
  split
  case isTrue newline =>
    subst newline
    simp [behind, Text.lastLine_concat_break]
  case isFalse other => simp [behind, Text.lastLine_concat other, other]

theorem behind_append (first text : List Char) :
    behind (first ++ text) = text.foldl advance (behind first) := by
  induction text generalizing first with
  | nil => rw [List.append_nil, List.foldl_nil]
  | cons c text ih => rw [List.append_cons, ih, behind_concat, List.foldl_cons]

/-- The place behind a text is where the scan of its characters comes to. -/
theorem behind_eq_foldl_advance (text : List Char) : behind text = text.foldl advance start :=
  behind_append [] text

theorem place_behind_lt {text : List Char} (more : text ≠ []) (first : List Char) :
    (behind first).place < (behind (first ++ text)).place := by
  obtain ⟨c, rest, rfl⟩ := List.exists_cons_of_ne_nil more
  rw [behind_append, List.foldl_cons]
  exact ((behind first).place_lt_advance c).trans_le (place_le_foldl_advance _ rest)

end Position

namespace LineIndex

/-- The line is one of the text and holds the offset: it starts between two characters, not behind
the offset, and the line after it, if there is one, starts behind it. -/
structure Covers (text : List Char) (line offset : Nat) : Prop where
  starts : ∃ first start, (ofText text).starts[line]? = some start ∧
    text = first ++ start.text ∧ start.offset = Text.utf8Length first ∧ start.offset ≤ offset
  ends : ∀ next, (ofText text).starts[line + 1]? = some next → offset < next.offset

theorem covers_count (before after : List Char) :
    Covers (before ++ after) (before.count '\n') (Text.utf8Length before) where
  starts := by
    obtain ⟨first, cut, found⟩ := getElem?_starts_ofText before after
    refine ⟨first, _, found, ?_, rfl, ?_⟩
    · rw [← List.append_assoc, ← cut]
    · conv_rhs => rw [cut]
      simp
  ends next found := by
    have late := mt (getElem?_lines_any before after (before.count '\n' + 1)).mp (by omega)
    rw [show (lines 0 (before ++ after))[before.count '\n' + 1]? = some next from
      List.getElem?_toArray.symm.trans found] at late
    simpa using late

theorem position_of_pos {source : String} (p : source.Pos) :
    (ofText source.toList).position p.offset.byteIdx = .behind (Text.before p) := by
  rw [← Text.before_append_after p, ← Text.utf8Length_before p, position_ofText]

/-- The look-up by binary search agrees with a plain scan. At every position of a source, its end
among them, the line counts the line breaks before it and the column the characters behind the last
of them; this is where reading the source up to there comes to. The search ends at a line of the
source, the one that holds the position. A later position has a later line, or the same line and a
later column. -/
theorem position_is_plain_scan (source : String) :
    let index : LineIndex := ofText source.toList
    (∀ p : source.Pos,
      let offset := p.offset.byteIdx
      index.position offset =
        ⟨1 + (Text.before p).count '\n', 1 + (Text.lastLine (Text.before p)).length, offset⟩ ∧
      index.position offset = (Text.before p).foldl Position.advance .start ∧
      Covers source.toList (search index.starts offset 0 index.starts.size) offset ∧
      offset ≤ source.utf8ByteSize) ∧
    ∀ p q : source.Pos, p < q →
      (index.position p.offset.byteIdx).place < (index.position q.offset.byteIdx).place := by
  intro index
  refine ⟨fun p => ⟨?_, ?_, ?_, ?_⟩, fun p q less => ?_⟩
  · rw [position_of_pos, Position.behind, Text.utf8Length_before, Nat.add_comm 1, Nat.add_comm 1]
  · rw [position_of_pos, Position.behind_eq_foldl_advance]
  · have covers := covers_count (Text.before p) (Text.after p)
    rw [← search_ofText (Text.before p) (Text.after p), Text.before_append_after,
      Text.utf8Length_before] at covers
    exact covers
  · rw [← Text.utf8Length_toList, ← Text.before_append_after p, Text.utf8Length_append,
      Text.utf8Length_before]
    omega
  · obtain ⟨between, more, longer⟩ := Text.exists_before_eq_append less
    rw [position_of_pos, position_of_pos, longer]
    exact Position.place_behind_lt more _

/-- Behind an accented letter of two bytes and an empty line: the start of the third line, and the end
of the source on the same line. -/
theorem position_is_plain_scan_empty_line :
    let source := "é\n\nb"
    let index := ofText source.toList
    index.position 4 = ⟨3, 1, 4⟩ ∧ index.position 5 = ⟨3, 2, 5⟩ ∧
    Covers source.toList 2 4 ∧
    (index.position 4).place < (index.position 5).place := by
  intro source index
  obtain ⟨scans, increases⟩ := position_is_plain_scan source
  let third : source.Pos := ⟨⟨4⟩, by decide⟩
  let last : source.Pos := ⟨⟨5⟩, by decide⟩
  have covers : Covers source.toList (search index.starts 4 0 index.starts.size) 4 :=
    (scans third).2.2.1
  have line : search index.starts 4 0 index.starts.size = 2 := by decide +kernel
  rw [line] at covers
  exact ⟨(scans third).1.trans (by decide +kernel), (scans last).1.trans (by decide +kernel),
    covers, increases third last (by decide)⟩

end LineIndex
end OctetMachine
