import Mathlib
import OctetMachine.Source.LineIndex

/-! The place behind a text, by a plain count of its line breaks and of the characters on its last
line, and the look-up that finds it for any text that goes on from there. -/
namespace OctetMachine

/-- The characters behind the last line break. -/
def Text.lastLine (text : List Char) : List Char :=
  (text.reverse.takeWhile (· != '\n')).reverse

/-- The place that follows a text which starts a source. -/
def Position.behind (text : List Char) : Position :=
  ⟨text.count '\n' + 1, (Text.lastLine text).length + 1, Text.utf8Length text⟩

namespace Text

theorem utf8Length_toList (source : String) :
    utf8Length source.toList = source.utf8ByteSize := by
  have sizes : ∀ text : List Char, utf8Length text = (String.ofList text).utf8ByteSize := by
    intro text
    induction text with
    | nil => rfl
    | cons c text ih => simp [String.ofList_cons, ih]
  rw [sizes, String.ofList_toList]

theorem lastLine_concat_break (text : List Char) : lastLine (text ++ ['\n']) = [] := by
  simp [lastLine]

theorem lastLine_concat {c : Char} (other : c ≠ '\n') (text : List Char) :
    lastLine (text ++ [c]) = lastLine text ++ [c] := by
  simp [lastLine, other]

/-- Nothing before a line break is on the last line. -/
theorem lastLine_append_break (before text : List Char) :
    lastLine (before ++ '\n' :: text) = lastLine text := by
  simp only [lastLine, List.reverse_append, List.reverse_cons, List.append_assoc,
    List.singleton_append]
  induction text.reverse with
  | nil => simp
  | cons c rest ih =>
    rw [List.cons_append, List.takeWhile_cons, List.takeWhile_cons]
    split
    · simpa using ih
    · rfl

end Text

/-- A place of a text that stands behind a first text and a line break. -/
def Position.shift (first : List Char) (p : Position) : Position :=
  ⟨p.line + (first.count '\n' + 1), p.column, p.offset + (Text.utf8Length first + 1)⟩

theorem Position.behind_append_break (first text : List Char) :
    behind (first ++ '\n' :: text) = (behind text).shift first := by
  have size : '\n'.utf8Size = 1 := rfl
  simp only [behind, shift, Text.lastLine_append_break, List.count_append, List.count_cons_self,
    Text.utf8Length_append, Text.utf8Length_cons, size, mk.injEq, true_and]
  omega

/-- The same line in a source that goes on. -/
def LineStart.extend (rest : List Char) (start : LineStart) : LineStart :=
  ⟨start.offset, start.text ++ rest⟩

namespace LineIndex

/-- The lines of a text that begins at an offset. -/
def lines (offset : Nat) (text : List Char) : List LineStart :=
  ⟨offset, text⟩ :: startsAfter offset text

theorem startsAfter_append (offset : Nat) (text rest : List Char) :
    startsAfter offset (text ++ rest) = (startsAfter offset text).map (LineStart.extend rest) ++
      startsAfter (offset + Text.utf8Length text) rest := by
  induction text generalizing offset with
  | nil => rfl
  | cons c text ih =>
    simp only [List.cons_append, startsAfter, ih, Text.utf8Length_cons, Nat.add_assoc]
    split <;> rfl

theorem lines_append (offset : Nat) (text rest : List Char) :
    lines offset (text ++ rest) = (lines offset text).map (LineStart.extend rest) ++
      startsAfter (offset + Text.utf8Length text) rest := by
  rw [lines, startsAfter_append]
  rfl

theorem length_startsAfter (offset : Nat) (text : List Char) :
    (startsAfter offset text).length = text.count '\n' := by
  induction text generalizing offset with
  | nil => rfl
  | cons c text ih =>
    rw [startsAfter, List.count_cons]
    split <;> simp_all

/-- A line starts behind the line break before it, which belongs to the text. -/
theorem offset_of_mem_startsAfter {offset : Nat} {text : List Char} {start : LineStart}
    (member : start ∈ startsAfter offset text) :
    offset < start.offset ∧ start.offset ≤ offset + Text.utf8Length text := by
  induction text generalizing offset with
  | nil => cases member
  | cons c text ih =>
    have positive := c.utf8Size_pos
    rw [Text.utf8Length_cons]
    have later : start ∈ startsAfter (offset + c.utf8Size) text →
        offset < start.offset ∧ start.offset ≤ offset + (c.utf8Size + Text.utf8Length text) := by
      intro member
      have bounds := ih member
      omega
    rw [startsAfter] at member
    split at member
    · rcases List.mem_cons.mp member with rfl | member
      · exact ⟨by simpa using positive, by simp⟩
      · exact later member
    · exact later member

/-- The last line of a text, and where it starts. -/
theorem getLast?_lines (offset : Nat) (text : List Char) : ∃ before : List Char,
    text = before ++ Text.lastLine text ∧
      (lines offset text).getLast? =
        some ⟨offset + Text.utf8Length before, Text.lastLine text⟩ := by
  -- Induction from the back: a line break starts a new last line, any other character extends it.
  induction text using List.reverseRecOn with
  | nil => exact ⟨[], rfl, rfl⟩
  | append_singleton text c ih =>
    by_cases newline : c = '\n'
    · cases newline
      refine ⟨text ++ ['\n'], by simp [Text.lastLine_concat_break], ?_⟩
      rw [lines_append, Text.lastLine_concat_break]
      simp [startsAfter, Nat.add_assoc]
    · obtain ⟨before, cut, last⟩ := ih
      refine ⟨before, ?_, ?_⟩
      · rw [Text.lastLine_concat newline, ← List.append_assoc, ← cut]
      · have none : startsAfter (offset + Text.utf8Length text) [c] = [] := by
          simp [startsAfter, newline]
        rw [lines_append, none, List.append_nil, List.getLast?_map, last,
          Text.lastLine_concat newline]
        rfl

theorem charsWithin_append (text rest : List Char) :
    charsWithin (Text.utf8Length text) (text ++ rest) = text.length := by
  induction text with
  | nil => cases rest <;> rfl
  | cons c text ih =>
    obtain ⟨bytes, size⟩ := Nat.exists_eq_add_of_lt c.utf8Size_pos
    have more : Text.utf8Length (c :: text) = bytes + Text.utf8Length text + 1 := by
      rw [Text.utf8Length_cons, size]
      omega
    have left : bytes + Text.utf8Length text + 1 - c.utf8Size = Text.utf8Length text := by omega
    rw [more, List.cons_append, charsWithin, left, ih, List.length_cons, Nat.add_comm]

/-- The binary search finds the last line that starts no later than an offset. -/
theorem search_eq {starts : Array LineStart} {offset line : Nat}
    (early : ∀ i, starts[i]?.any (fun start => start.offset ≤ offset) = true ↔ i ≤ line)
    {lo hi : Nat} (above : lo ≤ line) (below : line < hi) :
    search starts offset lo hi = line := by
  fun_induction search starts offset lo hi with
  | case1 lo hi _ mid found ih => exact ih ((early mid).mp found) below
  | case2 lo hi _ mid found ih =>
    refine ih above ?_
    exact Nat.not_le.mp fun le => found ((early mid).mpr le)
  | case3 lo hi stop => omega

/-- Of the lines of a text that goes on, those that start in its first part come first. -/
theorem getElem?_lines_any (before after : List Char) (i : Nat) :
    (lines 0 (before ++ after))[i]?.any (fun start => start.offset ≤ Text.utf8Length before) = true
      ↔ i ≤ before.count '\n' := by
  have size : ((lines 0 before).map (LineStart.extend after)).length = before.count '\n' + 1 := by
    simp [lines, length_startsAfter]
  rw [lines_append, List.getElem?_append, size]
  split
  case isTrue inside =>
    simp only [Nat.le_of_lt_succ inside, iff_true, Option.any_eq_true, decide_eq_true_eq]
    refine ⟨_, List.getElem?_eq_getElem (size ▸ inside), ?_⟩
    obtain ⟨start, member, same⟩ := List.mem_map.mp (List.getElem_mem (size ▸ inside))
    rw [← same]
    rcases List.mem_cons.mp member with rfl | member
    · exact Nat.zero_le _
    · simpa [LineStart.extend] using (offset_of_mem_startsAfter member).2
  case isFalse outside =>
    simp only [show ¬ i ≤ before.count '\n' by omega, iff_false, Option.any_eq_true,
      decide_eq_true_eq, not_exists, not_and]
    intro start found
    have late := (offset_of_mem_startsAfter (List.mem_of_getElem? found)).1
    omega

/-- The line on which a place lies starts behind the last line break before it. -/
theorem getElem?_starts_ofText (before after : List Char) : ∃ first : List Char,
    before = first ++ Text.lastLine before ∧
      (ofText (before ++ after)).starts[before.count '\n']? =
        some ⟨Text.utf8Length first, Text.lastLine before ++ after⟩ := by
  have size : (lines 0 before).length = before.count '\n' + 1 := by
    simp [lines, length_startsAfter]
  obtain ⟨first, cut, last⟩ := getLast?_lines 0 before
  rw [List.getLast?_eq_getElem?, size, Nat.add_sub_cancel] at last
  refine ⟨first, cut, List.getElem?_toArray.trans ?_⟩
  change (lines 0 (before ++ after))[before.count '\n']? = _
  rw [lines_append, List.getElem?_append_left (by simp [size]), List.getElem?_map, last]
  simp [LineStart.extend]

theorem search_ofText (before after : List Char) :
    search (ofText (before ++ after)).starts (Text.utf8Length before) 0
      (ofText (before ++ after)).starts.size = before.count '\n' := by
  obtain ⟨_, _, found⟩ := getElem?_starts_ofText before after
  refine search_eq (fun i => ?_) (Nat.zero_le _) ?_
  · exact List.getElem?_toArray ▸ getElem?_lines_any before after i
  · exact (Array.getElem?_eq_some_iff.mp found).1

/-- The position of any place in a text is the one that the text before it determines. -/
theorem position_ofText (before after : List Char) :
    (ofText (before ++ after)).position (Text.utf8Length before) = .behind before := by
  obtain ⟨first, cut, here⟩ := getElem?_starts_ofText before after
  have column : Text.utf8Length before - Text.utf8Length first =
      Text.utf8Length (Text.lastLine before) := by
    conv_lhs => rw [cut]
    rw [Text.utf8Length_append, Nat.add_sub_cancel_left]
  unfold position
  rw [search_ofText]
  simp only [here, column, charsWithin_append]
  rfl

/-- What comes later in a source does not move a place. -/
theorem position_append (before after rest : List Char) :
    (ofText (before ++ after ++ rest)).position (Text.utf8Length before) =
      (ofText (before ++ after)).position (Text.utf8Length before) := by
  rw [List.append_assoc, position_ofText, position_ofText]

/-- A text in front, with a line break, shifts every place. -/
theorem position_append_break (first before after : List Char) :
    (ofText (first ++ '\n' :: (before ++ after))).position
        (Text.utf8Length before + (Text.utf8Length first + 1)) =
      ((ofText (before ++ after)).position (Text.utf8Length before)).shift first := by
  have size : Text.utf8Length before + (Text.utf8Length first + 1) =
      Text.utf8Length (first ++ '\n' :: before) := by
    have one : '\n'.utf8Size = 1 := rfl
    rw [Text.utf8Length_append, Text.utf8Length_cons, one]
    omega
  rw [position_ofText, ← Position.behind_append_break, size,
    ← position_ofText (first ++ '\n' :: before) after]
  simp

@[simp] theorem offset_position (index : LineIndex) (offset : Nat) :
    (index.position offset).offset = offset := by
  simp only [position]
  split <;> rfl

end LineIndex
end OctetMachine
