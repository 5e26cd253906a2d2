import OctetMachine.Listing
import OctetMachine.Proofs.Instruction.Tokens

/-! The text of a listing, read as tokens. What stands beside the instructions is blanks and
comments, so only the instructions are read. -/
namespace OctetMachine

open Lexer

namespace Text

theorem digitChar_of_mem_toDigits {n : Nat} {c : Char} (member : c ∈ Nat.toDigits 16 n) :
    ∃ d < 16, c = Nat.digitChar d := by
  induction n using Nat.strongRecOn with
  | ind n ih =>
    rw [Nat.toDigits_eq_if (by decide)] at member
    split at member
    · rename_i small
      exact ⟨n, small, List.mem_singleton.mp member⟩
    · rename_i large
      rcases List.mem_append.mp member with front | last
      · exact ih (n / 16) (by omega) front
      · exact ⟨n % 16, Nat.mod_lt _ (by decide), List.mem_singleton.mp last⟩

theorem isAlphanum_of_mem_hex {width n : Nat} {c : Char} (member : c ∈ hex width n) :
    c.isAlphanum = true := by
  have digits : ∀ d < 16, (Nat.digitChar d).toUpper.isAlphanum = true := by decide
  rcases List.mem_append.mp member with zero | digit
  · rw [List.eq_of_mem_replicate zero]
    rfl
  · obtain ⟨lower, found, rfl⟩ := List.mem_map.mp digit
    obtain ⟨d, small, rfl⟩ := digitChar_of_mem_toDigits found
    exact digits d small

end Text

namespace Lexer

theorem inComment_of_isAlphanum {c : Char} (alphanum : c.isAlphanum = true) :
    inComment c = true := by
  cases newline : inComment c with
  | true => rfl
  | false =>
    have same : c = '\n' := by simpa [inComment] using newline
    subst same
    cases alphanum

theorem isAlphanum_of_isDigit {c : Char} (digit : c.isDigit = true) : c.isAlphanum = true := by
  have classes : c.isAlphanum = (c.isAlpha || c.isDigit) := rfl
  rw [classes, digit, Bool.or_true]

/-- A comment together with the line break that ends it. -/
theorem reads_commentLine {body : List Char} (inside : ∀ c ∈ body, inComment c = true)
    (rest : List Char) : Reads (';' :: (body ++ ['\n'])) [] rest := by
  have stops : Stops inComment ('\n' :: rest) := stops_cons rfl rest
  have newline : Reads ['\n'] [] rest := reads_blank rfl rest
  exact (reads_comment inside stops).append newline

end Lexer

namespace Listing

/-- The first comment of a listing, behind its semicolon. -/
def title : List Char := " ByteVM Disassembly".toList

/-- The second comment of a listing, behind its semicolon. -/
def sizes (code : List UInt8) (entries : Listing) : List Char :=
  " Code size: ".toList ++ (Nat.toDigits 10 code.length ++ (" bytes (".toList ++
    (Nat.toDigits 10 entries.length ++ " instructions)".toList)))

theorem inComment_of_mem_title : ∀ c ∈ title, inComment c = true := by
  unfold title
  exact List.all_eq_true.mp (by decide)

theorem inComment_of_mem_sizes (code : List UInt8) (entries : Listing) :
    ∀ c ∈ sizes code entries, inComment c = true := by
  have digits : ∀ n : Nat, ∀ c ∈ Nat.toDigits 10 n, inComment c = true := fun n c member =>
    inComment_of_isAlphanum (isAlphanum_of_isDigit
      (Nat.isDigit_of_mem_toDigits (by decide) (by decide) member))
  intro c member
  unfold sizes at member
  simp only [List.mem_append] at member
  rcases member with member | member | member | member | member
  · exact List.all_eq_true.mp (by decide) c member
  · exact digits _ c member
  · exact List.all_eq_true.mp (by decide) c member
  · exact digits _ c member
  · exact List.all_eq_true.mp (by decide) c member

/-- The header is two comment lines and an empty one. -/
theorem toList_header (code : List UInt8) (entries : Listing) :
    (header code entries).toList =
      ';' :: (title ++ ['\n']) ++ (';' :: (sizes code entries ++ ['\n']) ++ ['\n']) := by
  have opening : (toString "; ByteVM Disassembly\n; Code size: ").toList =
      ';' :: (" ByteVM Disassembly".toList ++ '\n' :: ';' :: " Code size: ".toList) := rfl
  have middle : (toString " bytes (").toList = " bytes (".toList := rfl
  have closing : (toString " instructions)\n\n").toList =
      " instructions)".toList ++ ['\n', '\n'] := rfl
  unfold header title sizes
  rw [String.toList_append, String.toList_append, String.toList_append, String.toList_append,
    Nat.toString_eq_ofList_toDigits, Nat.toString_eq_ofList_toDigits, String.toList_ofList,
    String.toList_ofList, opening, middle, closing]
  simp only [List.cons_append, List.append_assoc, List.nil_append]

theorem reads_header (code : List UInt8) (entries : Listing) (rest : List Char) :
    Reads (header code entries).toList [] rest := by
  rw [toList_header]
  have empty : Reads ['\n'] [] rest := reads_blank rfl rest
  have second := (reads_commentLine (inComment_of_mem_sizes code entries) _).append empty
  exact (reads_commentLine inComment_of_mem_title _).append second

theorem inComment_of_mem_intercalate {texts : List (List Char)}
    (inside : ∀ text ∈ texts, ∀ c ∈ text, inComment c = true) :
    ∀ c ∈ [' '].intercalate texts, inComment c = true := by
  induction texts with
  | nil => simp
  | cons text texts ih =>
    have others := ih fun text' member => inside text' (by simp [member])
    cases texts with
    | nil => simpa using inside text (by simp)
    | cons next texts =>
      intro c member
      rw [List.intercalate_cons_cons] at member
      simp only [List.mem_append, List.mem_singleton] at member
      rcases member with (member | rfl) | member
      · exact inside text (by simp) c member
      · rfl
      · exact others c member

namespace Entry

/-- The comment of a line that shows these bytes, behind its semicolon. -/
def remark (e : Entry) (bytes : List UInt8) : List Char :=
  " 0x".toList ++ (Text.hex 4 e.offset ++
    (": ".toList ++ [' '].intercalate (bytes.map Text.hexByte)))

theorem inComment_of_mem_remark (e : Entry) (bytes : List UInt8) :
    ∀ c ∈ e.remark bytes, inComment c = true := by
  intro c member
  simp only [remark, List.mem_append] at member
  rcases member with member | member | member | member
  · exact List.all_eq_true.mp (by decide) c member
  · exact inComment_of_isAlphanum (Text.isAlphanum_of_mem_hex member)
  · exact List.all_eq_true.mp (by decide) c member
  · refine inComment_of_mem_intercalate ?_ c member
    intro text found d digit
    obtain ⟨b, _, rfl⟩ := List.mem_map.mp found
    exact inComment_of_isAlphanum (Text.isAlphanum_of_mem_hex digit)

/-- A line without its line break, where it shows these bytes. -/
def row (e : Entry) (bytes : List UInt8) : String :=
  padded commentColumn e.instruction.text ++ "; 0x" ++ String.ofList (Text.hex 4 e.offset) ++ ": " ++
    " ".intercalate (bytes.map fun b => String.ofList (Text.hexByte b))

theorem line_eq_row (code : List UInt8) (e : Entry) :
    e.line code = e.row ((e.rawBytes? code).getD []) ++ "\n" := rfl

/-- Behind an instruction, a line holds nothing but blanks and one comment. -/
theorem row_eq (e : Entry) (bytes : List UInt8) :
    e.row bytes = e.instruction.text ++ String.ofList
      (List.replicate (commentColumn - e.instruction.text.length) ' ' ++ ';' :: e.remark bytes) := by
  have opening : "; 0x".toList = ';' :: " 0x".toList := rfl
  have space : " ".toList = [' '] := rfl
  have digits : (String.toList ∘ fun b => String.ofList (Text.hexByte b)) = Text.hexByte := by
    funext b
    exact String.toList_ofList
  apply String.toList_injective
  simp only [row, remark, padded, String.toList_append, String.toList_intercalate,
    String.toList_ofList, List.map_map, digits, opening, space, List.append_assoc,
    List.cons_append]

theorem toList_line (code : List UInt8) (e : Entry) :
    (e.line code).toList = e.instruction.text.toList ++
      (List.replicate (commentColumn - e.instruction.text.length) ' ' ++
        ';' :: (e.remark ((e.rawBytes? code).getD []) ++ ['\n'])) := by
  simp [line_eq_row, row_eq]

end Entry

/-- Whatever comes first behind an instruction, it cannot prolong its last word or number. -/
theorem stops_padding (count : Nat) (text : List Char) :
    Stops isWordRest (List.replicate count ' ' ++ ';' :: text) := by
  cases count with
  | zero => exact stops_cons rfl text
  | succ count => exact stops_space _

theorem Entry.reads_line {e : Entry}
    (bound : ∀ o ∈ e.instruction.operands, o.shown ≤ literalLimit) (code : List UInt8)
    (rest : List Char) : Reads (e.line code).toList e.instruction.tokens rest := by
  have comment := reads_commentLine
    (e.inComment_of_mem_remark ((e.rawBytes? code).getD [])) rest
  have beside := (reads_spaces (commentColumn - e.instruction.text.length) _).append comment
  have stops := stops_padding (commentColumn - e.instruction.text.length)
    (e.remark ((e.rawBytes? code).getD []) ++ ['\n'] ++ rest)
  rw [toList_line]
  simpa using (Instruction.reads_text bound (by simpa using stops)).append beside

theorem Entry.fails_line {e : Entry}
    (beyond : ∃ o ∈ e.instruction.operands, literalLimit < o.shown) (code : List UInt8)
    (rest : List Char) : ∃ o ∈ e.instruction.operands, literalLimit < o.shown ∧
      Fails ((e.line code).toList ++ rest) (.integerOutOfRange (toString o.shown)) := by
  rw [toList_line, List.append_assoc]
  apply Instruction.fails_text beyond
  simpa using stops_padding _ (e.remark ((e.rawBytes? code).getD []) ++ ['\n'] ++ rest)

theorem reads_lines {entries : Listing}
    (bound : ∀ e ∈ entries, ∀ o ∈ e.instruction.operands, o.shown ≤ literalLimit)
    (code : List UInt8) (rest : List Char) :
    Reads (entries.flatMap fun e => (e.line code).toList)
      (entries.flatMap fun e => e.instruction.tokens) rest := by
  induction entries with
  | nil => exact reads_nil rest
  | cons e entries ih =>
    have first := Entry.reads_line (bound e (by simp)) code
    have others := ih fun e' member => bound e' (by simp [member])
    exact (first _).append others

theorem fails_lines {entries : Listing}
    (beyond : ∃ e ∈ entries, ∃ o ∈ e.instruction.operands, literalLimit < o.shown)
    (code : List UInt8) (rest : List Char) :
    ∃ e ∈ entries, ∃ o ∈ e.instruction.operands, literalLimit < o.shown ∧
      Fails ((entries.flatMap fun e => (e.line code).toList) ++ rest)
        (.integerOutOfRange (toString o.shown)) := by
  induction entries with
  | nil => simp at beyond
  | cons e entries ih =>
    rw [List.flatMap_cons, List.append_assoc]
    -- The first line with a number that is too large decides.
    by_cases first : ∃ o ∈ e.instruction.operands, literalLimit < o.shown
    · obtain ⟨o, member, large, fails⟩ := Entry.fails_line first code
        ((entries.flatMap fun e => (e.line code).toList) ++ rest)
      exact ⟨e, by simp, o, member, large, fails⟩
    · have bound : ∀ o ∈ e.instruction.operands, o.shown ≤ literalLimit := by
        intro o member
        exact Nat.not_lt.mp fun large => first ⟨o, member, large⟩
      have others : ∃ e ∈ entries, ∃ o ∈ e.instruction.operands, literalLimit < o.shown := by
        simpa [first] using beyond
      obtain ⟨e', found, o, member, large, fails⟩ := ih others
      exact ⟨e', by simp [found], o, member, large, (Entry.reads_line bound code _).fails fails⟩

theorem text_of_decode {code : List UInt8} {entries : Listing}
    (decoded : decode code = .ok entries) :
    text code = .ok (header code entries ++ String.join (entries.map (Entry.line code))) := by
  simp only [text, decoded]

theorem toList_lines (code : List UInt8) (entries : Listing) :
    (header code entries ++ String.join (entries.map (Entry.line code))).toList =
      (header code entries).toList ++ entries.flatMap fun e => (e.line code).toList := by
  rw [String.toList_append, String.toList_join, List.flatMap_map]

/-- A listing whose numbers are small enough is read as its instructions and nothing else. -/
theorem reads_text {code : List UInt8} {entries : Listing} (decoded : decode code = .ok entries)
    (bound : ∀ e ∈ entries, ∀ o ∈ e.instruction.operands, o.shown ≤ literalLimit) :
    ∃ source, text code = .ok source ∧
      Reads source.toList (entries.flatMap fun e => e.instruction.tokens) [] := by
  refine ⟨_, text_of_decode decoded, ?_⟩
  rw [toList_lines]
  exact (reads_header code entries _).append (reads_lines bound code [])

theorem fails_text {code : List UInt8} {entries : Listing} (decoded : decode code = .ok entries)
    (beyond : ∃ e ∈ entries, ∃ o ∈ e.instruction.operands, literalLimit < o.shown) :
    ∃ source, text code = .ok source ∧ ∃ e ∈ entries, ∃ o ∈ e.instruction.operands,
      literalLimit < o.shown ∧ Fails source.toList (.integerOutOfRange (toString o.shown)) := by
  refine ⟨_, text_of_decode decoded, ?_⟩
  obtain ⟨e, found, o, member, large, fails⟩ := fails_lines beyond code []
  rw [List.append_nil] at fails
  refine ⟨e, found, o, member, large, ?_⟩
  rw [toList_lines]
  exact (reads_header code entries _).fails fails

end Listing
end OctetMachine
