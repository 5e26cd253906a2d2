import Mathlib
import OctetMachine.Proofs.Listing.Comments
import OctetMachine.Proofs.Listing.Decoding
import OctetMachine.Proofs.Token.Lines

/-! Listings lose nothing. Behind a heading of three lines every instruction has a line of its own,
whose comment shows where it stands in the code and how it is encoded. These comments give the code
back, and to the lexer they are not there: it reads the instructions and nothing else. -/
namespace OctetMachine

open Lexer

/-- The value stands among the operands, as an immediate or as an address. -/
def Instruction.Mentions (i : Instruction) (v : Value) : Prop :=
  .immediate v ∈ i.operands ∨ .reference v ∈ i.operands

/-- All numbers of an instruction are small if its values are. -/
theorem Instruction.shown_le_iff {i : Instruction} :
    (∀ o ∈ i.operands, o.shown ≤ literalLimit) ↔ ∀ v, i.Mentions v → v.toNat ≤ literalLimit := by
  constructor
  · rintro small v (member | member)
    · exact small _ member
    · exact small _ member
  · intro small o member
    by_contra large
    obtain ⟨v, _, rfl | rfl⟩ := Operand.exists_value_of_shown (Nat.not_le.mp large)
    · exact large (small v (.inl member))
    · exact large (small v (.inr member))

namespace Listing

/-- The code reaches as far as any of its instructions, and holds their encodings. -/
theorem rawBytes?_ofInstructions {front : List UInt8} {is : List Instruction} {e : Entry}
    (member : e ∈ ofInstructions front.length is) :
    e.rawBytes? (front ++ is.flatMap Instruction.encode) = some e.instruction.encode := by
  induction is generalizing front with
  | nil => cases member
  | cons i is ih =>
    rw [ofInstructions_cons] at member
    rw [List.flatMap_cons]
    rcases List.mem_cons.mp member with rfl | later
    · simp [Entry.rawBytes?, ← Instruction.length_encode]
    · rw [← List.append_assoc]
      apply ih
      simpa using later

theorem rawBytes?_of_decode {code : List UInt8} {entries : Listing}
    (decoded : decode code = .ok entries) :
    ∀ e ∈ entries, e.rawBytes? code = some e.instruction.encode := by
  obtain ⟨is, _, rfl, rfl⟩ := decode_eq_ok_iff.mp decoded
  intro e member
  have place : e ∈ ofInstructions ([] : List UInt8).length is := member
  exact rawBytes?_ofInstructions place

/-- The three lines above the instructions. -/
def heading (code : List UInt8) (entries : Listing) : List String :=
  ["; ByteVM Disassembly",
    s!"; Code size: {code.length} bytes ({entries.length} instructions)", ""]

/-- The line of every instruction, with its encoding. -/
def rows (entries : Listing) : List String := entries.map fun e => e.row e.instruction.encode

/-- All lines, with the empty one behind the last line break. -/
def sourceLines (code : List UInt8) (entries : Listing) : List String :=
  heading code entries ++ rows entries ++ [""]

theorem heading_eq (code : List UInt8) (entries : Listing) :
    heading code entries =
      [String.ofList (';' :: title), String.ofList (';' :: sizes code entries), ""] := by
  have first : "; ByteVM Disassembly" = String.ofList (';' :: title) := by decide +kernel
  have second : s!"; Code size: {code.length} bytes ({entries.length} instructions)" =
      String.ofList (';' :: sizes code entries) := by
    apply String.toList_injective
    have opening : (toString "; Code size: ").toList = ';' :: " Code size: ".toList := rfl
    have middle : (toString " bytes (").toList = " bytes (".toList := rfl
    have closing : (toString " instructions)").toList = " instructions)".toList := rfl
    unfold sizes
    rw [String.toList_append, String.toList_append, String.toList_append, String.toList_append,
      Nat.toString_eq_ofList_toDigits, Nat.toString_eq_ofList_toDigits, String.toList_ofList,
      String.toList_ofList, String.toList_ofList, opening, middle, closing]
    simp only [List.cons_append, List.append_assoc]
  rw [heading, first, second]

/-- Lines that all end in a line break are lines with line breaks between them and an empty last. -/
theorem join_lines (texts : List String) :
    String.join (texts.map (· ++ "\n")) = "\n".intercalate (texts ++ [""]) := by
  induction texts with
  | nil => rfl
  | cons text texts ih =>
    have more : texts ++ [""] ≠ [] := by simp
    obtain ⟨next, rest, cut⟩ := List.exists_cons_of_ne_nil more
    rw [List.cons_append, cut, String.intercalate_cons_cons, ← cut, ← ih]
    simp

theorem header_eq (code : List UInt8) (entries : Listing) :
    header code entries = String.join ((heading code entries).map (· ++ "\n")) := by
  apply String.toList_injective
  rw [toList_header, heading_eq]
  simp

theorem text_eq_lines {code : List UInt8} {entries : Listing}
    (decoded : decode code = .ok entries) :
    text code = .ok ("\n".intercalate (sourceLines code entries)) := by
  have lines : entries.map (Entry.line code) = (rows entries).map (· ++ "\n") := by
    rw [rows, List.map_map]
    refine List.map_congr_left fun e member => ?_
    rw [Entry.line_eq_row, rawBytes?_of_decode decoded e member]
    rfl
  rw [text_of_decode decoded, sourceLines, ← join_lines, List.map_append, header_eq, lines]
  simp

theorem notMem_of_inComment {body : List Char} (inside : ∀ c ∈ body, inComment c = true) :
    '\n' ∉ ';' :: body := by
  intro member
  rcases List.mem_cons.mp member with semicolon | found
  · cases semicolon
  · cases inside _ found

theorem Entry.notMem_row (e : Entry) (bytes : List UInt8) : '\n' ∉ (e.row bytes).toList := by
  have comment := notMem_of_inComment (e.inComment_of_mem_remark bytes)
  have text : '\n' ∉ e.instruction.text.toList := Text.notMem_instruction rfl e.instruction
  rw [e.row_eq, String.toList_append, String.toList_ofList]
  simp only [List.mem_append, not_or]
  exact ⟨text, by simp, comment⟩

/-- No line break stands inside a line. -/
theorem notMem_lines (code : List UInt8) (entries : Listing) :
    ∀ line ∈ sourceLines code entries, '\n' ∉ line.toList := by
  have headings : ∀ line ∈ heading code entries, '\n' ∉ line.toList := by
    rw [heading_eq]
    simp only [List.forall_mem_cons, String.toList_ofList]
    exact ⟨notMem_of_inComment inComment_of_mem_title,
      notMem_of_inComment (inComment_of_mem_sizes code entries), by simp, by simp⟩
  have others : ∀ line ∈ rows entries, '\n' ∉ line.toList := by
    refine List.forall_mem_map.mpr fun e _ => ?_
    exact e.notMem_row _
  refine List.forall_mem_append.mpr ⟨List.forall_mem_append.mpr ⟨headings, others⟩, ?_⟩
  simp

/-- The lines of a text. -/
def lines (source : String) : List String := (source.toList.splitOn '\n').map String.ofList

theorem lines_intercalate {texts : List String} (single : ∀ line ∈ texts, '\n' ∉ line.toList)
    (nonempty : texts ≠ []) : lines ("\n".intercalate texts) = texts := by
  have singles : ∀ line ∈ texts.map String.toList, '\n' ∉ line := List.forall_mem_map.mpr single
  have newline : "\n".toList = ['\n'] := rfl
  rw [lines, String.toList_intercalate, newline,
    List.splitOn_intercalate _ singles (by simpa using nonempty), List.map_map]
  simp [Function.comp_def]

/-- What the comments behind the instructions of a listing show, line by line. -/
def comments? (source : String) : Option (List (Nat × List UInt8)) :=
  ((lines source).drop 3).dropLast.mapM fun line => comment? line.toList

theorem Entry.comment?_row (e : Entry) {bytes : List UInt8} (nonempty : bytes ≠ []) :
    comment? (e.row bytes).toList = some (e.offset, bytes) := by
  have front : ';' ∉ e.instruction.text.toList ++
      List.replicate (commentColumn - e.instruction.text.length) ' ' := by
    simp only [List.mem_append, not_or]
    exact ⟨Text.notMem_instruction rfl e.instruction, by simp⟩
  rw [e.row_eq, String.toList_append, String.toList_ofList, ← List.append_assoc]
  exact comment?_remark front nonempty e

theorem comments?_lines (code : List UInt8) (entries : Listing) :
    comments? ("\n".intercalate (sourceLines code entries)) =
      some (entries.map fun e => (e.offset, e.instruction.encode)) := by
  have behind : (sourceLines code entries).drop 3 = rows entries ++ [""] := rfl
  have shown : (fun line => comment? line.toList) ∘ (fun e : Entry => e.row e.instruction.encode) =
      fun e => pure (e.offset, e.instruction.encode) :=
    funext fun e => e.comment?_row (List.cons_ne_nil _ _)
  rw [comments?, lines_intercalate (notMem_lines code entries) (by simp [sourceLines]), behind,
    List.dropLast_concat, rows, List.mapM_map, shown, List.mapM_pure]
  rfl

/-- A line with nothing but a comment has no tokens. -/
theorem ofSource_comment {body : List Char} (inside : ∀ c ∈ body, inComment c = true) :
    ∃ s, TokenStream.ofSource (String.ofList (';' :: body)) = .ok s ∧ s.tokens = [] := by
  obtain ⟨t, read, same⟩ :=
    TokenStream.ofSource_append_remark TokenStream.ofSource_empty (by simp) 0 inside
  exact ⟨t, by simpa using read, same⟩

/-- The heading is read, and has no tokens. -/
theorem ofSource_heading (code : List UInt8) (entries : Listing) :
    ∀ line ∈ heading code entries, ∃ s, TokenStream.ofSource line = .ok s ∧ s.tokens = [] := by
  rw [heading_eq]
  simp only [List.forall_mem_cons]
  exact ⟨ofSource_comment inComment_of_mem_title,
    ofSource_comment (inComment_of_mem_sizes code entries), ⟨_, TokenStream.ofSource_empty, rfl⟩,
    by simp⟩

/-- A line is read as its instruction is, whatever its comment shows. -/
theorem Entry.ofSource_row {e : Entry} {s : TokenStream}
    (read : TokenStream.ofSource e.instruction.text = .ok s) (bytes : List UInt8) :
    ∃ t, TokenStream.ofSource (e.row bytes) = .ok t ∧ t.tokens = s.tokens := by
  rw [e.row_eq]
  exact TokenStream.ofSource_append_remark read (Text.notMem_instruction rfl e.instruction) _
    (e.inComment_of_mem_remark bytes)

theorem Entry.ofSource_row_of_error {e : Entry} {error : LexError}
    (failed : TokenStream.ofSource e.instruction.text = .error error) (bytes : List UInt8) :
    TokenStream.ofSource (e.row bytes) = .error error := by
  rw [e.row_eq]
  refine TokenStream.ofSource_append_of_error failed ?_
  rw [String.toList_ofList]
  exact (stops_padding _ _).digits

theorem Entry.ofSource_text {e : Entry}
    (small : ∀ o ∈ e.instruction.operands, o.shown ≤ literalLimit) :
    ∃ s, TokenStream.ofSource e.instruction.text = .ok s := by
  have ended : Stops isWordRest [] := by simp [Stops]
  obtain ⟨s, read, _⟩ := TokenStream.ofSource_of_reads (Instruction.reads_text small ended)
  exact ⟨s, read⟩

/-- An instruction that cannot be read is refused for one of its values. -/
theorem Entry.ofSource_text_of_large {e : Entry}
    (large : ∃ o ∈ e.instruction.operands, literalLimit < o.shown) :
    ∃ v position, e.instruction.Mentions v ∧ literalLimit < v.toNat ∧
      TokenStream.ofSource e.instruction.text =
        .error ⟨position, .integerOutOfRange (toString v.toNat)⟩ := by
  have ended : Stops isWordRest [] := by simp [Stops]
  obtain ⟨o, member, beyond, fails⟩ := Instruction.fails_text large ended
  rw [List.append_nil] at fails
  obtain ⟨position, failed⟩ := TokenStream.ofSource_of_fails fails
  obtain ⟨v, shown, rfl | rfl⟩ := Operand.exists_value_of_shown beyond
  · exact ⟨v, position, .inl member, beyond, failed⟩
  · exact ⟨v, position, .inr member, beyond, failed⟩

/-- Every line of small numbers is read as its instruction is. -/
theorem exists_streams {entries : Listing}
    (small : ∀ e ∈ entries, ∀ o ∈ e.instruction.operands, o.shown ≤ literalLimit) :
    ∃ streams others : List TokenStream,
      List.Forall₂ (fun e s => TokenStream.ofSource e.instruction.text = .ok s) entries streams ∧
      List.Forall₂ (fun line s => TokenStream.ofSource line = .ok s) (rows entries) others ∧
      others.map TokenStream.tokens = streams.map TokenStream.tokens := by
  induction entries with
  | nil => exact ⟨[], [], .nil, .nil, rfl⟩
  | cons e entries ih =>
    obtain ⟨here, later⟩ := List.forall_mem_cons.mp small
    obtain ⟨streams, others, texts, lines, same⟩ := ih later
    obtain ⟨s, read⟩ := Entry.ofSource_text here
    obtain ⟨t, read', tokens⟩ := Entry.ofSource_row read e.instruction.encode
    exact ⟨s :: streams, t :: others, .cons read texts, .cons read' lines, by simp [tokens, same]⟩

/-- A listing of small numbers is read as its instructions, each on its line. -/
theorem ofSource_of_small {entries : Listing} (code : List UInt8)
    (small : ∀ e ∈ entries, ∀ o ∈ e.instruction.operands, o.shown ≤ literalLimit) :
    ∃ (s : TokenStream) (streams : List TokenStream),
      TokenStream.ofSource ("\n".intercalate (sourceLines code entries)) =
        .ok s ∧
      List.Forall₂ (fun e s => TokenStream.ofSource e.instruction.text = .ok s) entries streams ∧
      s.spots = (streams.zipIdx 4).flatMap fun t => t.1.spotsOn t.2 := by
  obtain ⟨streams, others, texts, lines, same⟩ := exists_streams small
  have headings := ofSource_heading code entries
  simp only [heading, List.forall_mem_cons] at headings
  obtain ⟨⟨a, readA, noneA⟩, ⟨b, readB, noneB⟩, ⟨c, readC, noneC⟩, _⟩ := headings
  have above : List.Forall₂ (fun line s => TokenStream.ofSource line = .ok s)
      (heading code entries) [a, b, c] := .cons readA (.cons readB (.cons readC .nil))
  have below : List.Forall₂ (fun line s => TokenStream.ofSource line = .ok s) [""] [c] :=
    .cons readC .nil
  obtain ⟨s, read, spots⟩ := TokenStream.ofSource_lines
    (List.rel_append (List.rel_append above lines) below) (notMem_lines code entries)
  refine ⟨s, streams, read, texts, ?_⟩
  rw [spots, ← TokenStream.flatMap_spotsOn_congr same]
  simp [List.zipIdx_append, TokenStream.spotsOn, noneA, noneB, noneC]

/-- The first line with a value that is too large is what a listing is refused for. -/
theorem ofSource_of_large {entries : Listing} (code : List UInt8)
    (large : ∃ e ∈ entries, ∃ o ∈ e.instruction.operands, literalLimit < o.shown) :
    ∃ (k : Nat) (e : Entry) (v : Value) (inner outer : Position), entries[k]? = some e ∧
      e.instruction.Mentions v ∧ literalLimit < v.toNat ∧
      (∀ e' ∈ entries.take k, ∀ v', e'.instruction.Mentions v' → v'.toNat ≤ literalLimit) ∧
      TokenStream.ofSource e.instruction.text =
        .error ⟨inner, .integerOutOfRange (toString v.toNat)⟩ ∧
      TokenStream.ofSource ("\n".intercalate (sourceLines code entries)) =
        .error ⟨outer, .integerOutOfRange (toString v.toNat)⟩ ∧
      outer.line = k + 4 ∧ outer.column = inner.column := by
  have found : (entries.find? fun e =>
      decide (∃ o ∈ e.instruction.operands, literalLimit < o.shown)).isSome = true := by
    simpa [List.find?_isSome] using large
  obtain ⟨e, first⟩ := Option.isSome_iff_exists.mp found
  obtain ⟨beyond, before, after, rfl, small⟩ := List.find?_eq_some_iff_append.mp first
  have bounded : ∀ e ∈ before, ∀ o ∈ e.instruction.operands, o.shown ≤ literalLimit := by
    simpa using small
  obtain ⟨v, inner, kind, beyond, failed⟩ := Entry.ofSource_text_of_large (of_decide_eq_true beyond)
  -- All lines above the refused one can be read.
  have each : ∀ line ∈ heading code (before ++ e :: after) ++ rows before,
      ∃ s, TokenStream.ofSource line = .ok s := by
    refine List.forall_mem_append.mpr ⟨fun line member => ?_, List.forall_mem_map.mpr ?_⟩
    · obtain ⟨s, read, _⟩ := ofSource_heading code _ line member
      exact ⟨s, read⟩
    · intro e' member
      obtain ⟨s, read⟩ := Entry.ofSource_text (bounded e' member)
      obtain ⟨t, read', _⟩ := Entry.ofSource_row read e'.instruction.encode
      exact ⟨t, read'⟩
  have single : ∀ line ∈ heading code (before ++ e :: after) ++ rows before,
      '\n' ∉ line.toList := by
    intro line member
    refine notMem_lines code (before ++ e :: after) line ?_
    simp only [sourceLines, rows, List.map_append, List.mem_append] at member ⊢
    exact .inl (member.imp id .inl)
  obtain ⟨outer, refused, down, column⟩ := TokenStream.ofSource_lines_of_error each single
    (Entry.ofSource_row_of_error failed e.instruction.encode) (rows after ++ [""])
  have line := TokenStream.line_of_single failed (Text.notMem_instruction rfl e.instruction)
  refine ⟨before.length, e, v, inner, outer, by simp, kind, beyond, ?_, failed, ?_, ?_, column⟩
  · rw [List.take_left]
    exact fun e' member => Instruction.shown_le_iff.mp (bounded e' member)
  · simpa [sourceLines, rows] using refused
  · have above : (heading code (before ++ e :: after) ++ rows before).length =
        before.length + 3 := by simp [heading, rows]
    rw [down, above, line]

/-- Every listing shows all of its code: behind the heading one line for each instruction, with a
comment that gives its offset and its bytes, and the bytes of all comments are the code. The lexer
sees the instructions only, each as it would be read alone. It refuses a listing only for an
immediate or an address beyond all literals, in the first line that has one. -/
theorem text_is_lossless {code : List UInt8} {entries : Listing}
    (decoded : decode code = .ok entries) :
    ∃ source, text code = .ok source ∧
      (∀ e ∈ entries, e.rawBytes? code = some e.instruction.encode) ∧
      lines source =
        ["; ByteVM Disassembly",
          s!"; Code size: {code.length} bytes ({entries.length} instructions)", ""] ++
        entries.map (fun e => e.row e.instruction.encode) ++ [""] ∧
      comments? source = some (entries.map fun e => (e.offset, e.instruction.encode)) ∧
      (comments? source).map (fun shown => shown.flatMap Prod.snd) = some code ∧
      ((∀ e ∈ entries, ∀ v, e.instruction.Mentions v → v.toNat ≤ 2147483647) →
        ∃ (s : TokenStream) (streams : List TokenStream), TokenStream.ofSource source = .ok s ∧
          List.Forall₂ (fun e s => TokenStream.ofSource e.instruction.text = .ok s)
            entries streams ∧
          s.spots = (streams.zipIdx 4).flatMap fun t => t.1.spotsOn t.2) ∧
      ((∃ e ∈ entries, ∃ v, e.instruction.Mentions v ∧ 2147483647 < v.toNat) →
        ∃ (k : Nat) (e : Entry) (v : Value) (inner outer : Position), entries[k]? = some e ∧
          e.instruction.Mentions v ∧ 2147483647 < v.toNat ∧
          (∀ e' ∈ entries.take k, ∀ v', e'.instruction.Mentions v' → v'.toNat ≤ 2147483647) ∧
          TokenStream.ofSource e.instruction.text =
            .error ⟨inner, .integerOutOfRange (toString v.toNat)⟩ ∧
          TokenStream.ofSource source =
            .error ⟨outer, .integerOutOfRange (toString v.toNat)⟩ ∧
          outer.line = k + 4 ∧ outer.column = inner.column) := by
  have shown := comments?_lines code entries
  refine ⟨_, text_eq_lines decoded, rawBytes?_of_decode decoded,
    lines_intercalate (notMem_lines code entries) (by simp [sourceLines]), shown, ?_, ?_, ?_⟩
  · rw [shown, Option.map_some, List.flatMap_map]
    exact congrArg some (flatMap_encode_of_decode decoded)
  · intro small
    exact ofSource_of_small code fun e member => Instruction.shown_le_iff.mpr (small e member)
  · rintro ⟨e, member, v, inside | inside, large⟩
    · exact ofSource_of_large code ⟨e, member, _, inside, large⟩
    · exact ofSource_of_large code ⟨e, member, _, inside, large⟩

/-- A sum that no source text spells is listed and read, and a move behind it is refused. -/
theorem text_is_lossless_wide_move :
    ∃ source position, text [0xA0, 0xC0, 0x07, 0xC0, 0xD1, 0x02, 0x01,
        0xEC, 0x03, 0xD3, 0x00, 0x00, 0x01, 0x00, 0x00, 0x00, 0x00, 0x00] = .ok source ∧
      comments? source = some [(0, [0xA0, 0xC0, 0x07, 0xC0, 0xD1, 0x02, 0x01]),
        (7, [0xEC, 0x03, 0xD3, 0x00, 0x00, 0x01, 0x00, 0x00, 0x00, 0x00, 0x00])] ∧
      TokenStream.ofSource source = .error ⟨position, .integerOutOfRange "1099511627776"⟩ ∧
      position.line = 5 := by
  have decoded : decode [0xA0, 0xC0, 0x07, 0xC0, 0xD1, 0x02, 0x01,
      0xEC, 0x03, 0xD3, 0x00, 0x00, 0x01, 0x00, 0x00, 0x00, 0x00, 0x00] =
      .ok [⟨0, ⟨.add, [.shortReference 7, .reference (.ofNat .word 513)]⟩⟩,
        ⟨7, ⟨.movq, [.literal 3, .immediate (.ofNat .quadWord 1099511627776)]⟩⟩] := by cbv
  obtain ⟨source, printed, _, _, shown, _, _, refused⟩ := text_is_lossless decoded
  have second : ⟨7, ⟨.movq, [.literal 3, .immediate (.ofNat .quadWord 1099511627776)]⟩⟩ ∈
      [(⟨0, ⟨.add, [.shortReference 7, .reference (.ofNat .word 513)]⟩⟩ : Entry),
        ⟨7, ⟨.movq, [.literal 3, .immediate (.ofNat .quadWord 1099511627776)]⟩⟩] :=
    List.mem_cons_of_mem _ List.mem_cons_self
  obtain ⟨k, e, v, inner, outer, found, inside, beyond, _, _, failed, line, _⟩ :=
    refused ⟨_, second, .ofNat .quadWord 1099511627776, by simp [Instruction.Mentions], by decide⟩
  -- The address in the first line is small, so the second line is refused.
  rcases k with _ | _ | k
  · cases found
    have address : v = .ofNat .word 513 := by simpa [Instruction.Mentions] using inside
    rw [address] at beyond
    exact absurd beyond (by decide)
  · cases found
    have value : v = .ofNat .quadWord 1099511627776 := by simpa [Instruction.Mentions] using inside
    have digits : toString (Value.ofNat .quadWord 1099511627776).toNat = "1099511627776" := by
      decide +kernel
    rw [value, digits] at failed
    exact ⟨source, outer, printed, shown.trans (by decide +kernel), failed, line⟩
  · cases found

end Listing
end OctetMachine
