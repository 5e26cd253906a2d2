import OctetMachine.Token.Lexer

/-! Pieces of text and the tokens that they are read as. A piece is judged together with what
follows it, so that pieces can be put side by side without a word or a digit run growing across the
seam; where it stands does not matter. -/
namespace OctetMachine

namespace Lexer

/-- What follows does not go on with characters of this kind. -/
def Stops (kind : Char → Bool) (rest : List Char) : Prop :=
  ∀ c, rest.head? = some c → kind c = false

theorem stops_cons {kind : Char → Bool} {c : Char} (other : kind c = false) (rest : List Char) :
    Stops kind (c :: rest) := by
  intro d first
  cases first
  exact other

theorem stops_space (rest : List Char) : Stops isWordRest (' ' :: rest) := stops_cons rfl rest

/-- A run of characters of a kind ends where the kind does. -/
theorem run_of_stops {kind : Char → Bool} {body rest : List Char}
    (inside : ∀ c ∈ body, kind c = true) (stops : Stops kind rest) :
    (body ++ rest).takeWhile kind = body ∧ (body ++ rest).dropWhile kind = rest := by
  rw [List.takeWhile_append_of_pos inside, List.dropWhile_append_of_pos inside]
  cases rest with
  | nil => simp
  | cons c rest =>
    have other : ¬ kind c = true := by simp [stops c rfl]
    rw [List.takeWhile_cons_of_neg other, List.dropWhile_cons_of_neg other]
    simp

theorem isBlank_iff {c : Char} :
    isBlank c = true ↔ c = ' ' ∨ c = '\t' ∨ c = '\r' ∨ c = '\n' ∨ c = '\x0c' := by
  simp [isBlank, or_assoc]

theorem scan_blank {c : Char} (blank : isBlank c = true) (offset : Nat) (rest : List Char) :
    scan offset (c :: rest) = scan (offset + c.utf8Size) rest := by
  rw [scan, if_pos blank]

theorem scan_comment (offset : Nat) (rest : List Char) :
    scan offset (';' :: rest) =
      scan (offset + Text.utf8Length (';' :: rest.takeWhile inComment))
        (rest.dropWhile inComment) := by
  rw [scan, if_neg (by decide), if_pos rfl]

theorem separate_of_alphanum {c : Char} (alphanum : c.isAlpha = true ∨ c.isDigit = true) :
    ¬ isBlank c = true ∧ c ≠ ';' := by
  constructor
  · rw [isBlank_iff]
    rintro (rfl | rfl | rfl | rfl | rfl) <;> revert alphanum <;> decide
  · rintro rfl
    revert alphanum
    decide

theorem scan_word {c : Char} (letter : c.isAlpha = true) (offset : Nat) (rest : List Char) :
    scan offset (c :: rest) =
      (scan (offset + Text.utf8Length (c :: rest.takeWhile isWordRest))
        (rest.dropWhile isWordRest)).map
          ((offset, .identifier (String.ofList (c :: rest.takeWhile isWordRest))) :: ·) := by
  obtain ⟨noBlank, noComment⟩ := separate_of_alphanum (.inl letter)
  rw [scan, if_neg noBlank, if_neg noComment, if_pos letter]

theorem isAlpha_eq_false_of_isDigit {c : Char} (digit : c.isDigit = true) : c.isAlpha = false := by
  have letters : c.isAlpha = (decide ('A'.val ≤ c.val ∧ c.val ≤ 'Z'.val) ||
      (decide ('a'.val ≤ c.val) && decide (c.val ≤ 'z'.val))) := rfl
  simp only [Char.isDigit, Bool.and_eq_true, decide_eq_true_eq, UInt32.le_iff_toNat_le] at digit
  simp only [letters, Bool.or_eq_false_iff, Bool.and_eq_false_iff, decide_eq_false_iff_not,
    UInt32.le_iff_toNat_le]
  have nine : ('9'.val).toNat = 57 := rfl
  have a : ('a'.val).toNat = 97 := rfl
  have A : ('A'.val).toNat = 65 := rfl
  constructor <;> omega

theorem scan_digits {c : Char} (digit : c.isDigit = true) (offset : Nat) (rest : List Char) :
    scan offset (c :: rest) =
      if Nat.ofDigitChars 10 (c :: rest.takeWhile Char.isDigit) 0 ≤ literalLimit then
        (scan (offset + Text.utf8Length (c :: rest.takeWhile Char.isDigit))
          (rest.dropWhile Char.isDigit)).map
            ((offset, .literal (.integer
              (Int32.ofNat (Nat.ofDigitChars 10 (c :: rest.takeWhile Char.isDigit) 0)))) :: ·)
      else .error (offset, .integerOutOfRange
        (String.ofList (c :: rest.takeWhile Char.isDigit))) := by
  obtain ⟨noBlank, noComment⟩ := separate_of_alphanum (.inr digit)
  have noLetter : ¬ c.isAlpha = true := by simp [isAlpha_eq_false_of_isDigit digit]
  rw [scan, if_neg noBlank, if_neg noComment, if_neg noLetter, if_pos digit]

theorem scan_mark (m : Mark) (offset : Nat) (rest : List Char) :
    scan offset (m.char :: rest) =
      (scan (offset + m.char.utf8Size) rest).map ((offset, .mark m) :: ·) := by
  rw [scan]
  cases m <;> rfl

/-- In front of this rest, a text is read as these tokens, wherever it stands. -/
def Reads (text : List Char) (tokens : List Token) (rest : List Char) : Prop :=
  ∀ offset, ∃ placed : List (Nat × Token), placed.map Prod.snd = tokens ∧
    scan offset (text ++ rest) =
      (scan (offset + Text.utf8Length text) rest).map (placed ++ ·)

/-- A text is refused for this cause, wherever it stands. -/
def Fails (text : List Char) (cause : LexCause) : Prop :=
  ∀ offset, ∃ place, scan offset text = .error (place, cause)

theorem reads_nil (rest : List Char) : Reads [] [] rest := by
  intro offset
  refine ⟨[], rfl, ?_⟩
  simp only [List.nil_append, Text.utf8Length_nil, Nat.add_zero]
  cases scan offset rest <;> rfl

theorem Reads.append {a b rest : List Char} {tokens others : List Token}
    (first : Reads a tokens (b ++ rest)) (last : Reads b others rest) :
    Reads (a ++ b) (tokens ++ others) rest := by
  intro offset
  obtain ⟨front, rfl, here⟩ := first offset
  obtain ⟨back, rfl, there⟩ := last (offset + Text.utf8Length a)
  refine ⟨front ++ back, List.map_append, ?_⟩
  rw [List.append_assoc, here, there, Text.utf8Length_append, Nat.add_assoc]
  cases scan (offset + (Text.utf8Length a + Text.utf8Length b)) rest with
  | error e => rfl
  | ok tokens => exact congrArg Except.ok (List.append_assoc front back tokens).symm

theorem Reads.fails {a rest : List Char} {tokens : List Token} {cause : LexCause}
    (first : Reads a tokens rest) (last : Fails rest cause) : Fails (a ++ rest) cause := by
  intro offset
  obtain ⟨placed, _, here⟩ := first offset
  obtain ⟨place, there⟩ := last (offset + Text.utf8Length a)
  exact ⟨place, by rw [here, there]; rfl⟩

theorem reads_blank {c : Char} (blank : isBlank c = true) (rest : List Char) :
    Reads [c] [] rest := by
  intro offset
  refine ⟨[], rfl, ?_⟩
  rw [List.singleton_append, scan_blank blank]
  simp only [Text.utf8Length_cons, Text.utf8Length_nil, Nat.add_zero]
  cases scan (offset + c.utf8Size) rest <;> rfl

theorem reads_spaces (count : Nat) (rest : List Char) :
    Reads (List.replicate count ' ') [] rest := by
  induction count with
  | zero => exact reads_nil rest
  | succ count ih =>
    have first : Reads [' '] [] (List.replicate count ' ' ++ rest) := reads_blank rfl _
    simpa [List.replicate_succ] using first.append ih

theorem reads_comment {body rest : List Char} (inside : ∀ c ∈ body, inComment c = true)
    (stops : Stops inComment rest) : Reads (';' :: body) [] rest := by
  intro offset
  refine ⟨[], rfl, ?_⟩
  obtain ⟨taken, left⟩ := run_of_stops inside stops
  rw [List.cons_append, scan_comment, taken, left]
  cases scan (offset + Text.utf8Length (';' :: body)) rest <;> rfl

theorem reads_word {c : Char} {body rest : List Char} (letter : c.isAlpha = true)
    (inside : ∀ d ∈ body, isWordRest d = true) (stops : Stops isWordRest rest) :
    Reads (c :: body) [.identifier (String.ofList (c :: body))] rest := by
  intro offset
  refine ⟨[(offset, .identifier (String.ofList (c :: body)))], rfl, ?_⟩
  obtain ⟨taken, left⟩ := run_of_stops inside stops
  rw [List.cons_append, scan_word letter, taken, left]
  rfl

theorem reads_mark (m : Mark) (rest : List Char) : Reads [m.char] [.mark m] rest := by
  intro offset
  refine ⟨[(offset, .mark m)], rfl, ?_⟩
  rw [List.singleton_append, scan_mark]
  simp

/-- The digits of a number, split at the first one. -/
theorem digits_eq (n : Nat) : ∃ (c : Char) (body : List Char), Nat.toDigits 10 n = c :: body ∧
    c.isDigit = true ∧ ∀ d ∈ body, d.isDigit = true := by
  have digit : ∀ d ∈ Nat.toDigits 10 n, d.isDigit = true := fun d member =>
    Nat.isDigit_of_mem_toDigits (by decide) (by decide) member
  cases digits : Nat.toDigits 10 n with
  | nil => exact absurd digits Nat.toDigits_ne_nil
  | cons c body =>
    rw [digits] at digit
    exact ⟨c, body, rfl, digit c (by simp), fun d member => digit d (by simp [member])⟩

theorem reads_number {n : Nat} {rest : List Char} (bound : n ≤ literalLimit)
    (stops : Stops Char.isDigit rest) :
    Reads (Nat.toDigits 10 n) [.literal (.integer (Int32.ofNat n))] rest := by
  intro offset
  refine ⟨[(offset, .literal (.integer (Int32.ofNat n)))], rfl, ?_⟩
  have value := Nat.ofDigitChars_ten_toDigits (n := n)
  obtain ⟨c, body, digits, digit, inside⟩ := digits_eq n
  rw [digits] at value ⊢
  obtain ⟨taken, left⟩ := run_of_stops inside stops
  rw [List.cons_append, scan_digits digit, taken, left, value, if_pos bound]
  rfl

theorem fails_number {n : Nat} {rest : List Char} (bound : literalLimit < n)
    (stops : Stops Char.isDigit rest) :
    Fails (Nat.toDigits 10 n ++ rest) (.integerOutOfRange (toString n)) := by
  intro offset
  refine ⟨offset, ?_⟩
  have text : toString n = String.ofList (Nat.toDigits 10 n) := Nat.toString_eq_ofList_toDigits
  have value := Nat.ofDigitChars_ten_toDigits (n := n)
  obtain ⟨c, body, digits, digit, inside⟩ := digits_eq n
  rw [digits] at value text ⊢
  obtain ⟨taken, left⟩ := run_of_stops inside stops
  rw [List.cons_append, scan_digits digit, taken, left, value, if_neg (Nat.not_le.mpr bound), text]

theorem isWordRest_of_isDigit {c : Char} (digit : c.isDigit = true) : isWordRest c = true := by
  have classes : c.isAlphanum = (c.isAlpha || c.isDigit) := rfl
  simp [isWordRest, classes, digit]

theorem Stops.digits {rest : List Char} (stops : Stops isWordRest rest) :
    Stops Char.isDigit rest := by
  intro c first
  have other := stops c first
  cases digit : c.isDigit with
  | false => rfl
  | true => simp [isWordRest_of_isDigit digit] at other

def isWord (name : String) : Bool :=
  match name.toList with
  | [] => false
  | c :: body => c.isAlpha && body.all isWordRest

theorem reads_name {name : String} {rest : List Char} (word : isWord name = true)
    (stops : Stops isWordRest rest) : Reads name.toList [.identifier name] rest := by
  unfold isWord at word
  cases chars : name.toList with
  | nil => simp [chars] at word
  | cons c body =>
    simp only [chars, Bool.and_eq_true, List.all_eq_true] at word
    have same : String.ofList (c :: body) = name := by rw [← chars, String.ofList_toList]
    rw [← same]
    exact reads_word word.1 word.2 stops

end Lexer

theorem Literal.value_integer {n : Nat} (bound : n ≤ Lexer.literalLimit) :
    (Literal.integer (Int32.ofNat n)).value = n :=
  Int32.toInt_ofNat_of_lt (Nat.lt_succ_of_le bound)

theorem TokenStream.ofSource_of_reads {source : String} {tokens : List Token}
    (reads : Lexer.Reads source.toList tokens []) :
    ∃ s, ofSource source = .ok s ∧ s.tokens.map (·.token) = tokens := by
  obtain ⟨placed, rfl, scanned⟩ := reads 0
  have ended : ∀ offset, Lexer.scan offset [] = .ok [] := fun offset => by rw [Lexer.scan]
  rw [List.append_nil, ended] at scanned
  refine ⟨_, by simp only [ofSource, scanned, Except.map]; rfl, ?_⟩
  simp [TokenStream.tokens, ofTokens, Function.comp_def]

theorem TokenStream.ofSource_of_fails {source : String} {cause : LexCause}
    (fails : Lexer.Fails source.toList cause) :
    ∃ position, ofSource source = .error ⟨position, cause⟩ := by
  obtain ⟨place, scanned⟩ := fails 0
  exact ⟨_, by simp only [ofSource, scanned]; rfl⟩

end OctetMachine
