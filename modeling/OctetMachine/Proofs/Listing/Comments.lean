import Mathlib
import OctetMachine.Proofs.Listing.Text

/-! What the comments of a listing show. The comment of a line is read back as the offset and the
bytes that it was written from, so it holds all of them and nothing else. -/
namespace OctetMachine

namespace Text

/-- The number that a capital hexadecimal digit stands for. -/
def hexDigit? (c : Char) : Option Nat := "0123456789ABCDEF".toList.idxOf? c

/-- The number that capital hexadecimal digits spell. -/
def ofHex? (digits : List Char) : Option Nat :=
  digits.foldlM (fun n c => (hexDigit? c).map (16 * n + ·)) 0

theorem hexDigit?_digitChar : ∀ d < 16, hexDigit? (Nat.digitChar d).toUpper = some d := by
  decide

theorem ofHex?_concat {digits : List Char} {n d : Nat} (front : ofHex? digits = some n)
    (small : d < 16) :
    ofHex? (digits ++ [(Nat.digitChar d).toUpper]) = some (16 * n + d) := by
  unfold ofHex? at front ⊢
  rw [List.foldlM_append, front]
  simp [hexDigit?_digitChar d small]

theorem ofHex?_toDigits (n : Nat) : ofHex? ((Nat.toDigits 16 n).map Char.toUpper) = some n := by
  induction n using Nat.strongRecOn with
  | ind n ih =>
    rw [Nat.toDigits_eq_if (by decide)]
    split
    · rename_i small
      have none : ofHex? [] = some 0 := rfl
      simpa using ofHex?_concat none small
    · have front := ih (n / 16) (by omega)
      have whole := ofHex?_concat front (Nat.mod_lt n (by decide : 16 > 0))
      rw [Nat.div_add_mod] at whole
      simpa using whole

/-- Padding does not change the number. -/
theorem ofHex?_hex (width n : Nat) : ofHex? (hex width n) = some n := by
  have zeros : ∀ count, ofHex? (List.replicate count '0') = some 0 := by
    intro count
    induction count with
    | zero => rfl
    | succ count ih =>
      rw [List.replicate_succ']
      exact ofHex?_concat ih (by decide : 0 < 16)
  have digits := ofHex?_toDigits n
  unfold ofHex? at zeros digits ⊢
  rw [hex, List.foldlM_append, zeros]
  exact digits

/-- The byte that two capital hexadecimal digits spell. -/
def byteOfHex? (digits : List Char) : Option UInt8 :=
  if digits.length = 2 then (ofHex? digits).map Nat.toUInt8 else none

theorem length_hexByte (b : UInt8) : (hexByte b).length = 2 := by
  have digits := Nat.toDigits_length 16 b.toNat 2 (by decide) b.toNat_lt
  simp only [hexByte, hex, List.length_append, List.length_replicate, List.length_map]
  omega

theorem byteOfHex?_hexByte (b : UInt8) : byteOfHex? (hexByte b) = some b := by
  rw [byteOfHex?, if_pos (length_hexByte b), hexByte, ofHex?_hex, Option.map_some]
  simp

theorem notMem_hex {width n : Nat} {c : Char} (other : c.isAlphanum = false) :
    c ∉ hex width n := by
  intro member
  rw [isAlphanum_of_mem_hex member] at other
  cases other

/-- The characters that instructions are written with: letters, digits and four others. -/
def isPlain (c : Char) : Bool := c.isAlphanum || " ,[]".toList.contains c

theorem all_isPlain_keyword (w : Width) : w.keyword.toList.all isPlain = true := by
  cases w <;> decide

theorem all_isPlain_mnemonic (op : Opcode) : op.mnemonic.toList.all isPlain = true := by
  cases op <;> decide

theorem all_isPlain_toDigits (n : Nat) : (Nat.toDigits 10 n).all isPlain = true := by
  refine List.all_eq_true.mpr fun c member => ?_
  have digit := Nat.isDigit_of_mem_toDigits (by decide) (by decide) member
  rw [isPlain, Lexer.isAlphanum_of_isDigit digit, Bool.true_or]

theorem all_isPlain_operand (o : Operand) : o.text.toList.all isPlain = true := by
  have brackets : isPlain '[' = true ∧ isPlain ']' = true ∧ isPlain ' ' = true := by decide
  cases o with
  | literal b => simpa [Operand.text] using all_isPlain_toDigits b.toNat
  | top => decide
  | reference address =>
    cases width : address.width <;>
      simp [Operand.text, Value.text, width, brackets, all_isPlain_toDigits, all_isPlain_keyword,
        -List.all_eq_true]
  | shortReference address => simp [Operand.text, brackets, all_isPlain_toDigits, -List.all_eq_true]
  | immediate value =>
    simp [Operand.text, Value.text, brackets, all_isPlain_toDigits, all_isPlain_keyword,
      -List.all_eq_true]

theorem all_isPlain_instruction (i : Instruction) : i.text.toList.all isPlain = true := by
  have marks : isPlain ',' = true ∧ isPlain ' ' = true := by decide
  have trailing : ∀ os, (Operand.trailingText os).all isPlain = true := by
    intro os
    rw [Operand.trailingText, List.all_flatMap]
    refine List.all_eq_true.mpr fun o _ => ?_
    rw [List.all_cons, List.all_cons, marks.1, marks.2, all_isPlain_operand o]
    rfl
  rw [Instruction.toList_text]
  cases i.operands with
  | nil => simpa using all_isPlain_mnemonic i.opcode
  | cons o os =>
    simp only [List.all_append, List.all_cons, all_isPlain_mnemonic, all_isPlain_operand, trailing,
      marks, Bool.and_self]

theorem notMem_instruction {c : Char} (strange : isPlain c = false) (i : Instruction) :
    c ∉ i.text.toList := by
  intro member
  rw [List.all_eq_true.mp (all_isPlain_instruction i) c member] at strange
  cases strange

end Text

namespace Listing

/-- The bytes that stand in a comment, each as two digits behind a space. -/
def bytesOfHex? (text : List Char) : Option (List UInt8) :=
  (text.splitOn ' ').mapM Text.byteOfHex?

theorem bytesOfHex?_intercalate {bytes : List UInt8} (nonempty : bytes ≠ []) :
    bytesOfHex? ([' '].intercalate (bytes.map Text.hexByte)) = some bytes := by
  have spaceless : ∀ digits ∈ bytes.map Text.hexByte, ' ' ∉ digits := by
    intro digits member
    obtain ⟨b, _, rfl⟩ := List.mem_map.mp member
    exact Text.notMem_hex rfl
  have reads : Text.byteOfHex? ∘ Text.hexByte = some := funext Text.byteOfHex?_hexByte
  rw [bytesOfHex?, List.splitOn_intercalate _ spaceless (by simpa using nonempty), List.mapM_map,
    reads]
  simpa using List.mapM_pure (m := Option) (l := bytes) (f := id)

/-- The offset and the bytes that the comment of a line shows. -/
def comment? (line : List Char) : Option (Nat × List UInt8) := do
  let comment := (line.dropWhile (· != ';')).drop "; 0x".length
  let offset ← Text.ofHex? (comment.takeWhile (· != ':'))
  let bytes ← bytesOfHex? ((comment.dropWhile (· != ':')).drop ": ".length)
  return (offset, bytes)

theorem comment?_remark {front : List Char} {bytes : List UInt8} (uncommented : ';' ∉ front)
    (nonempty : bytes ≠ []) (e : Entry) :
    comment? (front ++ ';' :: e.remark bytes) = some (e.offset, bytes) := by
  have before : ∀ c ∈ front, (c != ';') = true := fun c member =>
    bne_iff_ne.mpr (ne_of_mem_of_not_mem member uncommented)
  have digits : ∀ c ∈ Text.hex 4 e.offset, (c != ':') = true := fun c member =>
    bne_iff_ne.mpr (ne_of_mem_of_not_mem member (Text.notMem_hex rfl))
  have comment : ((front ++ ';' :: e.remark bytes).dropWhile (· != ';')).drop "; 0x".length =
      Text.hex 4 e.offset ++ ':' :: ' ' :: [' '].intercalate (bytes.map Text.hexByte) := by
    rw [List.dropWhile_append_of_pos before]
    rfl
  have offset : (Text.hex 4 e.offset ++ ':' :: ' ' :: [' '].intercalate
      (bytes.map Text.hexByte)).takeWhile (· != ':') = Text.hex 4 e.offset := by
    rw [List.takeWhile_append_of_pos digits]
    simp
  simp only [comment?, comment, offset, List.dropWhile_append_of_pos digits, Text.ofHex?_hex]
  have shown : ((':' :: ' ' :: [' '].intercalate (bytes.map Text.hexByte)).dropWhile
      (· != ':')).drop ": ".length = [' '].intercalate (bytes.map Text.hexByte) := rfl
  rw [shown, bytesOfHex?_intercalate nonempty]
  rfl

end Listing
end OctetMachine
