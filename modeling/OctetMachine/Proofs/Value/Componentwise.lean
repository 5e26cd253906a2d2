import Mathlib
import OctetMachine.Value.Componentwise
import OctetMachine.Proofs.Value.Halves
import OctetMachine.Proofs.Value.Places

/-! Componentwise operators act on each place by itself. The byte at a place of the result is made of
the bytes at that place of the operands, where a narrow right operand has zeros beyond its width. So
nothing is carried from one byte to the next, and an operator may as well act on the halves. -/
namespace OctetMachine

/-- The operators that have a result for all values. -/
inductive Bytewise where
  | add | sub | mul | and | or | xor | shiftLeft | shiftRight
deriving DecidableEq, Repr

namespace Bytewise

def apply : Bytewise → Value → Value → Value
  | add => Value.add
  | sub => Value.sub
  | mul => Value.mul
  | and => Value.and
  | or => Value.or
  | xor => Value.xor
  | shiftLeft => Value.shiftLeft
  | shiftRight => Value.shiftRight

/-- What an operator makes of two bytes, taken as numbers: the result modulo 256. -/
def onBytes (op : Bytewise) (x y : Nat) : Nat :=
  match op with
  | add => (x + y) % 256
  | sub => (x + (256 - y)) % 256
  | mul => x * y % 256
  | and => x &&& y
  | or => x ||| y
  | xor => x ^^^ y
  | shiftLeft => x * 2 ^ y % 256
  | shiftRight => x / 2 ^ y

theorem onBytes_shiftLeft {x y : Nat} (far : 8 ≤ y) : onBytes shiftLeft x y = 0 := by
  obtain ⟨more, rfl⟩ := Nat.exists_eq_add_of_le far
  apply Nat.mod_eq_zero_of_dvd
  rw [pow_add]
  exact Dvd.intro_left (x * 2 ^ more) (by ring)

theorem onBytes_shiftRight {x y : Nat} (byte : x < 256) (far : 8 ≤ y) :
    onBytes shiftRight x y = 0 := by
  apply Nat.div_eq_of_lt
  calc
    x < 2 ^ 8 := byte
    _ ≤ 2 ^ y := Nat.pow_le_pow_right (by decide) far

/-- Every operator combines the bytes in pairs, and each pair as its numbers say. -/
theorem exists_zipBytes (op : Bytewise) : ∃ f : UInt8 → UInt8 → UInt8,
    op.apply = Value.zipBytes f ∧ ∀ x y, (f x y).toNat = op.onBytes x.toNat y.toNat := by
  cases op with
  | add => exact ⟨_, rfl, UInt8.toNat_add⟩
  | sub =>
    refine ⟨_, rfl, fun x y => ?_⟩
    rw [UInt8.toNat_sub, Nat.add_comm]
    rfl
  | mul => exact ⟨_, rfl, UInt8.toNat_mul⟩
  | and => exact ⟨_, rfl, UInt8.toNat_and⟩
  | or => exact ⟨_, rfl, UInt8.toNat_or⟩
  | xor => exact ⟨_, rfl, UInt8.toNat_xor⟩
  | shiftLeft =>
    refine ⟨_, rfl, fun x y => ?_⟩
    split
    · rename_i near
      have small : y.toNat % 8 = y.toNat := Nat.mod_eq_of_lt (UInt8.lt_iff_toNat_lt.mp near)
      rw [UInt8.toNat_shiftLeft, small, Nat.shiftLeft_eq]
      rfl
    · rename_i far
      exact (onBytes_shiftLeft (UInt8.le_iff_toNat_le.mp (UInt8.not_lt.mp far))).symm
  | shiftRight =>
    refine ⟨_, rfl, fun x y => ?_⟩
    split
    · rename_i near
      have small : y.toNat % 8 = y.toNat := Nat.mod_eq_of_lt (UInt8.lt_iff_toNat_lt.mp near)
      rw [UInt8.toNat_shiftRight, small, Nat.shiftRight_eq_div_pow]
      rfl
    · rename_i far
      have eight : 8 ≤ y.toNat := UInt8.le_iff_toNat_le.mp (UInt8.not_lt.mp far)
      exact (onBytes_shiftRight x.toNat_lt eight).symm

end Bytewise

namespace Value

variable {f : UInt8 → UInt8 → UInt8} {a b : Value}

theorem byteAt_zipBytes {place : Nat} (inside : place < a.width.bytes) :
    (zipBytes f a b).byteAt place = f (a.byteAt place) (b.byteAt place) := by
  rw [← byteAt_resize inside b]
  have sizeA : place < a.bytes.reverse.length := by rwa [List.length_reverse, a.length_bytes]
  have sizeB : place < (b.resize a.width).bytes.reverse.length := by
    rwa [List.length_reverse, (b.resize a.width).length_bytes]
  have lengths : a.bytes.length = (b.resize a.width).bytes.length := by
    rw [a.length_bytes, (b.resize a.width).length_bytes, width_resize]
  have reversed : (zipBytes f a b).bytes.reverse =
      List.zipWith f a.bytes.reverse (b.resize a.width).bytes.reverse :=
    List.reverse_zipWith lengths
  rw [byteAt_eq_getElem sizeA, byteAt_eq_getElem sizeB, byteAt, reversed,
    List.getD_eq_getElem _ _ (by rw [List.length_zipWith]; omega), List.getElem_zipWith]

/-- On values of one width there is nothing to resize. -/
theorem bytes_zipBytes (width : a.width = b.width) :
    (zipBytes f a b).bytes = List.zipWith f a.bytes b.bytes := by
  change List.zipWith f a.bytes (b.resize a.width).bytes = _
  rw [width, resize_width]

theorem Halves.zipBytes {ah al bh bl : Value} (left : a.Halves ah al) (right : b.Halves bh bl)
    (width : a.width = b.width) :
    (zipBytes f a b).Halves (Value.zipBytes f ah bh) (Value.zipBytes f al bl) := by
  obtain ⟨high, low⟩ := left.width_eq right width
  obtain ⟨half, same, bytesA⟩ := halves_iff.mp left
  obtain ⟨_, _, bytesB⟩ := halves_iff.mp right
  refine halves_iff.mpr ⟨half, same, ?_⟩
  have lengths : ah.bytes.length = bh.bytes.length := by
    rw [ah.length_bytes, bh.length_bytes, high]
  rw [bytes_zipBytes width, bytes_zipBytes high, bytes_zipBytes low, bytesA, bytesB,
    List.zipWith_append lengths]

/-- A quotient is missing when some byte of the divisor, at a place of the dividend, is zero. -/
theorem div?_eq_none_iff :
    a.div? b = none ↔ ∃ place < a.width.bytes, b.byteAt place = 0 := by
  have zero : (0 : UInt8) ∈ (b.resize a.width).bytes ↔
      ∃ place < a.width.bytes, b.byteAt place = 0 := by
    rw [mem_bytes_iff, width_resize]
    exact exists_congr fun place => and_congr_right fun inside => by rw [byteAt_resize inside]
  rw [← zero, div?]
  split <;> simp_all

theorem div?_eq_none_of_narrow (narrow : b.width.bytes < a.width.bytes) : a.div? b = none :=
  div?_eq_none_iff.mpr ⟨b.width.bytes, narrow, byteAt_of_le (Nat.le_refl _)⟩

theorem eq_zipBytes_of_div? {q : Value} (divided : a.div? b = some q) :
    q = zipBytes (· / ·) a b := by
  unfold div? at divided
  split at divided
  · cases divided
  · exact (Option.some.inj divided).symm

theorem div?_eq_some_iff (width : a.width = b.width) {q : Value} :
    a.div? b = some q ↔ (0 : UInt8) ∉ b.bytes ∧ q = zipBytes (· / ·) a b := by
  rw [div?, width, resize_width]
  split <;> simp_all [eq_comm]

theorem Halves.div?_eq_some_iff {ah al bh bl q : Value} (left : a.Halves ah al)
    (right : b.Halves bh bl) (width : a.width = b.width) :
    a.div? b = some q ↔
      ∃ qh ql, ah.div? bh = some qh ∧ al.div? bl = some ql ∧ q.Halves qh ql := by
  obtain ⟨high, low⟩ := left.width_eq right width
  obtain ⟨_, _, bytes⟩ := halves_iff.mp right
  simp only [Value.div?_eq_some_iff width, Value.div?_eq_some_iff high,
    Value.div?_eq_some_iff low, bytes, List.mem_append, not_or]
  constructor
  · rintro ⟨⟨upper, lower⟩, rfl⟩
    exact ⟨_, _, ⟨upper, rfl⟩, ⟨lower, rfl⟩, left.zipBytes right width⟩
  · rintro ⟨_, _, ⟨upper, rfl⟩, ⟨lower, rfl⟩, halves⟩
    exact ⟨⟨upper, lower⟩, halves.unique (left.zipBytes right width)⟩

/-- What can be undone on bytes can be undone on values. -/
theorem zipBytes_zipBytes_cancel {g : UInt8 → UInt8 → UInt8} (undo : ∀ x y, g (f x y) y = x)
    (a b : Value) : zipBytes g (zipBytes f a b) b = a := by
  refine ext_byteAt rfl fun place inside => ?_
  have within : place < (zipBytes f a b).width.bytes := inside
  rw [byteAt_zipBytes within, byteAt_zipBytes (a := a) within, undo]

end Value

namespace Bytewise

variable {a b : Value} {place : Nat}

theorem width_apply (op : Bytewise) (a b : Value) : (op.apply a b).width = a.width := by
  obtain ⟨f, same, -⟩ := op.exists_zipBytes
  rw [same, Value.width_zipBytes]

theorem toNat_byteAt_apply (op : Bytewise) (inside : place < a.width.bytes) :
    ((op.apply a b).byteAt place).toNat =
      op.onBytes (a.byteAt place).toNat (b.byteAt place).toNat := by
  obtain ⟨f, same, numbers⟩ := op.exists_zipBytes
  rw [same, Value.byteAt_zipBytes inside, numbers]

theorem halves_apply (op : Bytewise) {ah al bh bl : Value} (left : a.Halves ah al)
    (right : b.Halves bh bl) (width : a.width = b.width) :
    (op.apply a b).Halves (op.apply ah bh) (op.apply al bl) := by
  obtain ⟨f, same, -⟩ := op.exists_zipBytes
  rw [same]
  exact left.zipBytes right width

theorem byteAt_shift_of_far (inside : place < a.width.bytes) (far : 8 ≤ b.byteAt place) :
    (a.shiftLeft b).byteAt place = 0 ∧ (a.shiftRight b).byteAt place = 0 := by
  have eight : 8 ≤ (b.byteAt place).toNat := UInt8.le_iff_toNat_le.mp far
  constructor
  · apply UInt8.toNat_inj.mp
    exact (toNat_byteAt_apply shiftLeft inside).trans (onBytes_shiftLeft eight)
  · apply UInt8.toNat_inj.mp
    exact (toNat_byteAt_apply shiftRight inside).trans
      (onBytes_shiftRight (a.byteAt place).toNat_lt eight)

end Bytewise

/-- Componentwise operators are bytewise, aligned at the low end. The result has the width of the
left value, and its byte at a place is made of the two bytes at that place, by the operator on
numbers modulo 256; quotients are missing just where a divisor's byte is zero within the left
value's width. So operators commute with halving and joining, adding and subtracting cancel, and no
place has a say in any other. -/
theorem Value.operators_act_bytewise (a b : Value) :
    (∀ op : Bytewise, (op.apply a b).width = a.width ∧ ∀ place < a.width.bytes,
      ((op.apply a b).byteAt place).toNat =
        op.onBytes (a.byteAt place).toNat (b.byteAt place).toNat) ∧
    (∀ place < a.width.bytes, 8 ≤ b.byteAt place →
      (a.shiftLeft b).byteAt place = 0 ∧ (a.shiftRight b).byteAt place = 0) ∧
    ((a.div? b = none ↔ ∃ place < a.width.bytes, b.byteAt place = 0) ∧
      (b.width.bytes < a.width.bytes → a.div? b = none) ∧
      ∀ q, a.div? b = some q → q.width = a.width ∧ ∀ place < a.width.bytes,
        (q.byteAt place).toNat = (a.byteAt place).toNat / (b.byteAt place).toNat) ∧
    ((a.width ≠ .byte → ∃ ah al, a.Halves ah al) ∧
      ∀ ah al bh bl, a.width = b.width → ofHalves? ah al = some a → ofHalves? bh bl = some b →
        a.Halves ah al ∧ b.Halves bh bl ∧
        (∀ op : Bytewise, (op.apply a b).Halves (op.apply ah bh) (op.apply al bl)) ∧
        ∀ q, a.div? b = some q ↔
          ∃ qh ql, ah.div? bh = some qh ∧ al.div? bl = some ql ∧ q.Halves qh ql) ∧
    ((a.add b).sub b = a ∧ (a.sub b).add b = a) ∧
    (∀ (op : Bytewise) (c d : Value) (place : Nat), place < a.width.bytes →
      place < c.width.bytes → a.byteAt place = c.byteAt place → b.byteAt place = d.byteAt place →
        (op.apply a b).byteAt place = (op.apply c d).byteAt place) := by
  refine ⟨fun op => ⟨op.width_apply a b, fun place => op.toNat_byteAt_apply⟩,
    fun place => Bytewise.byteAt_shift_of_far,
    ⟨div?_eq_none_iff, div?_eq_none_of_narrow, fun q divided => ?_⟩,
    ⟨exists_halves, fun ah al bh bl width left right => ?_⟩,
    ⟨zipBytes_zipBytes_cancel UInt8.add_sub_cancel a b,
      zipBytes_zipBytes_cancel UInt8.sub_add_cancel a b⟩,
    fun op c d place inside inside' sameA sameB => ?_⟩
  · cases eq_zipBytes_of_div? divided
    refine ⟨rfl, fun place inside => ?_⟩
    rw [byteAt_zipBytes inside, UInt8.toNat_div]
  · have halvesA := halves_of_ofHalves? left
    have halvesB := halves_of_ofHalves? right
    exact ⟨halvesA, halvesB, fun op => op.halves_apply halvesA halvesB width,
      fun q => halvesA.div?_eq_some_iff halvesB width⟩
  · apply UInt8.toNat_inj.mp
    rw [op.toNat_byteAt_apply inside, op.toNat_byteAt_apply inside', sameA, sameB]

/-- No carry leaves the low byte of a word, and a word cannot be divided by a byte. -/
theorem Value.operators_act_bytewise_word :
    (ofHalves? (ofByte 1) (ofByte 255) = some (ofNat .word 511) ∧
      ofHalves? (ofByte 0) (ofByte 1) = some (ofNat .word 1) ∧
      ((ofNat .word 511).add (ofNat .word 1)).Halves (ofByte 1) (ofByte 0)) ∧
    ((Value.ofByte 1).width.bytes < (ofNat .word 511).width.bytes ∧
      (ofNat .word 511).div? (ofByte 1) = none) := by
  have left : ofHalves? (ofByte 1) (ofByte 255) = some (ofNat .word 511) := by decide
  have right : ofHalves? (ofByte 0) (ofByte 1) = some (ofNat .word 1) := by decide
  refine ⟨⟨left, right, ?_⟩, by decide, ?_⟩
  · have joined := (operators_act_bytewise (ofNat .word 511) (ofNat .word 1)).2.2.2.1.2 _ _ _ _ rfl
      left right
    exact joined.2.2.1 .add
  · exact (operators_act_bytewise (ofNat .word 511) (ofByte 1)).2.2.1.2.1 (by decide)

end OctetMachine
