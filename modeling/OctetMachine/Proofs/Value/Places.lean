import Mathlib
import OctetMachine.Proofs.Value.Codec

/-! The bytes of a value by their place, counted from the low end. A place is a power of 256 in the
number, so a number keeps the byte at each place when it is written in another width; two values of
one width are equal when they have the same byte at every place. -/
namespace OctetMachine

namespace BigEndian

/-- A byte string spells its number to the base 256, the last byte at place zero. -/
theorem getD_reverse (bytes : List UInt8) (place : Nat) :
    bytes.reverse.getD place 0 = (toNat bytes / 256 ^ place).toUInt8 := by
  induction bytes using List.reverseRecOn generalizing place with
  | nil => simp
  | append_singleton bytes b ih =>
    have byte := b.toNat_lt
    rw [List.reverse_append, List.reverse_singleton, List.singleton_append, toNat_concat]
    cases place with
    | zero =>
      apply UInt8.toNat_inj.mp
      change b.toNat = (256 * toNat bytes + b.toNat) / 1 % 256
      omega
    | succ place =>
      have above : (256 * toNat bytes + b.toNat) / 256 = toNat bytes := by omega
      rw [List.getD_cons_succ, ih, pow_succ', ← Nat.div_div_eq_div_mul, above]

theorem getD_reverse_ofNat {count place : Nat} (inside : place < count) (n : Nat) :
    (ofNat count n).reverse.getD place 0 = (n / 256 ^ place).toUInt8 := by
  induction count generalizing n place with
  | zero => omega
  | succ count ih =>
    rw [ofNat, List.reverse_append, List.reverse_singleton, List.singleton_append]
    cases place with
    | zero => simp
    | succ place =>
      rw [List.getD_cons_succ, ih (by omega), Nat.div_div_eq_div_mul, pow_succ']

end BigEndian

namespace Value

/-- The byte at a distance from the low end; beyond the width there are zeros. -/
def byteAt (v : Value) (place : Nat) : UInt8 := v.bytes.reverse.getD place 0

theorem byteAt_eq_toUInt8 (v : Value) (place : Nat) :
    v.byteAt place = (v.toNat / 256 ^ place).toUInt8 :=
  BigEndian.getD_reverse v.bytes place

theorem byteAt_of_le {v : Value} {place : Nat} (beyond : v.width.bytes ≤ place) :
    v.byteAt place = 0 := by
  apply List.getD_eq_default
  rwa [List.length_reverse, v.length_bytes]

/-- Within the new width, every place keeps its byte. -/
theorem byteAt_resize {w : Width} {place : Nat} (inside : place < w.bytes) (v : Value) :
    (v.resize w).byteAt place = v.byteAt place := by
  rw [byteAt_eq_toUInt8 v]
  exact BigEndian.getD_reverse_ofNat inside v.toNat

theorem byteAt_eq_getElem {v : Value} {place : Nat} (inside : place < v.bytes.reverse.length) :
    v.byteAt place = v.bytes.reverse[place] :=
  List.getD_eq_getElem _ _ inside

/-- A value is its width and the bytes at the places within it. -/
theorem ext_byteAt {a b : Value} (width : a.width = b.width)
    (places : ∀ place < a.width.bytes, a.byteAt place = b.byteAt place) : a = b := by
  have size : a.bytes.reverse.length = b.bytes.reverse.length := by
    rw [List.length_reverse, List.length_reverse, a.length_bytes, b.length_bytes, width]
  refine Value.ext width (List.reverse_injective (List.ext_getElem size ?_))
  intro place inside inside'
  rw [← byteAt_eq_getElem inside, ← byteAt_eq_getElem inside']
  apply places
  rwa [List.length_reverse, a.length_bytes] at inside

theorem mem_bytes_iff {v : Value} {byte : UInt8} :
    byte ∈ v.bytes ↔ ∃ place < v.width.bytes, v.byteAt place = byte := by
  have size : v.bytes.reverse.length = v.width.bytes := by rw [List.length_reverse, v.length_bytes]
  rw [← List.mem_reverse, List.mem_iff_getElem, ← size]
  constructor
  · rintro ⟨place, inside, found⟩
    exact ⟨place, inside, (byteAt_eq_getElem inside).trans found⟩
  · rintro ⟨place, inside, found⟩
    exact ⟨place, inside, (byteAt_eq_getElem inside).symm.trans found⟩

/-- A value in its own width is itself. -/
theorem resize_width (v : Value) : v.resize v.width = v := ofNat_toNat v

end Value
end OctetMachine
