import Mathlib
import OctetMachine.Value.Comparison
import OctetMachine.Proofs.Value.Codec

/-! Comparison looks at the sum of a value's bytes and at nothing else. Bringing two values to one
width puts zeros in front of the narrower one, which adds nothing to its sum. -/
namespace OctetMachine

namespace BigEndian

theorem ofNat_zero (count : Nat) : ofNat count 0 = List.replicate count 0 := by
  induction count with
  | zero => rfl
  | succ count ih =>
    rw [List.replicate_succ', ← ih]
    rfl

/-- A number that fits has zeros in front of it in a longer byte string. -/
theorem ofNat_add {count n : Nat} (fits : n < span count) (more : Nat) :
    ofNat (count + more) n = List.replicate more 0 ++ ofNat count n := by
  induction count generalizing n with
  | zero =>
    obtain rfl : n = 0 := Nat.lt_one_iff.mp fits
    rw [Nat.zero_add, ofNat_zero, ofNat, List.append_nil]
  | succ count ih =>
    have above : n / 256 < span count := Nat.div_lt_of_lt_mul fits
    rw [Nat.succ_add, ofNat, ih above, ofNat, List.append_assoc]

end BigEndian

namespace Width

theorem bytes_le_wider_left (a b : Width) : a.bytes ≤ (a.wider b).bytes := by
  unfold wider
  split <;> omega

theorem bytes_le_wider_right (a b : Width) : b.bytes ≤ (a.wider b).bytes := by
  unfold wider
  split <;> omega

end Width

namespace Value

def byteSum (v : Value) : Nat := (v.bytes.map UInt8.toNat).sum

theorem byteSum_le (v : Value) : v.byteSum ≤ 2040 := by
  have each : ∀ n ∈ v.bytes.map UInt8.toNat, n ≤ 255 := by
    intro n member
    obtain ⟨b, _, rfl⟩ := List.mem_map.mp member
    exact Nat.le_of_lt_succ b.toNat_lt
  have sum := List.sum_le_card_nsmul _ 255 each
  have eight := v.width.bytes_le_eight
  rw [List.length_map, v.length_bytes, smul_eq_mul] at sum
  unfold byteSum
  omega

theorem bytes_resize {v : Value} {w : Width} (wider : v.width.bytes ≤ w.bytes) :
    (v.resize w).bytes = List.replicate (w.bytes - v.width.bytes) 0 ++ v.bytes := by
  obtain ⟨more, size⟩ := Nat.exists_eq_add_of_le wider
  have zeros := BigEndian.ofNat_add v.fits_toNat more
  rw [← size, ← bytes_ofNat v.width, ofNat_toNat] at zeros
  rw [resize, bytes_ofNat, zeros, size, Nat.add_sub_cancel_left]

theorem byteSum_resize {v : Value} {w : Width} (wider : v.width.bytes ≤ w.bytes) :
    (v.resize w).byteSum = v.byteSum := by
  rw [byteSum, bytes_resize wider]
  simp [byteSum]

/-- The differences of bytes side by side add up to the difference of the sums. -/
theorem foldr_differences {xs ys : List UInt8} (lengths : xs.length = ys.length) :
    (List.zipWith (fun (x y : UInt8) => (x.toNat : Int) - y.toNat) xs ys).foldr (· + ·) 0 =
      ((xs.map UInt8.toNat).sum : Int) - ((ys.map UInt8.toNat).sum : Int) := by
  induction xs generalizing ys with
  | nil =>
    cases ys with
    | nil => rfl
    | cons y ys => cases lengths
  | cons x xs ih =>
    cases ys with
    | nil => cases lengths
    | cons y ys =>
      have rest := ih (Nat.succ.inj lengths)
      simp only [List.zipWith_cons_cons, List.foldr_cons, rest, List.map_cons, List.sum_cons]
      push_cast
      omega

theorem byteDifference_eq (a b : Value) :
    a.byteDifference b = (a.byteSum : Int) - b.byteSum := by
  have lengths : (a.resize (a.width.wider b.width)).bytes.length =
      (b.resize (a.width.wider b.width)).bytes.length := by
    rw [length_bytes, length_bytes, width_resize, width_resize]
  unfold byteDifference
  rw [foldr_differences lengths]
  change ((a.resize (a.width.wider b.width)).byteSum : Int) -
    (b.resize (a.width.wider b.width)).byteSum = _
  rw [byteSum_resize (Width.bytes_le_wider_left _ _), byteSum_resize (Width.bytes_le_wider_right _ _)]

end Value

namespace Comparison

/-- A relation between numbers. -/
def Relates : Comparison → Nat → Nat → Prop
  | equal, x, y => x = y
  | lessOrEqual, x, y => x ≤ y
  | less, x, y => x < y
  | greater, x, y => y < x
  | greaterOrEqual, x, y => y ≤ x

instance (relation : Comparison) (x y : Nat) : Decidable (relation.Relates x y) :=
  match relation with
  | equal => inferInstanceAs (Decidable (x = y))
  | lessOrEqual => inferInstanceAs (Decidable (x ≤ y))
  | less => inferInstanceAs (Decidable (x < y))
  | greater => inferInstanceAs (Decidable (y < x))
  | greaterOrEqual => inferInstanceAs (Decidable (y ≤ x))

/-- A relation holds of two values when it holds of their byte sums. -/
theorem holds_iff {relation : Comparison} {a b : Value} :
    relation.holds a b = true ↔ relation.Relates a.byteSum b.byteSum := by
  have difference := a.byteDifference_eq b
  unfold holds Value.byteOrder
  cases relation with
  | equal =>
    rw [Ordering.isEq_iff_eq_eq, compare_eq_iff_eq, difference, Relates]
    omega
  | lessOrEqual =>
    rw [Std.isLE_compare, difference, Relates]
    omega
  | less =>
    rw [Ordering.isLT_iff_eq_lt, compare_lt_iff_lt, difference, Relates]
    omega
  | greater =>
    rw [Ordering.isGT_iff_eq_gt, compare_gt_iff_gt, difference, Relates]
    omega
  | greaterOrEqual =>
    rw [Std.isGE_compare, difference, Relates]
    omega

theorem holds_eq_decide (relation : Comparison) (a b : Value) :
    relation.holds a b = decide (relation.Relates a.byteSum b.byteSum) := by
  rw [Bool.eq_iff_iff, holds_iff, decide_eq_true_iff]

theorem greater_eq_not (a b : Value) : greater.holds a b = !lessOrEqual.holds a b := by
  rw [Bool.eq_iff_iff, Bool.not_eq_true', Bool.eq_false_iff, ne_eq, holds_iff, holds_iff, Relates,
    Relates, Nat.not_le]

theorem greaterOrEqual_eq_not (a b : Value) : greaterOrEqual.holds a b = !less.holds a b := by
  rw [Bool.eq_iff_iff, Bool.not_eq_true', Bool.eq_false_iff, ne_eq, holds_iff, holds_iff, Relates,
    Relates, Nat.not_lt]

theorem equal_eq_and (a b : Value) :
    equal.holds a b = (lessOrEqual.holds a b && greaterOrEqual.holds a b) := by
  rw [Bool.eq_iff_iff, Bool.and_eq_true, holds_iff, holds_iff, holds_iff]
  exact Nat.le_antisymm_iff

theorem equal_equivalence : Equivalence fun a b : Value => equal.holds a b = true := by
  simp only [holds_iff]
  exact ⟨fun _ => rfl, fun same => same.symm, fun first last => first.trans last⟩

end Comparison
end OctetMachine
