import Mathlib
import OctetMachine.Proofs.Value.Codec
import OctetMachine.Proofs.Value.Halves

/-! The number of a value. A value can be made from bytes, from a number or from two halves, and be
brought to another width; all these ways speak of one number, which has the value's bytes as its
digits to the base 256. -/
namespace OctetMachine

namespace BigEndian

theorem span_eq_pow (count : Nat) : span count = 256 ^ count := by
  induction count with
  | zero => rfl
  | succ count ih => rw [span, ih, pow_succ']

/-- The bytes are the digits of the number, the most significant one in front. -/
theorem toNat_eq_ofDigits (bytes : List UInt8) :
    toNat bytes = Nat.ofDigits 256 (bytes.reverse.map UInt8.toNat) := by
  induction bytes using List.reverseRecOn with
  | nil => rfl
  | append_singleton bytes b ih =>
    rw [toNat_concat, ih, List.reverse_append, List.reverse_singleton, List.singleton_append,
      List.map_cons, Nat.ofDigits_cons, Nat.add_comm]

theorem toNat_append (high low : List UInt8) :
    toNat (high ++ low) = toNat high * 256 ^ low.length + toNat low := by
  simp only [toNat_eq_ofDigits, List.reverse_append, List.map_append, Nat.ofDigits_append,
    List.length_map, List.length_reverse]
  rw [Nat.add_comm, Nat.mul_comm]

end BigEndian

namespace Width

theorem fits_iff {w : Width} {n : Nat} : w.Fits n ↔ n < 256 ^ w.bytes := by
  rw [Fits, BigEndian.span_eq_pow]

theorem Fits.mono {v w : Width} {n : Nat} (fits : v.Fits n) (wider : v.bytes ≤ w.bytes) :
    w.Fits n := by
  rw [fits_iff] at fits ⊢
  exact fits.trans_le (Nat.pow_le_pow_right (by decide) wider)

theorem quadWord_fits (n : UInt64) : quadWord.Fits n.toNat := n.toNat_lt

end Width

namespace Value

theorem toNat_ofNat_eq_iff {w : Width} {n : Nat} : (ofNat w n).toNat = n ↔ w.Fits n := by
  rw [toNat_ofNat, Nat.mod_eq_iff_lt (by rw [BigEndian.span_eq_pow]; positivity)]
  rfl

theorem isSome_ofBytes?_iff {w : Width} {bytes : List UInt8} :
    (ofBytes? w bytes).isSome = true ↔ bytes.length = w.bytes := by
  unfold ofBytes?
  split <;> simp_all

/-- Two values can be joined if they have one width and there is one twice as wide. -/
theorem isSome_ofHalves?_iff {high low : Value} : (ofHalves? high low).isSome = true ↔
    high.width = low.width ∧ low.width ≠ .quadWord := by
  constructor
  · intro joined
    obtain ⟨v, joined⟩ := Option.isSome_iff_exists.mp joined
    obtain ⟨half, same, -⟩ := ofHalves?_eq_some_iff.mp joined
    refine ⟨same, fun widest => ?_⟩
    rw [same, widest] at half
    cases width : v.width <;> rw [width] at half <;> cases half
  · rintro ⟨same, narrow⟩
    obtain ⟨w, double⟩ : ∃ w, high.width.double? = some w := by
      rw [same]
      cases width : low.width with
      | quadWord => exact absurd width narrow
      | _ => exact ⟨_, rfl⟩
    have size : (high.bytes ++ low.bytes).length = w.bytes := by
      rw [List.length_append, high.length_bytes, low.length_bytes, ← same,
        Width.bytes_of_double? double]
    rw [ofHalves?, if_pos same, double, Option.bind_some, isSome_ofBytes?_iff, size]

/-- The high half counts in units of what the low half can hold. -/
theorem Halves.toNat_eq {v high low : Value} (halves : v.Halves high low) :
    v.toNat = high.toNat * 256 ^ low.width.bytes + low.toNat := by
  obtain ⟨-, -, bytes⟩ := halves_iff.mp halves
  rw [toNat, bytes, BigEndian.toNat_append, low.length_bytes]
  rfl

/-- A value in a width that holds it is the same number. -/
theorem toNat_resize {v : Value} {w : Width} (wider : v.width.bytes ≤ w.bytes) :
    (v.resize w).toNat = v.toNat :=
  toNat_ofNat_eq_iff.mpr (v.fits_toNat.mono wider)

theorem resize_resize {v : Value} {w : Width} (wider : v.width.bytes ≤ w.bytes) :
    (v.resize w).resize v.width = v := by
  rw [resize, toNat_resize wider, ofNat_toNat]

theorem halves_of_high?_of_low? {v high low : Value} (upper : v.high? = some high)
    (lower : v.low? = some low) : v.Halves high low := by
  have wide : v.width ≠ .byte := by
    intro width
    rw [high?, width] at upper
    cases upper
  obtain ⟨high', low', halves⟩ := exists_halves wide
  cases upper.symm.trans halves.upper
  cases lower.symm.trans halves.lower
  exact halves

/-- All ways to make and to read a value agree on its number. A number is kept modulo what the width
can count; byte strings of the right length are the values of that width, and the number has them as
digits; joining halves is undone by taking them; a wider width changes nothing that cannot be undone;
and the narrowest width for a number is the least of those that keep it. -/
theorem codecs_agree :
    (∀ (w : Width) (n : Nat), (ofNat w n).width = w ∧ (ofNat w n).toNat = n % 256 ^ w.bytes) ∧
    (∀ (w : Width) (bytes : List UInt8),
      ((ofBytes? w bytes).isSome = true ↔ bytes.length = w.bytes) ∧
      ∀ v, ofBytes? w bytes = some v → v.width = w ∧ v.bytes = bytes ∧
        v.toNat = Nat.ofDigits 256 (bytes.reverse.map UInt8.toNat)) ∧
    (∀ v : Value, ofBytes? v.width v.bytes = some v ∧ ofNat v.width v.toNat = v) ∧
    (∀ high low : Value,
      ((ofHalves? high low).isSome = true ↔ high.width = low.width ∧ low.width ≠ .quadWord) ∧
      ∀ v, ofHalves? high low = some v →
        v.toNat = high.toNat * 256 ^ low.width.bytes + low.toNat ∧
        v.high? = some high ∧ v.low? = some low) ∧
    (∀ v high low : Value, v.high? = some high → v.low? = some low →
      ofHalves? high low = some v) ∧
    (∀ (v : Value) (w : Width), v.width.bytes ≤ w.bytes → (v.resize w).resize v.width = v) ∧
    (∀ n : UInt64, (Width.narrowest n.toNat).Fits n.toNat ∧
      ∀ w : Width, w.Fits n.toNat → (Width.narrowest n.toNat).bytes ≤ w.bytes) ∧
    (∀ (w : Width) (n : Nat), w.Fits n ↔ (ofNat w n).toNat = n) := by
  refine ⟨fun w n => ⟨rfl, ?_⟩, fun w bytes => ⟨isSome_ofBytes?_iff, fun v made => ?_⟩,
    fun v => ⟨ofBytes?_bytes v, ofNat_toNat v⟩,
    fun high low => ⟨isSome_ofHalves?_iff, fun v joined => ?_⟩, fun v high low upper lower => ?_,
    fun v w wider => resize_resize wider, fun n => ⟨?_, fun w fits => Width.narrowest_le fits⟩,
    fun w n => toNat_ofNat_eq_iff.symm⟩
  · rw [toNat_ofNat, BigEndian.span_eq_pow]
  · obtain ⟨rfl, rfl⟩ := ofBytes?_eq_some_iff.mp made
    exact ⟨rfl, rfl, BigEndian.toNat_eq_ofDigits v.bytes⟩
  · have halves := halves_of_ofHalves? joined
    exact ⟨halves.toNat_eq, halves.upper, halves.lower⟩
  · exact (halves_of_high?_of_low? upper lower).joined
  · exact Width.fits_narrowest (Width.quadWord_fits n)

/-- The bytes 1 and 44, as a word and as two halves, and a number that needs four bytes. -/
theorem codecs_agree_three_hundred :
    (ofBytes? .word [1, 44] = some (ofNat .word 300) ∧
      (ofNat .word 300).toNat = Nat.ofDigits 256 [44, 1]) ∧
    (ofHalves? (ofByte 1) (ofByte 44) = some (ofNat .word 300) ∧
      (ofNat .word 300).toNat = (ofByte 1).toNat * 256 ^ 1 + (ofByte 44).toNat) ∧
    ((ofNat .word 300).high? = some (ofByte 1) ∧ (ofNat .word 300).low? = some (ofByte 44) ∧
      ofHalves? (ofByte 1) (ofByte 44) = some (ofNat .word 300)) ∧
    ((ofNat .word 300).resize .quadWord).resize .word = ofNat .word 300 ∧
    (Width.doubleWord.Fits 65536 ∧
      (Width.narrowest 65536).bytes ≤ Width.doubleWord.bytes) := by
  obtain ⟨-, bytes, -, joined, halves, wider, narrowest, -⟩ := codecs_agree
  have made : ofBytes? .word [1, 44] = some (ofNat .word 300) := by decide
  have join : ofHalves? (ofByte 1) (ofByte 44) = some (ofNat .word 300) := by decide
  have upper : (ofNat .word 300).high? = some (ofByte 1) := by decide
  have lower : (ofNat .word 300).low? = some (ofByte 44) := by decide
  have fits : Width.doubleWord.Fits 65536 := by decide
  refine ⟨⟨made, ?_⟩, ⟨join, ?_⟩, ⟨upper, lower, ?_⟩, ?_, fits, ?_⟩
  · exact ((bytes _ _).2 _ made).2.2
  · exact ((joined _ _).2 _ join).1
  · exact halves _ _ _ upper lower
  · exact wider (ofNat .word 300) .quadWord (by decide)
  · exact (narrowest 65536).2 .doubleWord fits

end Value
end OctetMachine
