import Mathlib.Data.List.Induction
import OctetMachine.Value.Basic

/-! Byte strings and numbers of a fixed width stand for each other. -/
namespace OctetMachine

namespace BigEndian

theorem toNat_lt (bytes : List UInt8) : toNat bytes < span bytes.length := by
  induction bytes using List.reverseRecOn with
  | nil => exact Nat.one_pos
  | append_singleton bytes b ih =>
    have byte := b.toNat_lt
    rw [toNat_concat, List.length_append, List.length_singleton, span]
    omega

theorem ofNat_toNat (bytes : List UInt8) : ofNat bytes.length (toNat bytes) = bytes := by
  induction bytes using List.reverseRecOn with
  | nil => rfl
  | append_singleton bytes b ih =>
    have byte := b.toNat_lt
    have high : (256 * toNat bytes + b.toNat) / 256 = toNat bytes := by omega
    have low : (256 * toNat bytes + b.toNat).toUInt8 = b := by
      apply UInt8.toNat_inj.mp
      change (256 * toNat bytes + b.toNat) % 256 = b.toNat
      omega
    rw [toNat_concat, List.length_append, List.length_singleton, ofNat, high, low, ih]

end BigEndian

namespace Value

theorem fits_toNat (v : Value) : v.width.Fits v.toNat := by
  have bound := BigEndian.toNat_lt v.bytes
  rwa [v.length_bytes] at bound

theorem ofNat_toNat (v : Value) : ofNat v.width v.toNat = v := by
  have bytes := BigEndian.ofNat_toNat v.bytes
  rw [v.length_bytes] at bytes
  exact Value.ext rfl bytes

/-- The low byte of a value stands last. -/
theorem getLast?_bytes (v : Value) : v.bytes.getLast? = some v.toNat.toUInt8 := by
  obtain ⟨count, size⟩ : ∃ count, v.width.bytes = count + 1 := by
    cases v.width <;> exact ⟨_, rfl⟩
  nth_rewrite 1 [← v.ofNat_toNat]
  rw [bytes_ofNat, size, BigEndian.ofNat, List.getLast?_concat]

@[simp] theorem toNat_ofByte (b : UInt8) : (ofByte b).toNat = b.toNat :=
  BigEndian.toNat_singleton b

end Value
end OctetMachine
