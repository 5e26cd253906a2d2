import Mathlib
import OctetMachine.Value.Basic

/-! The halves of a value. Every value but a byte has two of them, each of the next narrower width,
and its bytes are those of the high half followed by those of the low half. -/
namespace OctetMachine

namespace Width

theorem double?_eq_some_iff {w d : Width} : w.double? = some d ↔ d.half? = some w := by
  cases w <;> cases d <;> decide

theorem exists_half? {w : Width} (wide : w ≠ .byte) : ∃ h, w.half? = some h := by
  cases w with
  | byte => exact absurd rfl wide
  | _ => exact ⟨_, rfl⟩

end Width

namespace Value

/-- A value, cut in the middle and put together again. -/
structure Halves (v high low : Value) : Prop where
  joined : ofHalves? high low = some v
  upper : v.high? = some high
  lower : v.low? = some low

theorem ofBytes?_eq_some_iff {w : Width} {bytes : List UInt8} {v : Value} :
    ofBytes? w bytes = some v ↔ v.width = w ∧ v.bytes = bytes := by
  constructor
  · intro made
    unfold ofBytes? at made
    split at made
    · cases made
      exact ⟨rfl, rfl⟩
    · cases made
  · rintro ⟨rfl, rfl⟩
    exact ofBytes?_bytes v

theorem ofHalves?_eq_some_iff {high low v : Value} : ofHalves? high low = some v ↔
    v.width.half? = some high.width ∧ high.width = low.width ∧ v.bytes = high.bytes ++ low.bytes := by
  unfold ofHalves?
  by_cases same : high.width = low.width
  · simp only [same, if_true, Option.bind_eq_some_iff, ofBytes?_eq_some_iff,
      Width.double?_eq_some_iff]
    constructor
    · rintro ⟨w, half, rfl, bytes⟩
      exact ⟨half, trivial, bytes⟩
    · rintro ⟨half, -, bytes⟩
      exact ⟨v.width, half, rfl, bytes⟩
  · simp [same]

/-- The halves of a value are told by their widths and their bytes. -/
theorem halves_iff {v high low : Value} : v.Halves high low ↔
    v.width.half? = some high.width ∧ high.width = low.width ∧ v.bytes = high.bytes ++ low.bytes := by
  constructor
  · intro halves
    exact ofHalves?_eq_some_iff.mp halves.joined
  · rintro ⟨half, same, bytes⟩
    refine ⟨ofHalves?_eq_some_iff.mpr ⟨half, same, bytes⟩, ?_, ?_⟩
    · rw [high?, half, Option.bind_some, bytes, ← high.length_bytes, List.take_left]
      exact ofBytes?_bytes high
    · rw [low?, half, Option.bind_some, bytes, ← high.length_bytes, List.drop_left, same]
      exact ofBytes?_bytes low

theorem halves_of_ofHalves? {high low v : Value} (joined : ofHalves? high low = some v) :
    v.Halves high low :=
  halves_iff.mpr (ofHalves?_eq_some_iff.mp joined)

theorem exists_halves {v : Value} (wide : v.width ≠ .byte) : ∃ high low, v.Halves high low := by
  obtain ⟨h, half⟩ := Width.exists_half? wide
  have size : v.bytes.length = h.bytes + h.bytes :=
    v.length_bytes.trans (Width.bytes_of_half? half)
  refine ⟨⟨h, v.bytes.take h.bytes, ?_⟩, ⟨h, v.bytes.drop h.bytes, ?_⟩, halves_iff.mpr ?_⟩
  · rw [List.length_take]
    omega
  · rw [List.length_drop]
    omega
  · exact ⟨half, rfl, (List.take_append_drop h.bytes v.bytes).symm⟩

namespace Halves

variable {a b ah al bh bl : Value}

theorem unique {v w high low : Value} (first : v.Halves high low) (last : w.Halves high low) :
    v = w :=
  Option.some.inj (first.joined.symm.trans last.joined)

/-- Values of one width have halves of one width. -/
theorem width_eq (left : a.Halves ah al) (right : b.Halves bh bl) (width : a.width = b.width) :
    ah.width = bh.width ∧ al.width = bl.width := by
  obtain ⟨halfA, sameA, -⟩ := halves_iff.mp left
  obtain ⟨halfB, sameB, -⟩ := halves_iff.mp right
  have high : ah.width = bh.width := by
    rw [width] at halfA
    exact Option.some.inj (halfA.symm.trans halfB)
  exact ⟨high, sameA.symm.trans (high.trans sameB)⟩

end Halves
end Value
end OctetMachine
