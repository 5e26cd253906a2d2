/-! Numbers as byte strings, most significant byte first. Writing a number into a fixed count of
bytes keeps its low bytes; reading back gives the number modulo the span of that count. -/
namespace OctetMachine.BigEndian

/-- How many numbers a count of bytes can spell. -/
def span : Nat → Nat
  | 0 => 1
  | count + 1 => 256 * span count

/-- The number that a byte string spells. -/
def toNat (bytes : List UInt8) : Nat :=
  bytes.foldl (fun n b => 256 * n + b.toNat) 0

/-- The low `count` bytes of a number. -/
def ofNat : Nat → Nat → List UInt8
  | 0, _ => []
  | count + 1, n => ofNat count (n / 256) ++ [n.toUInt8]

@[simp] theorem toNat_nil : toNat [] = 0 := rfl

@[simp] theorem toNat_singleton (b : UInt8) : toNat [b] = b.toNat := by
  simp [toNat]

@[simp] theorem toNat_concat (bytes : List UInt8) (b : UInt8) :
    toNat (bytes ++ [b]) = 256 * toNat bytes + b.toNat := by
  simp [toNat]

@[simp] theorem length_ofNat (count n : Nat) : (ofNat count n).length = count := by
  induction count generalizing n with
  | zero => rfl
  | succ count ih => simp [ofNat, ih]

theorem toNat_ofNat (count n : Nat) : toNat (ofNat count n) = n % span count := by
  induction count generalizing n with
  | zero => simp [ofNat, span, Nat.mod_one]
  | succ count ih =>
    have low : n.toUInt8.toNat = n % 256 := rfl
    simp only [ofNat, toNat_concat, ih, low]
    rw [span, Nat.mod_mul]
    omega

end OctetMachine.BigEndian
