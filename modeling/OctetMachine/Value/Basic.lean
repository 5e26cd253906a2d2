import OctetMachine.Width

/-! Values: unsigned numbers of a fixed width, held as big-endian bytes. -/
namespace OctetMachine

/-- A width together with that many bytes, most significant first. -/
@[ext]
structure Value where
  width : Width
  bytes : List UInt8
  length_bytes : bytes.length = width.bytes
deriving DecidableEq, Repr

namespace Value

/-- The value with exactly these bytes; another count of bytes gives none. -/
def ofBytes? (w : Width) (bytes : List UInt8) : Option Value :=
  if h : bytes.length = w.bytes then some ⟨w, bytes, h⟩ else none

/-- The value of a number in a width; the bytes that do not fit are dropped at the high end. -/
def ofNat (w : Width) (n : Nat) : Value :=
  ⟨w, BigEndian.ofNat w.bytes n, BigEndian.length_ofNat _ _⟩

def ofByte (b : UInt8) : Value := ⟨.byte, [b], rfl⟩

def zero (w : Width) : Value := ⟨w, List.replicate w.bytes 0, by simp⟩

instance : Inhabited Value := ⟨zero .byte⟩

def toNat (v : Value) : Nat := BigEndian.toNat v.bytes

/-- The same number in another width: zeros are added, or bytes dropped, at the high end. -/
def resize (v : Value) (w : Width) : Value := ofNat w v.toNat

def byte? (v : Value) : Option UInt8 :=
  match v.width, v.bytes with
  | .byte, [b] => some b
  | _, _ => none

def high? (v : Value) : Option Value :=
  v.width.half?.bind fun h => ofBytes? h (v.bytes.take h.bytes)

def low? (v : Value) : Option Value :=
  v.width.half?.bind fun h => ofBytes? h (v.bytes.drop h.bytes)

/-- Two values of one width side by side, where a width holds both. -/
def ofHalves? (high low : Value) : Option Value :=
  if high.width = low.width then
    high.width.double?.bind fun w => ofBytes? w (high.bytes ++ low.bytes)
  else none

def text (v : Value) : String := toString v.toNat

@[simp] theorem width_ofNat (w : Width) (n : Nat) : (ofNat w n).width = w := rfl

@[simp] theorem bytes_ofNat (w : Width) (n : Nat) :
    (ofNat w n).bytes = BigEndian.ofNat w.bytes n := rfl

@[simp] theorem width_resize (v : Value) (w : Width) : (v.resize w).width = w := rfl

theorem toNat_ofNat (w : Width) (n : Nat) : (ofNat w n).toNat = n % BigEndian.span w.bytes :=
  BigEndian.toNat_ofNat _ _

@[simp] theorem ofBytes?_bytes (v : Value) : ofBytes? v.width v.bytes = some v := by
  simp [ofBytes?, v.length_bytes]

theorem byte?_eq_none_iff {v : Value} : v.byte? = none ↔ v.width ≠ .byte := by
  obtain ⟨w, bytes, h⟩ := v
  cases w with
  | byte =>
    obtain ⟨b, rfl⟩ := List.length_eq_one_iff.mp h
    simp [byte?]
  | _ => simp [byte?]

end Value
end OctetMachine
