import OctetMachine.Bytes.BigEndian
import OctetMachine.Text.Caseless

/-! The four widths of a value. -/
namespace OctetMachine

inductive Width where
  | byte | word | doubleWord | quadWord
deriving DecidableEq, Repr

namespace Width

/-- Every width, narrowest first. -/
def all : List Width := [byte, word, doubleWord, quadWord]

def bytes : Width → Nat
  | byte => 1
  | word => 2
  | doubleWord => 4
  | quadWord => 8

def keyword : Width → String
  | byte => "BYTE"
  | word => "WORD"
  | doubleWord => "DWORD"
  | quadWord => "QWORD"

/-- The width with this keyword, in any mixture of cases. -/
def ofKeyword? (name : String) : Option Width :=
  all.find? fun w => Text.sameSpelling w.keyword name

def Fits (w : Width) (n : Nat) : Prop := n < BigEndian.span w.bytes

instance (w : Width) (n : Nat) : Decidable (w.Fits n) :=
  inferInstanceAs (Decidable (n < BigEndian.span w.bytes))

/-- The narrowest width that holds a number; beyond every width it is the widest one. -/
def narrowest (n : Nat) : Width :=
  (all.find? fun w => w.Fits n).getD quadWord

def half? : Width → Option Width
  | byte => none
  | word => some byte
  | doubleWord => some word
  | quadWord => some doubleWord

def double? : Width → Option Width
  | byte => some word
  | word => some doubleWord
  | doubleWord => some quadWord
  | quadWord => none

def wider (a b : Width) : Width := if a.bytes < b.bytes then b else a

theorem bytes_pos (w : Width) : 0 < w.bytes := by cases w <;> decide

theorem bytes_of_half? {w h : Width} (half : w.half? = some h) : w.bytes = h.bytes + h.bytes := by
  cases w <;> cases half <;> rfl

theorem bytes_of_double? {w d : Width} (double : w.double? = some d) :
    d.bytes = w.bytes + w.bytes := by
  cases w <;> cases double <;> rfl

theorem bytes_le_eight (w : Width) : w.bytes ≤ 8 := by cases w <;> decide

theorem bytes_injective {a b : Width} (same : a.bytes = b.bytes) : a = b := by
  revert same
  cases a <;> cases b <;> decide

theorem fits_narrowest {n : Nat} (widest : quadWord.Fits n) : (narrowest n).Fits n := by
  unfold narrowest
  cases found : all.find? fun w => w.Fits n with
  | none => exact widest
  | some w => simpa using List.find?_some found

/-- The first width that holds a number is no wider than any other that does. -/
theorem narrowest_le {w : Width} {n : Nat} (fits : w.Fits n) : (narrowest n).bytes ≤ w.bytes := by
  have listed : w ∈ all := by cases w <;> decide
  have sorted : all.Pairwise fun a b => a.bytes ≤ b.bytes := by decide
  unfold narrowest
  cases found : all.find? fun w => w.Fits n with
  | none =>
    have unfit := List.find?_eq_none.mp found w listed
    simp [fits] at unfit
  | some first =>
    obtain ⟨_, before, after, parts, unfit⟩ := List.find?_eq_some_iff_append.mp found
    rw [parts] at listed sorted
    rcases List.mem_append.mp listed with early | late
    · have wide := unfit w early
      simp [fits] at wide
    · rcases List.mem_cons.mp late with rfl | later
      · exact Nat.le_refl _
      · exact List.rel_of_pairwise_cons (List.pairwise_append.mp sorted).2.1 later

end Width
end OctetMachine
