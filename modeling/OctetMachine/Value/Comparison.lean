import OctetMachine.Value.Basic

/-! Comparison of values by the sum of their byte differences, in the wider of the two widths.
Values of different magnitude may compare as equal, since only the byte sums count. -/
namespace OctetMachine

/-- The sum over all bytes of left byte minus right byte. -/
def Value.byteDifference (a b : Value) : Int :=
  let w := a.width.wider b.width
  (List.zipWith (fun (x y : UInt8) => (x.toNat : Int) - y.toNat)
    (a.resize w).bytes (b.resize w).bytes).foldr (· + ·) 0

/-- The order of two values: the sign of their byte difference. -/
def Value.byteOrder (a b : Value) : Ordering := compare (a.byteDifference b) 0

/-- The relations that comparing and branching instructions test. -/
inductive Comparison where
  | equal | lessOrEqual | less | greater | greaterOrEqual
deriving DecidableEq, Repr

namespace Comparison

def all : List Comparison := [equal, lessOrEqual, less, greater, greaterOrEqual]

def holds (relation : Comparison) (a b : Value) : Bool :=
  match relation with
  | equal => (a.byteOrder b).isEq
  | lessOrEqual => (a.byteOrder b).isLE
  | less => (a.byteOrder b).isLT
  | greater => (a.byteOrder b).isGT
  | greaterOrEqual => (a.byteOrder b).isGE

end Comparison
end OctetMachine
