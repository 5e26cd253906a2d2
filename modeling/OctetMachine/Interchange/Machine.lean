import OctetMachine.Interchange.Code
import OctetMachine.Machine.Basic

/-! Data trees of a machine's parts and reports. -/
namespace OctetMachine

def HaltReason.name : HaltReason → String
  | endOfProgram => "EndOfProgram"
  | cycleLimit => "CycleLimit"
  | faulted => "Faulted"

instance : Interchange HaltReason where
  toTree reason := .text reason.name
  ofTree? := Tree.choose? HaltReason.name [.endOfProgram, .cycleLimit, .faulted]

def Fault.name : Fault → String
  | invalidOpcode .. => "InvalidOpcode"
  | operandTypeMismatch .. => "OperandTypeMismatch"
  | divisionByZero .. => "DivisionByZero"
  | outOfBounds .. => "OutOfBounds"
  | stackOverflow .. => "StackOverflow"
  | stackUnderflow => "StackUnderflow"
  | truncatedInstruction .. => "TruncatedInstruction"
  | malformedInstruction .. => "MalformedInstruction"

/-- What a fault carries, by name. -/
def Fault.fields : Fault → List (String × Tree)
  | invalidOpcode opcode pc => [("opcode", toTree opcode), ("pc", toTree pc)]
  | operandTypeMismatch expected found pc =>
    [("expected", toTree expected), ("found", toTree found), ("pc", toTree pc)]
  | divisionByZero pc => [("pc", toTree pc)]
  | outOfBounds address w => [("address", toTree address), ("width", toTree w)]
  | stackOverflow capacity => [("capacity", toTree capacity)]
  | stackUnderflow => []
  | truncatedInstruction pc => [("pc", toTree pc)]
  | malformedInstruction pc => [("pc", toTree pc)]

/-- The fault of a name with what its record of fields holds. -/
def Fault.ofFields? (name : String) (fields : List (String × Tree)) : Option Fault :=
  match name with
  | "InvalidOpcode" => return .invalidOpcode (← field "opcode") (← field "pc")
  | "OperandTypeMismatch" =>
    return .operandTypeMismatch (← field "expected") (← field "found") (← field "pc")
  | "DivisionByZero" => return .divisionByZero (← field "pc")
  | "OutOfBounds" => return .outOfBounds (← field "address") (← field "width")
  | "StackOverflow" => return .stackOverflow (← field "capacity")
  | "TruncatedInstruction" => return .truncatedInstruction (← field "pc")
  | "MalformedInstruction" => return .malformedInstruction (← field "pc")
  | _ => none
where
  field {α : Type} [Interchange α] (name : String) : Option α := (fields.lookup name).bind ofTree?

instance : Interchange Fault where
  toTree fault :=
    match fault with
    | .stackUnderflow => .text fault.name
    | _ => .record [(fault.name, .record fault.fields)]
  ofTree? t :=
    if t.bareName? = some "StackUnderflow" then some .stackUnderflow
    else
      match t.alternative? with
      | some (name, some (.record fields)) => Fault.ofFields? name fields
      | _ => none

instance : Interchange Config where
  toTree c := .record [("max_cycles", toTree c.maxCycles), ("trace", toTree c.trace),
    ("strict_operands", toTree c.strictOperands)]
  ofTree? t :=
    match t.fields? ["max_cycles", "trace", "strict_operands"] with
    | some [maxCycles, trace, strict] =>
      return ⟨← ofTree? maxCycles, ← ofTree? trace, ← ofTree? strict⟩
    | _ => none

instance : Interchange Stack where
  toTree s := .record [("data", toTree s.bytes)]
  ofTree? t :=
    match t.fields? ["data"] with
    | some [bytes] => (ofTree? bytes).map Stack.mk
    | _ => none

instance : Interchange Memory where
  toTree m := .record [("data", toTree m.cells)]
  ofTree? t :=
    match t.fields? ["data"] with
    | some [cells] => (ofTree? cells).map Memory.mk
    | _ => none

instance : Interchange Report where
  toTree r := .record [("cycles", toTree r.cycles), ("halt_reason", toTree r.haltReason),
    ("instruction_pointer", toTree r.position), ("stack", toTree r.stack.bytes),
    ("memory", toTree r.memory.cells), ("faults", toTree r.faults)]
  ofTree? t :=
    match t.fields? ["cycles", "halt_reason", "instruction_pointer", "stack", "memory", "faults"] with
    | some [cycles, reason, position, stack, memory, faults] =>
      return {
        cycles := ← ofTree? cycles
        haltReason := ← ofTree? reason
        position := ← ofTree? position
        stack := ⟨← ofTree? stack⟩
        memory := ⟨← ofTree? memory⟩
        faults := ← ofTree? faults }
    | _ => none

end OctetMachine
