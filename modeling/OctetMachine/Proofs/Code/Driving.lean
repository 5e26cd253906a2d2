import Mathlib
import OctetMachine.Code.Cursor

/-! Driving a cursor through code. However it was moved and read before, a read takes all the bytes
that it asks for and stands behind them, or it takes none and stands where it was. Only where it asks
for nothing at a place strictly beyond the end is there neither a byte string nor a byte missing. -/
namespace OctetMachine.Cursor

/-- What can be done with a cursor. -/
inductive Operation where
  | moveTo (position : Nat)
  | rewind
  | readByte
  | readBytes (count : Nat)
  | readValue (width : Width)
deriving DecidableEq

namespace Operation

/-- The number of bytes that a read asks for. -/
def demand? : Operation → Option Nat
  | moveTo _ | rewind => none
  | readByte => some 1
  | readBytes count => some count
  | readValue w => some w.bytes

/-- The bytes that an operation gives, or why there are none, and the cursor after it. -/
def perform (c : Cursor) : Operation → Except ReadError (List UInt8) × Cursor
  | moveTo position => (.ok [], c.moveTo position)
  | rewind => (.ok [], c.rewind)
  | readByte => c.readByte.map (Except.map fun b => [b]) id
  | readBytes count => c.readBytes count
  | readValue w => (c.readValue w).map (Except.map Value.bytes) id

theorem demand?_eq_zero_iff {op : Operation} : op.demand? = some 0 ↔ op = readBytes 0 := by
  cases op with
  | readValue w =>
    have positive := w.bytes_pos
    simp only [demand?, Option.some.injEq, reduceCtorEq, iff_false]
    omega
  | _ => simp [demand?]

end Operation

variable {c : Cursor} {count : Nat}

theorem length_input (c : Cursor) : c.input.bytes.length = c.remaining := List.length_drop

/-- A reader that takes so many bytes moves the cursor behind them. -/
theorem read_of_taken {α : Type} {reader : Input → Except ReadError (α × Input)} {a : α}
    {rest : List UInt8} (taken : reader c.input = .ok (a, ⟨c.position + count, rest⟩)) :
    c.read reader = (.ok a, ⟨c.code, c.position + count⟩) := by
  rw [read, taken]
  rfl

/-- A reader that lacks bytes at once leaves the cursor where it is. -/
theorem read_of_shortfall {α : Type} {reader : Input → Except ReadError (α × Input)}
    (short : reader c.input = .error (c.input.shortfall count)) :
    c.read reader = (.error (.unexpectedEnd c.position (count - c.remaining)), c) := by
  rw [read, short, Input.shortfall, length_input]
  rfl

/-- A read with enough bytes ahead. -/
theorem perform_of_le {op : Operation} (asks : op.demand? = some count)
    (inside : c.position + count ≤ c.code.length) :
    op.perform c = (.ok ((c.code.drop c.position).take count), ⟨c.code, c.position + count⟩) := by
  have enough : ((c.code.drop c.position).take count).length = count := by
    rw [List.length_take, List.length_drop]
    omega
  cases op with
  | moveTo | rewind => cases asks
  | readByte =>
    cases asks
    obtain ⟨b, rest, ahead⟩ : ∃ b rest, c.code.drop c.position = b :: rest :=
      List.exists_cons_of_length_pos (by rw [List.length_drop]; omega)
    have taken : Input.readByte c.input = .ok (b, ⟨c.position + 1, rest⟩) := by
      rw [input, ahead]
      rfl
    rw [Operation.perform, readByte, read_of_taken taken, ahead]
    rfl
  | readBytes =>
    cases asks
    rw [Operation.perform, readBytes, if_neg (by omega)]
    exact read_of_taken (if_pos enough)
  | readValue w =>
    cases asks
    have made : Value.ofBytes? w ((c.code.drop c.position).take w.bytes) = some ⟨w, _, enough⟩ :=
      dif_pos enough
    have taken : c.input.readValue w = .ok (⟨w, _, enough⟩,
        ⟨c.position + w.bytes, c.input.bytes.drop w.bytes⟩) := by
      rw [Input.readValue]
      simp only [input, made]
    rw [Operation.perform, readValue, read_of_taken taken]
    rfl

/-- A read with too few bytes ahead. -/
theorem perform_of_lt {op : Operation} (asks : op.demand? = some count) (positive : 0 < count)
    (beyond : c.code.length < c.position + count) :
    op.perform c = (.error (.unexpectedEnd c.position (count - c.remaining)), c) := by
  have short : ¬ ((c.code.drop c.position).take count).length = count := by
    rw [List.length_take, List.length_drop]
    omega
  cases op with
  | moveTo | rewind => cases asks
  | readByte =>
    cases asks
    have ended : c.code.drop c.position = [] := List.drop_eq_nil_of_le (by omega)
    have failed : Input.readByte c.input = .error (c.input.shortfall 1) := by
      rw [input, ended]
      rfl
    rw [Operation.perform, readByte, read_of_shortfall failed]
    rfl
  | readBytes =>
    cases asks
    rw [Operation.perform, readBytes, if_neg (by omega)]
    exact read_of_shortfall (if_neg short)
  | readValue w =>
    cases asks
    have unmade : Value.ofBytes? w ((c.code.drop c.position).take w.bytes) = none := dif_neg short
    have failed : c.input.readValue w = .error (c.input.shortfall w.bytes) := by
      rw [Input.readValue]
      simp only [input, unmade]
    rw [Operation.perform, readValue, read_of_shortfall failed]
    rfl

theorem perform_of_empty (beyond : c.code.length < c.position) :
    (Operation.readBytes 0).perform c = (.error (.outside c.position), c) :=
  if_pos ⟨rfl, beyond⟩

/-- What an operation can answer. -/
inductive Answers (c : Cursor) (op : Operation) : Except ReadError (List UInt8) × Cursor → Prop
  | moved (free : op.demand? = none) (position : Nat) : Answers c op (.ok [], ⟨c.code, position⟩)
  | taken {count : Nat} (asks : op.demand? = some count)
      (inside : c.position + count ≤ c.code.length) :
    Answers c op (.ok ((c.code.drop c.position).take count), ⟨c.code, c.position + count⟩)
  | short {count : Nat} (asks : op.demand? = some count) (positive : 0 < count)
      (beyond : c.code.length < c.position + count) :
    Answers c op (.error (.unexpectedEnd c.position (count - c.remaining)), c)
  | outside (empty : op = .readBytes 0) (beyond : c.code.length < c.position) :
    Answers c op (.error (.outside c.position), c)

theorem answers_perform (c : Cursor) (op : Operation) : c.Answers op (op.perform c) := by
  cases asks : op.demand? with
  | none =>
    cases op with
    | moveTo position => exact .moved asks position
    | rewind => exact .moved asks 0
    | readByte | readBytes | readValue => cases asks
  | some count =>
    by_cases inside : c.position + count ≤ c.code.length
    · rw [perform_of_le asks inside]
      exact .taken asks inside
    · by_cases empty : count = 0
      · subst empty
        obtain rfl := Operation.demand?_eq_zero_iff.mp asks
        rw [perform_of_empty (by omega)]
        exact .outside rfl (by omega)
      · have positive : 0 < count := by omega
        rw [perform_of_lt asks positive (by omega)]
        exact .short asks positive (by omega)

theorem code_perform (c : Cursor) (op : Operation) : (op.perform c).2.code = c.code := by
  have answer := c.answers_perform op
  generalize op.perform c = result at answer ⊢
  cases answer <;> rfl

/-- The cursor after some operations, whatever they gave. -/
def after (c : Cursor) (ops : List Operation) : Cursor :=
  ops.foldl (fun c op => (op.perform c).2) c

theorem code_after (c : Cursor) (ops : List Operation) : (c.after ops).code = c.code := by
  induction ops generalizing c with
  | nil => rfl
  | cons op ops ih => exact (ih (op.perform c).2).trans (code_perform c op)

/-- Only the empty read beyond the end is told that it is outside. -/
theorem perform_eq_outside_iff {op : Operation} :
    (∃ place, (op.perform c).1 = .error (.outside place)) ↔
      op = .readBytes 0 ∧ c.code.length < c.position := by
  constructor
  · rintro ⟨place, outside⟩
    have answer := c.answers_perform op
    generalize op.perform c = result at answer outside
    cases answer with
    | outside empty beyond => exact ⟨empty, beyond⟩
    | moved | taken | short => cases outside
  · rintro ⟨rfl, beyond⟩
    exact ⟨c.position, by rw [perform_of_empty beyond]⟩

/-- Reads are all or nothing, after any operations. A read gives exactly the bytes between its place
and the place it moves to, or it is short of bytes and stays; it is short whenever it asks for some
byte beyond the end. The empty read strictly beyond the end, and it alone, does neither. -/
theorem reads_are_atomic (code : List UInt8) (before : List Operation) (op : Operation) :
    let c := (ofCode code).after before
    c.code = code ∧
    (∀ position, op = .moveTo position → op.perform c = (.ok [], ⟨code, position⟩)) ∧
    (op = .rewind → op.perform c = (.ok [], ⟨code, 0⟩)) ∧
    (∀ count, op.demand? = some count →
      (c.position + count ≤ code.length → op.perform c =
        (.ok ((code.drop c.position).take count), ⟨code, c.position + count⟩)) ∧
      (code.length < c.position + count → 1 ≤ count → op.perform c =
        (.error (.unexpectedEnd c.position (count - (code.length - c.position))), c))) ∧
    (code.length < c.position → (Operation.readBytes 0).perform c =
      (.error (.outside c.position), c)) ∧
    ((∃ place, (op.perform c).1 = .error (.outside place)) ↔
      op = .readBytes 0 ∧ code.length < c.position) := by
  intro c
  have same : c.code = code := code_after (ofCode code) before
  clear_value c
  subst same
  refine ⟨rfl, ?_, ?_, fun count asks => ⟨perform_of_le asks, fun beyond positive => ?_⟩,
    perform_of_empty, perform_eq_outside_iff⟩
  · rintro position rfl
    rfl
  · rintro rfl
    rfl
  · exact perform_of_lt asks positive beyond

/-- Two bytes of three, then a word where only one byte is left, and any read far beyond the end. -/
theorem reads_are_atomic_word :
    let code : List UInt8 := [0xC0, 0xD3, 0x07]
    let c : Cursor := ⟨code, 2⟩
    (ofCode code).after [.moveTo 9, .rewind, .readValue .word] = c ∧
    (Operation.readValue .word).perform (ofCode code) = (.ok [0xC0, 0xD3], c) ∧
    (Operation.readValue .word).perform c = (.error (.unexpectedEnd 2 1), c) ∧
    Operation.readByte.perform ⟨code, 9⟩ = (.error (.unexpectedEnd 9 1), ⟨code, 9⟩) := by
  intro code c
  have driven : (ofCode code).after [.moveTo 9, .rewind, .readValue .word] = c := rfl
  have first := reads_are_atomic code [.moveTo 9, .rewind] (.readValue .word)
  have second := reads_are_atomic code [.moveTo 9, .rewind, .readValue .word] (.readValue .word)
  have third := reads_are_atomic code [.moveTo 9] .readByte
  exact ⟨driven, (first.2.2.2.1 2 rfl).1 (by decide),
    (second.2.2.2.1 2 rfl).2 (by decide) (by decide),
    (third.2.2.2.1 1 rfl).2 (by decide) (by decide)⟩

/-- Strictly beyond the end the empty read gives no bytes, and it misses none either. -/
theorem empty_read_beyond_end :
    let c := (ofCode [0xC0, 0xD3]).after [.moveTo 3]
    let answer := (Operation.readBytes 0).perform c
    answer = (.error (.outside 3), c) ∧
    answer ≠ (.ok ((c.code.drop c.position).take 0), ⟨c.code, c.position + 0⟩) ∧
    ∀ missing, answer ≠ (.error (.unexpectedEnd c.position missing), c) := by
  refine ⟨rfl, by decide, fun missing same => ?_⟩
  cases same

end OctetMachine.Cursor
