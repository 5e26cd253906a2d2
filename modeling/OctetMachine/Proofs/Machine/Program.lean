import Mathlib
import OctetMachine.Proofs.Listing.Decoding
import OctetMachine.Proofs.Machine.Codeless
import OctetMachine.Proofs.Machine.Running

/-! Machines that execute a listing. Such a machine has no code: it looks its instruction pointer up
among the offsets of the listing, and falls through from each entry to the next. As long as the
instruction pointer stays on these offsets, a machine that decodes its code as it goes does the same
step by step. -/
namespace OctetMachine

namespace Listing

/-- The instruction at an offset, and the offset of the next one; behind the last, the end. -/
def lookup? (size position : Nat) : Listing → Option (Instruction × Nat)
  | [] => none
  | e :: rest =>
    if e.offset = position then some (e.instruction, (rest.head?.map Entry.offset).getD size)
    else lookup? size position rest

@[simp] theorem length_ofInstructions (offset : Nat) (is : List Instruction) :
    (ofInstructions offset is).length = is.length := by
  simp [ofInstructions]

theorem offset_le_of_mem {offset : Nat} {is : List Instruction} {e : Entry}
    (member : e ∈ ofInstructions offset is) : offset ≤ e.offset := by
  obtain ⟨k, found⟩ := List.mem_iff_getElem?.mp member
  rw [(getElem?_ofInstructions.mp found).2]
  exact Nat.le_add_right _ _

/-- Where the entries from an offset on begin, also when there are none. -/
theorem head_ofInstructions (offset : Nat) (is : List Instruction) :
    ((ofInstructions offset is).head?.map Entry.offset).getD
      (offset + (is.map Instruction.encodedLength).sum) = offset := by
  cases is with
  | nil => simp [ofInstructions]
  | cons i is =>
    rw [ofInstructions_cons]
    rfl

theorem lookup?_of_mem {offset : Nat} {is : List Instruction} {e : Entry}
    (member : e ∈ ofInstructions offset is) :
    lookup? (offset + (is.map Instruction.encodedLength).sum) e.offset (ofInstructions offset is) =
      some (e.instruction, e.offset + e.instruction.encodedLength) := by
  induction is generalizing offset with
  | nil => simp [ofInstructions] at member
  | cons i is ih =>
    have size : offset + ((i :: is).map Instruction.encodedLength).sum =
        offset + i.encodedLength + (is.map Instruction.encodedLength).sum := by
      simp [Nat.add_assoc]
    rw [ofInstructions_cons] at member ⊢
    rw [size, lookup?]
    rcases List.mem_cons.mp member with rfl | later
    · rw [if_pos rfl, head_ofInstructions]
    · have beyond := offset_le_of_mem later
      have positive := i.encodedLength_pos
      rw [if_neg (by dsimp only; omega)]
      exact ih later

/-- The code from an entry on. -/
theorem drop_of_getElem? {is : List Instruction} {k : Nat} {e : Entry}
    (found : (ofInstructions 0 is)[k]? = some e) :
    (is.flatMap Instruction.encode).drop e.offset =
      e.instruction.encode ++ (is.drop (k + 1)).flatMap Instruction.encode := by
  obtain ⟨here, start⟩ := getElem?_ofInstructions.mp found
  obtain ⟨inside, same⟩ := List.getElem?_eq_some_iff.mp here
  have parts : is = is.take k ++ e.instruction :: is.drop (k + 1) := by
    rw [← same, ← List.drop_eq_getElem_cons inside, List.take_append_drop]
  have size : e.offset = ((is.take k).flatMap Instruction.encode).length := by
    rw [length_flatMap_encode, start, Nat.zero_add]
  rw [size]
  nth_rewrite 2 [parts]
  rw [List.flatMap_append, List.drop_left, List.flatMap_cons]

end Listing

theorem Cursor.fetch_of_drop {c : Cursor} {i : Instruction} {rest : List UInt8}
    (encodable : i.Encodable) (ahead : c.code.drop c.position = i.encode ++ rest) :
    c.fetch = .ok (i, c.moveTo (c.position + i.encodedLength)) := by
  have decoded := Instruction.decode_encode (Instruction.isEncodable_iff.mpr encodable)
  simp only [fetch, input, ahead, decoded]

/-- Instructions with their offsets, and the offset behind the last of them. -/
structure Program where
  entries : Listing
  size : Nat

namespace Program

/-- The instruction pointers that the program has an answer for. -/
def Admits (p : Program) (position : Nat) : Prop :=
  p.size ≤ position ∨ ∃ e ∈ p.entries, e.offset = position

/-- One step of a machine on a program. The code of the machine plays no part, and within an
instruction there is no step. -/
def step? (config : Config) (p : Program) (m : Machine) : Option StepResult :=
  match m.halt? with
  | some reason => some ⟨m, .halted reason, []⟩
  | none =>
    if p.size ≤ m.cursor.position then some (m.stop .endOfProgram)
    else if config.maxCycles ≤ m.cycles then some (m.stop .cycleLimit)
    else
      (p.entries.lookup? p.size m.cursor.position).map fun found =>
        { m with cursor := m.cursor.moveTo found.2 }.perform config found.1 m.cursor.position

def after? (config : Config) (p : Program) : Nat → Machine → Option Machine
  | 0, m => some m
  | count + 1, m => do return (← p.step? config (← p.after? config count m)).machine

section Step

variable {config : Config} {p : Program} {m : Machine}

theorem step?_of_halted {reason : HaltReason} (halted : m.halt? = some reason) :
    p.step? config m = some ⟨m, .halted reason, []⟩ := by
  simp only [step?, halted]

theorem step?_of_ended (live : m.halt? = none) (ended : p.size ≤ m.cursor.position) :
    p.step? config m = some (m.stop .endOfProgram) := by
  simp only [step?, live, ended, if_true]

theorem step?_of_spent (live : m.halt? = none) (inside : m.cursor.position < p.size)
    (spent : config.maxCycles ≤ m.cycles) : p.step? config m = some (m.stop .cycleLimit) := by
  simp only [step?, live, Nat.not_le.mpr inside, spent, if_true, if_false]

theorem step?_of_found {i : Instruction} {next : Nat} (live : m.halt? = none)
    (inside : m.cursor.position < p.size) (below : m.cycles < config.maxCycles)
    (found : p.entries.lookup? p.size m.cursor.position = some (i, next)) :
    p.step? config m =
      some ({ m with cursor := m.cursor.moveTo next }.perform config i m.cursor.position) := by
  simp only [step?, live, Nat.not_le.mpr inside, UInt64.not_le.mpr below, found, if_false,
    Option.map_some]

end Step

/-- A program that lists all of some code. -/
structure Lists (p : Program) (code : List UInt8) : Prop where
  decoded : Listing.decode code = .ok p.entries
  size_eq : p.size = code.length

variable {p : Program} {code : List UInt8}

theorem Lists.exists_instructions (lists : p.Lists code) :
    ∃ is : List Instruction, (∀ i ∈ is, i.Encodable) ∧ code = is.flatMap Instruction.encode ∧
      p.entries = Listing.ofInstructions 0 is ∧
      p.size = 0 + (is.map Instruction.encodedLength).sum := by
  obtain ⟨is, encodable, same, entries⟩ := Listing.decode_eq_ok_iff.mp lists.decoded
  refine ⟨is, encodable, same, entries, ?_⟩
  rw [lists.size_eq, same, Listing.length_flatMap_encode, Nat.zero_add]

/-- Decoding where an entry begins gives the entry's instruction, and the same place behind it. -/
theorem Lists.fetch {e : Listing.Entry} (lists : p.Lists code) (member : e ∈ p.entries) :
    Cursor.fetch ⟨code, e.offset⟩ =
        .ok (e.instruction, ⟨code, e.offset + e.instruction.encodedLength⟩) ∧
      p.entries.lookup? p.size e.offset =
        some (e.instruction, e.offset + e.instruction.encodedLength) := by
  obtain ⟨is, encodable, rfl, entries, size⟩ := lists.exists_instructions
  rw [entries] at member
  obtain ⟨k, found⟩ := List.mem_iff_getElem?.mp member
  have first := encodable _ (Listing.instruction_mem_of_mem member)
  refine ⟨?_, ?_⟩
  · exact Cursor.fetch_of_drop first (Listing.drop_of_getElem? found)
  · rw [entries, size]
    exact Listing.lookup?_of_mem member

/-- One square of the simulation: to take the code away and then step by the listing is to step by
the code and then take it away. -/
theorem Lists.step {config : Config} {m : Machine} (lists : p.Lists m.cursor.code)
    (admits : p.Admits m.cursor.position) :
    p.step? config (m.withCode []) = some ((m.step config).withCode []) := by
  have size := lists.size_eq
  cases halted : m.halt? with
  | some reason =>
    rw [Machine.step_of_halted halted]
    exact step?_of_halted halted
  | none =>
    by_cases ended : p.size ≤ m.cursor.position
    · rw [Machine.step_of_ended halted (by omega)]
      exact step?_of_ended halted ended
    · by_cases spent : config.maxCycles ≤ m.cycles
      · rw [Machine.step_of_spent halted (by omega) spent]
        exact step?_of_spent halted (Nat.lt_of_not_le ended) spent
      · obtain ⟨e, member, place⟩ := admits.resolve_left ended
        obtain ⟨fetched, found⟩ := lists.fetch member
        rw [place] at fetched found
        have below := UInt64.not_le.mp spent
        rw [Machine.step_of_ready ⟨halted, by omega, below⟩ fetched, ← Machine.perform_withCode]
        exact step?_of_found halted (Nat.lt_of_not_le ended) below found

theorem Lists.after {config : Config} {m : Machine} {count : Nat} (lists : p.Lists m.cursor.code)
    (admits : ∀ k < count, p.Admits (m.after config k).cursor.position) :
    p.after? config count (m.withCode []) = some ((m.after config count).withCode []) := by
  induction count with
  | zero => rfl
  | succ count ih =>
    have before := ih fun k less => admits k (by omega)
    have here : p.Lists (m.after config count).cursor.code := by
      rwa [Machine.code_after]
    have square : p.step? config _ = _ := here.step (admits count (by omega))
    rw [after?, before, Machine.after_succ]
    simp only [Option.pure_def, Option.bind_eq_bind, Option.bind_some, square]
    rfl

end Program
end OctetMachine
