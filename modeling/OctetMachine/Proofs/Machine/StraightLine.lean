import Mathlib
import OctetMachine.Proofs.Machine.Program

/-! Programs without jumps. Their instruction pointer goes from entry to entry, so that a run
executes the listed instructions once each, in order, until one fails, the cycles are spent or the
code ends. What it comes to can be told without an instruction pointer. -/
namespace OctetMachine

/-- The machine that an executed instruction leaves, unless its fault is fatal. -/
def StepResult.settle (r : StepResult) : Except Fault Machine :=
  match r.outcome with
  | .failed fault => .error fault
  | .running | .halted _ => .ok r.machine

namespace StepResult

variable {r : StepResult}

theorem settle_of_running (running : r.outcome = .running) : r.settle = .ok r.machine := by
  simp only [settle, running]

theorem settle_of_failed {fault : Fault} (failed : r.outcome = .failed fault) :
    r.settle = .error fault := by
  simp only [settle, failed]

end StepResult

/-- Execute entries in order, each once, up to the first fatal fault. -/
def Machine.performAll (config : Config) (m : Machine) (entries : Listing) : Except Fault Machine :=
  entries.foldlM (fun m e => (m.perform config e.instruction e.offset).settle) m

namespace Machine

variable {config : Config} {m : Machine} {i : Instruction} {is : List Instruction}

/-- The code from the instruction pointer on consists of these instructions, and none is a jump. -/
structure Straight (m : Machine) (is : List Instruction) : Prop where
  encodable : ∀ i ∈ is, i.Encodable
  level : ∀ i ∈ is, i.opcode.jumps = false
  ahead : m.cursor.code.drop m.cursor.position = is.flatMap Instruction.encode

theorem Straight.inside (straight : m.Straight (i :: is)) :
    m.cursor.position < m.cursor.code.length := by
  by_contra outside
  have none := straight.ahead
  rw [List.drop_of_length_le (by omega), List.flatMap_cons] at none
  simp [Instruction.encode] at none

/-- A step on straight code executes the next instruction, as it would be executed with any other
cursor, and comes to stand behind it. -/
theorem Straight.step (straight : m.Straight (i :: is)) (live : m.halt? = none)
    (below : m.cycles < config.maxCycles) :
    (∀ c, (m.withCursor c).perform config i m.cursor.position = (m.step config).withCursor c) ∧
      (m.step config).machine.cursor = m.cursor.moveTo (m.cursor.position + i.encodedLength) := by
  have first : i ∈ i :: is := List.mem_cons_self
  have ahead := straight.ahead
  rw [List.flatMap_cons] at ahead
  have fetched := Cursor.fetch_of_drop (straight.encodable i first) ahead
  have performed := step_of_ready ⟨live, straight.inside, below⟩ fetched
  refine ⟨fun c => ?_, ?_⟩
  · rw [performed]
    exact perform_withCursor (straight.level i first) config m.cursor.position c
      { m with cursor := m.cursor.moveTo (m.cursor.position + i.encodedLength) }
  · rw [performed, cursor_perform (straight.level i first)]

theorem Straight.tail (straight : m.Straight (i :: is)) {n : Machine}
    (cursor : n.cursor = m.cursor.moveTo (m.cursor.position + i.encodedLength)) :
    n.Straight is where
  encodable j member := straight.encodable j (List.mem_cons_of_mem i member)
  level j member := straight.level j (List.mem_cons_of_mem i member)
  ahead := by
    have ahead := straight.ahead
    rw [List.flatMap_cons] at ahead
    rw [cursor]
    show m.cursor.code.drop (m.cursor.position + i.encodedLength) = _
    rw [← List.drop_drop, ahead, ← i.length_encode, List.drop_left]

theorem outcome_perform (config : Config) (i : Instruction) (pc : Nat) (m : Machine) :
    (m.perform config i pc).outcome = .running ∨
      ∃ fault, (m.perform config i pc).outcome = .failed fault := by
  rcases perform_cases m config i pc with
    ⟨n, _, result⟩ | ⟨fault, _, _, _, result⟩ | ⟨fault, _, _, result⟩
  · exact .inl (by rw [result])
  · exact .inl (by rw [result])
  · exact .inr ⟨fault, by rw [result]; rfl⟩

theorem performAll_cons (config : Config) (m : Machine) (e : Listing.Entry) (entries : Listing) :
    m.performAll config (e :: entries) =
      (m.perform config e.instruction e.offset).settle >>= fun n => n.performAll config entries :=
  List.foldlM_cons ..

/-- What the first instructions come to when they are executed in order is what as many steps come
to. The induction is on their number, with the machine moved past the first of them. -/
theorem Straight.performAll {count : Nat} (straight : m.Straight is) (live : m.halt? = none)
    (within : count ≤ is.length) (budget : m.cycles.toNat + count ≤ config.maxCycles.toNat)
    (c : Cursor) :
    let entries := (Listing.ofInstructions m.cursor.position is).take count
    (∀ s, (m.withCursor c).performAll config entries = .ok s →
      m.Survives config count ∧
        m.after config count = s.withCursor ⟨m.cursor.code,
          m.cursor.position + ((is.take count).map Instruction.encodedLength).sum⟩) ∧
    (∀ fault, (m.withCursor c).performAll config entries = .error fault →
      ∃ k < count, m.Lasts config k ∧
        ((m.after config k).step config).outcome = .failed fault) := by
  induction count generalizing m is with
  | zero =>
    refine ⟨?_, ?_⟩
    · intro s done
      cases done
      exact ⟨survives_zero config m, rfl⟩
    · intro fault failed
      cases failed
  | succ count ih =>
    cases is with
    | nil => simp at within
    | cons i is =>
      have below : m.cycles < config.maxCycles := UInt64.lt_iff_toNat_lt.mpr (by omega)
      obtain ⟨performed, cursor⟩ := straight.step live below
      rw [Listing.ofInstructions_cons, List.take_succ_cons]
      dsimp only
      rw [performAll_cons, performed c]
      rcases outcome_perform config i m.cursor.position (m.withCursor c) with
        running | ⟨fault, failed⟩
      · rw [performed c] at running
        rw [StepResult.settle_of_running running]
        have first : (m.step config).outcome = .running := running
        have counted := toNat_cycles_of_running first
        obtain ⟨done, thrown⟩ := ih (straight.tail cursor) (ready_of_running first).2.2
          (Nat.le_of_succ_le_succ within) (by omega)
        rw [cursor] at done thrown
        refine ⟨fun s others => ?_, fun fault others => ?_⟩
        · obtain ⟨survives, last⟩ := done s others
          refine ⟨survives_succ_iff.mpr ⟨first, survives⟩, ?_⟩
          rw [after_step, last, List.take_succ_cons, List.map_cons, List.sum_cons, ← Nat.add_assoc]
          rfl
        · obtain ⟨k, less, lasts, failed⟩ := thrown fault others
          rw [← after_step] at failed
          exact ⟨k + 1, by omega, lasts_succ_iff.mpr ⟨first, lasts⟩, failed⟩
      · rw [performed c] at failed
        rw [StepResult.settle_of_failed failed]
        refine ⟨fun s done => (by cases done), fun fault' thrown => ?_⟩
        cases thrown
        refine ⟨0, by omega, lasts_zero_iff.mpr ?_, failed⟩
        rw [show (m.step config).outcome = _ from failed]
        simp

end Machine

namespace Program

variable {config : Config} {p : Program} {m : Machine}

/-- Behind an entry there is another one, or the end. -/
theorem Lists.admits_next {code : List UInt8} {e : Listing.Entry} (lists : p.Lists code)
    (member : e ∈ p.entries) : p.Admits (e.offset + e.instruction.encodedLength) := by
  obtain ⟨is, _, _, entries, size⟩ := lists.exists_instructions
  rw [entries] at member
  obtain ⟨k, here⟩ := List.mem_iff_getElem?.mp member
  cases there : (Listing.ofInstructions 0 is)[k + 1]? with
  | some next =>
    refine .inr ⟨next, ?_, Listing.offset_of_next here there⟩
    rw [entries]
    exact List.mem_of_getElem? there
  | none =>
    have last : is.length ≤ k + 1 := by simpa using there
    left
    rw [Listing.end_of_getElem? here, List.take_of_length_le last, size]

theorem cursor_step_of_not_ready (unready : ¬ m.Ready config) :
    (m.step config).machine.cursor = m.cursor := by
  have way := Machine.steps config m
  generalize m.step config = result at way ⊢
  cases way with
  | rest | finish | exhaust => rfl
  | misread ready => exact absurd ready unready
  | succeed fetches | skip fetches | abort fetches => exact absurd fetches.toReady unready

theorem Lists.admits_step (lists : p.Lists m.cursor.code)
    (level : ∀ e ∈ p.entries, e.instruction.opcode.jumps = false)
    (admits : p.Admits m.cursor.position) :
    p.Admits (m.step config).machine.cursor.position := by
  by_cases ready : m.Ready config
  · have inside := ready.inside
    obtain ⟨e, member, place⟩ := admits.resolve_left (by rw [lists.size_eq]; omega)
    have fetched := (lists.fetch member).1
    rw [place] at fetched
    rw [Machine.step_of_ready ready fetched, Machine.cursor_perform (level e member), ← place]
    exact lists.admits_next member
  · rw [cursor_step_of_not_ready ready]
    exact admits

theorem Lists.admits_after (lists : p.Lists m.cursor.code)
    (level : ∀ e ∈ p.entries, e.instruction.opcode.jumps = false)
    (admits : p.Admits m.cursor.position) (count : Nat) :
    p.Admits (m.after config count).cursor.position := by
  induction count with
  | zero => exact admits
  | succ count ih =>
    rw [Machine.after_succ]
    apply Lists.admits_step _ level ih
    rwa [Machine.code_after]

/-- Every listing begins at the first byte, or the code is empty. -/
theorem Lists.admits_zero {code : List UInt8} (lists : p.Lists code) : p.Admits 0 := by
  obtain ⟨is, _, _, entries, size⟩ := lists.exists_instructions
  cases is with
  | nil => exact .inl (by simp [size])
  | cons i is =>
    rw [Listing.ofInstructions_cons] at entries
    exact .inr ⟨⟨0, i⟩, by simp [entries], rfl⟩

theorem Lists.offset_lt {code : List UInt8} {e : Listing.Entry} (lists : p.Lists code)
    (member : e ∈ p.entries) : e.offset < code.length := by
  have fits := (Cursor.fetch_eq_ok (lists.fetch member).1).2
  have := e.instruction.encodedLength_pos
  dsimp only at fits
  omega

/-- On a listing without jumps, as many steps as there are entries and cycles come to what these
entries come to in order, and end where the next entry begins. -/
theorem Lists.after_straight {code : List UInt8} (lists : p.Lists code)
    (level : ∀ e ∈ p.entries, e.instruction.opcode.jumps = false) (memory : Memory) {count : Nat}
    (within : count ≤ p.entries.length) (budget : count ≤ config.maxCycles.toNat) :
    (∀ s, (Machine.seeded [] memory).performAll config (p.entries.take count) = .ok s →
      (Machine.seeded code memory).Survives config count ∧ ∃ position,
        (Machine.seeded code memory).after config count = s.withCursor ⟨code, position⟩ ∧
        (count = p.entries.length → position = code.length) ∧
        (∀ e, p.entries[count]? = some e → position = e.offset)) ∧
    (∀ fault, (Machine.seeded [] memory).performAll config (p.entries.take count) = .error fault →
      ((Machine.seeded code memory).run config).result = .error fault) := by
  obtain ⟨is, encodable, rfl, entries, size⟩ := lists.exists_instructions
  have length : p.entries.length = is.length := by
    rw [entries, Listing.length_ofInstructions]
  have straight : (Machine.seeded (is.flatMap Instruction.encode) memory).Straight is := by
    refine ⟨encodable, fun i member => ?_, List.drop_zero⟩
    rw [← Listing.map_instruction_ofInstructions 0 is, ← entries] at member
    obtain ⟨e, listed, rfl⟩ := List.mem_map.mp member
    exact level e listed
  have reach : (Machine.seeded (is.flatMap Instruction.encode) memory).cycles.toNat + count ≤
      config.maxCycles.toNat := by
    simpa [Machine.seeded, Machine.boot] using budget
  obtain ⟨done, thrown⟩ := straight.performAll rfl (within.trans_eq length) reach ⟨[], 0⟩
  rw [entries]
  refine ⟨fun s performed => ?_, fun fault performed => ?_⟩
  · obtain ⟨survives, last⟩ := done s performed
    refine ⟨survives, _, last, fun all => ?_, fun e next => ?_⟩
    · rw [Listing.length_ofInstructions] at all
      rw [Listing.length_flatMap_encode, List.take_of_length_le all.ge]
      exact Nat.zero_add _
    · exact (Listing.getElem?_ofInstructions.mp next).2.symm
  · obtain ⟨k, _, lasts, failed⟩ := thrown fault performed
    exact lasts.result_of_failed failed

/-- What is reported of a program whose entries came to `s`, as far as there were cycles for them: it
ended behind the last entry or, with entries left, where the first of these begins. -/
structure Reports (config : Config) (p : Program) (s : Machine) (r : Report) : Prop where
  stack : r.stack = s.stack
  memory : r.memory = s.memory
  faults : r.faults = s.faults
  ended : p.entries.length ≤ config.maxCycles.toNat →
    r.haltReason = .endOfProgram ∧ r.cycles.toNat = p.entries.length ∧ r.position = p.size
  spent : config.maxCycles.toNat < p.entries.length →
    r.haltReason = .cycleLimit ∧ r.cycles = config.maxCycles ∧
      ∃ e, p.entries[config.maxCycles.toNat]? = some e ∧ r.position = e.offset

/-- The run of a listing without jumps of which no executed instruction fails. -/
theorem Lists.reports_straight {code : List UInt8} (lists : p.Lists code)
    (level : ∀ e ∈ p.entries, e.instruction.opcode.jumps = false) (memory : Memory) {s : Machine}
    (performed : (Machine.seeded [] memory).performAll config
      (p.entries.take (min p.entries.length config.maxCycles.toNat)) = .ok s) :
    ∃ r, ((Machine.seeded code memory).run config).result = .ok r ∧ p.Reports config s r := by
  obtain ⟨survives, position, last, ended, next⟩ := (lists.after_straight level memory
    (Nat.min_le_left _ _) (Nat.min_le_right _ _)).1 s performed
  obtain ⟨live, counted⟩ := survives.books rfl
  have stops : ∀ reason, (s.withCursor ⟨code, position⟩).step config =
      (s.withCursor ⟨code, position⟩).stop reason →
      ((Machine.seeded code memory).run config).result =
        .ok ((s.withCursor ⟨code, position⟩).stop reason).machine.report := by
    rw [← last]
    exact fun reason => survives.result_of_stop
  rw [last] at live counted
  have cycles : s.cycles.toNat = min p.entries.length config.maxCycles.toNat :=
    counted.trans (Nat.zero_add _)
  by_cases all : p.entries.length ≤ config.maxCycles.toNat
  · rw [Nat.min_eq_left all] at cycles ended
    have behind := ended rfl
    refine ⟨_, stops _ (Machine.step_of_ended live behind.ge), rfl, rfl, rfl, ?_, ?_⟩
    · exact fun _ => ⟨rfl, cycles, behind.trans lists.size_eq.symm⟩
    · exact fun fewer => absurd all (Nat.not_le.mpr fewer)
  · have fewer := Nat.lt_of_not_le all
    rw [Nat.min_eq_right fewer.le] at cycles next
    have found := List.getElem?_eq_getElem fewer
    have place := next _ found
    have inside : position < code.length := by
      rw [place]
      exact lists.offset_lt (List.mem_of_getElem? found)
    have stopped := Machine.step_of_spent live inside (UInt64.le_iff_toNat_le.mpr cycles.ge)
    refine ⟨_, stops _ stopped, rfl, rfl, rfl, ?_, ?_⟩
    · exact fun enough => absurd enough all
    · exact fun _ => ⟨rfl, UInt64.toNat_inj.mp cycles, _, found, place⟩

/-- Stepping through code is stepping through its listing. As long as the instruction pointer meets
the beginnings of entries or the end, a machine does at each step, in state, outcome and events,
what a machine without code does on the listing. Without jumps it meets nothing else, and a run
comes to what the entries come to in order: to the first fatal fault among those within the cycles
allowed, or else to the end of the code or the entry at which the cycles are spent. -/
theorem step_follows_listing {code : List UInt8} {entries : Listing}
    (decoded : Listing.decode code = .ok entries) (config : Config) (memory : Memory) :
    let p : Program := ⟨entries, code.length⟩
    let start := Machine.seeded code memory
    let bare := Machine.seeded [] memory
    let executed := entries.take (min entries.length config.maxCycles.toNat)
    (∀ count, (∀ k ≤ count, p.Admits (start.after config k).cursor.position) →
      p.after? config count bare = some ((start.after config count).withCode []) ∧
      p.step? config ((start.after config count).withCode []) =
        some (((start.after config count).step config).withCode [])) ∧
    ((∀ e ∈ entries, e.instruction.opcode.jumps = false) →
      (∀ count, p.Admits (start.after config count).cursor.position) ∧
      (∀ fault, bare.performAll config executed = .error fault →
        (start.run config).result = .error fault) ∧
      (∀ s, bare.performAll config executed = .ok s →
        ∃ r, (start.run config).result = .ok r ∧ p.Reports config s r)) := by
  intro p start bare executed
  have lists : p.Lists code := ⟨decoded, rfl⟩
  refine ⟨?_, ?_⟩
  · intro count admits
    have here : p.Lists (start.after config count).cursor.code := by
      rwa [Machine.code_after]
    exact ⟨Lists.after lists fun k less => admits k less.le, here.step (admits count le_rfl)⟩
  · intro level
    refine ⟨?_, ?_, ?_⟩
    · exact Lists.admits_after lists level lists.admits_zero
    · exact (lists.after_straight level memory (Nat.min_le_left _ _) (Nat.min_le_right _ _)).2
    · intro s performed
      exact lists.reports_straight level memory performed

/-- A jump over a push, followed step by step; and a run that skips its second instruction and has
no cycle left for its third. -/
theorem step_follows_listing_jump :
    let jumping : List UInt8 := [0xFE, 4, 0xFD, 7]
    let hops : Listing := [⟨0, ⟨.jmp, [.literal 4]⟩⟩, ⟨2, ⟨.push, [.literal 7]⟩⟩]
    let level : List UInt8 := [0xFD, 7, 0xEE, 0, 5, 0xFC]
    let walks : Listing :=
      [⟨0, ⟨.push, [.literal 7]⟩⟩, ⟨2, ⟨.movw, [.literal 0, .literal 5]⟩⟩, ⟨5, ⟨.pop, []⟩⟩]
    Listing.decode jumping = .ok hops ∧
    (Program.mk hops 4).after? {} 1 (Machine.seeded [] (.zeros 4)) =
      some (((Machine.seeded jumping (.zeros 4)).after {} 1).withCode []) ∧
    Listing.decode level = .ok walks ∧
    ∃ r, ((Machine.seeded level (.zeros 4)).run { maxCycles := 2 }).result = .ok r ∧
      r.stack = ⟨#[7]⟩ ∧ r.faults = #[.operandTypeMismatch .word .byte 2] ∧
      r.haltReason = .cycleLimit ∧ r.position = 5 := by
  intro jumping hops level walks
  have hopping : Listing.decode jumping = .ok hops := by cbv
  have walking : Listing.decode level = .ok walks := by cbv
  refine ⟨hopping, ?_, walking, ?_⟩
  · refine ((step_follows_listing hopping {} (.zeros 4)).1 1 ?_).1
    intro k less
    interval_cases k
    · exact .inr ⟨_, .head _, rfl⟩
    · exact .inl (by decide +kernel)
  · have straight := (step_follows_listing walking { maxCycles := 2 } (.zeros 4)).2 (by decide)
    obtain ⟨r, completed, reports⟩ := straight.2.2 _ rfl
    obtain ⟨reason, _, e, third, place⟩ := reports.spent (by decide)
    cases third
    exact ⟨r, completed, reports.stack, reports.faults, reason, place⟩

end Program
end OctetMachine
