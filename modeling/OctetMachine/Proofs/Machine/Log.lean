import Mathlib
import OctetMachine.Proofs.Machine.Configurations

/-! What a run logs. Every executed instruction is announced where the configuration asks for it,
and complained about if it was skipped; at the end there is one event more, which tells how the run
ended. Announcements are all that the configuration can add to a run. -/
namespace OctetMachine

/-- An instruction that was executed: how many came before it, where it was fetched, and the fault
for which it was skipped, if it was. -/
structure Execution where
  cycle : UInt64
  pc : Nat
  instruction : Instruction
  skipped? : Option Fault

/-- The announcement, where it is asked for, and directly behind it the complaint, if there is
one. -/
def Execution.events (trace : Bool) (x : Execution) : List Event :=
  (if trace then [.executing x.cycle x.pc x.instruction] else []) ++
    (x.skipped?.map (Event.skipped x.pc x.instruction)).toList

namespace Execution

variable (trace : Bool) (x : Execution)

theorem filter_trace_events : (x.events trace).filter (·.level == .trace) =
    if trace then [.executing x.cycle x.pc x.instruction] else [] := by
  unfold events
  cases trace <;> cases x.skipped? <;> rfl

theorem filter_warn_events : (x.events trace).filter (·.level == .warn) =
    (x.skipped?.map (Event.skipped x.pc x.instruction)).toList := by
  unfold events
  cases trace <;> cases x.skipped? <;> rfl

theorem filter_debug_events : (x.events trace).filter (·.level == .debug) = [] := by
  unfold events
  cases trace <;> cases x.skipped? <;> rfl

end Execution

/-- The event that closes the log of a run with this result. -/
def Event.closing (cycles : UInt64) : Except Fault Report → Event
  | .ok r => .halted r.haltReason r.cycles r.position
  | .error fault => .failed cycles fault

theorem Event.level_closing (cycles : UInt64) (result : Except Fault Report) :
    (closing cycles result).level = .debug := by
  cases result <;> rfl

theorem Event.message_closing (cycles : UInt64) (result : Except Fault Report) :
    (∃ r, result = .ok r ∧ (closing cycles result).message = "VM halted") ∨
      ∃ fault, result = .error fault ∧
        (closing cycles result).message = "execution failed: " ++ fault.message := by
  cases result with
  | ok r => exact .inl ⟨r, rfl, rfl⟩
  | error fault => exact .inr ⟨fault, rfl, rfl⟩

/-- The complaints about skipped instructions, in the order of their faults. -/
theorem Execution.messages_skipped (history : List Execution) :
    (history.flatMap fun x => (x.skipped?.map (Event.skipped x.pc x.instruction)).toList).map
      Event.message =
    (history.filterMap (·.skipped?)).map fun fault => "skipping instruction: " ++ fault.message := by
  induction history with
  | nil => rfl
  | cons x history ih =>
    rw [List.flatMap_cons, List.map_append, ih, List.filterMap_cons]
    cases x.skipped? <;> rfl

namespace Machine

variable {config : Config} {m : Machine}

/-- The next step of a machine is this execution. -/
structure Executes (config : Config) (m : Machine) (x : Execution) : Prop where
  fetches : m.Fetches config x.instruction
  cycle : x.cycle = m.cycles
  pc : x.pc = m.cursor.position
  faults : (m.step config).machine.faults.toList = m.faults.toList ++ x.skipped?.toList

/-- The executions that follow from a machine on, one a step: these, and no others. -/
structure History (config : Config) (m : Machine) (history : List Execution) : Prop where
  executes : ∀ (k : Nat) (x : Execution), history[k]? = some x →
    (m.after config k).Executes config x
  complete : ∀ (k : Nat) (i : Instruction), (m.after config k).Fetches config i → k < history.length

theorem history_of_halted {reason : HaltReason} (halted : m.halt? = some reason) :
    m.History config [] := by
  refine ⟨fun k x found => ?_, fun k i fetches => ?_⟩
  · cases found
  · have live := fetches.live
    rw [after_of_halted halted] at live
    cases live.symm.trans halted

theorem Executes.history {x : Execution} {history : List Execution} (executes : m.Executes config x)
    (others : (m.step config).machine.History config history) :
    m.History config (x :: history) := by
  refine ⟨fun k y found => ?_, fun k i fetches => ?_⟩
  · cases k with
    | zero =>
      cases found
      exact executes
    | succ k =>
      rw [after_step]
      exact others.executes k y found
  · cases k with
    | zero => exact Nat.succ_pos _
    | succ k =>
      rw [after_step] at fetches
      exact Nat.succ_lt_succ (others.complete k i fetches)

end Machine

/-- The event that closes the log when a step ends like this and leaves this machine. -/
def Outcome.closing? (left : Machine) : Outcome → Option Event
  | .running => none
  | .halted reason => some (.halted reason left.cycles left.cursor.position)
  | .failed fault => some (.failed left.cycles fault)

namespace Machine

variable {config : Config} {m : Machine}

theorem exists_halt_of_stops (stops : (m.step config).outcome ≠ .running) :
    ∃ reason, (m.step config).machine.halt? = some reason ∧
      ∀ other, (m.step config).outcome = .halted other → other = reason := by
  have way := steps config m
  generalize m.step config = result at way stops ⊢
  cases way with
  | rest halted => exact ⟨_, halted, fun other same => by cases same; rfl⟩
  | finish | exhaust => exact ⟨_, rfl, fun other same => by cases same; rfl⟩
  | misread | abort => exact ⟨_, rfl, fun other same => by cases same⟩
  | succeed | skip => exact absurd rfl stops

/-- The events of one step: those of the instruction that it executes, if it executes one, and the
closing event if the machine stops. -/
theorem step_log (config : Config) (live : m.halt? = none) :
    (∃ x, m.Executes config x ∧
      (m.step config).machine.cycles.toNat = m.cycles.toNat + 1 ∧
      (m.step config).events = x.events config.trace ++
        ((m.step config).outcome.closing? (m.step config).machine).toList) ∨
    ((∀ i, ¬ m.Fetches config i) ∧ (m.step config).outcome ≠ .running ∧
      (m.step config).machine.cycles = m.cycles ∧ (m.step config).machine.faults = m.faults ∧
      (m.step config).events =
        ((m.step config).outcome.closing? (m.step config).machine).toList) := by
  have way := steps config m
  generalize taken : m.step config = result at way ⊢
  cases way with
  | rest halted => cases live.symm.trans halted
  | finish live ended =>
    refine .inr ⟨fun i fetches => ?_, ?_, rfl, rfl, rfl⟩
    · exact absurd fetches.inside (Nat.not_lt.mpr ended)
    · simp [stop]
  | exhaust live inside spent =>
    refine .inr ⟨fun i fetches => ?_, ?_, rfl, rfl, rfl⟩
    · exact absurd fetches.below (UInt64.not_lt.mpr spent)
    · simp [stop]
  | misread ready unread =>
    refine .inr ⟨fun i fetches => ?_, ?_, rfl, rfl, rfl⟩
    · cases unread.symm.trans fetches.fetched
    · simp [fail]
  | @succeed i n fetches done =>
    have books := sameBooks_of_execute done
    refine .inl ⟨⟨m.cycles, m.cursor.position, i, none⟩, ⟨fetches, rfl, rfl, ?_⟩, ?_, ?_⟩
    · rw [taken]
      simp [books.faults, past]
    · rw [books.cycles]
      exact fetches.cycles_succ
    · simp [Execution.events, Outcome.closing?, traced]
  | @skip i fault fetches failed mild lenient =>
    refine .inl ⟨⟨m.cycles, m.cursor.position, i, some fault⟩, ⟨fetches, rfl, rfl, ?_⟩, ?_, ?_⟩
    · rw [taken]
      simp
    · exact fetches.cycles_succ
    · simp [Execution.events, Outcome.closing?, traced]
  | @abort i fault fetches failed fatal =>
    refine .inl ⟨⟨m.cycles, m.cursor.position, i, none⟩, ⟨fetches, rfl, rfl, ?_⟩, ?_, ?_⟩
    · rw [taken]
      simp [fail, past]
    · exact fetches.cycles_succ
    · simp [Execution.events, Outcome.closing?, traced, fail]

end Machine

namespace Progress

variable {config : Config}

/-- These executions account for all that is added until the end of the run: cycles, faults and
events. -/
structure Accounts (config : Config) (p : Progress) (history : List Execution) : Prop where
  follows : p.machine.History config history
  numbered : history.map (·.cycle.toNat) = List.range' p.machine.cycles.toNat history.length
  cycles : (p.complete config).machine.cycles.toNat = p.machine.cycles.toNat + history.length
  faults : (p.complete config).machine.faults.toList =
    p.machine.faults.toList ++ history.filterMap (·.skipped?)
  events : (p.complete config).events.toList =
    p.events.toList ++ history.flatMap (·.events config.trace) ++
      ((p.complete config).outcome.closing? (p.complete config).machine).toList

theorem exists_accounts_of_stop {p : Progress} (stops : (p.machine.step config).outcome ≠ .running)
    (live : p.machine.halt? = none) : ∃ history, p.Accounts config history := by
  have last : p.complete config = p.next config := complete_of_stop stops
  obtain ⟨reason, halted, _⟩ := Machine.exists_halt_of_stops stops
  have ended : (p.next config).machine.History config [] := Machine.history_of_halted halted
  rcases Machine.step_log config live with
    ⟨x, executes, counted, logged⟩ | ⟨idle, _, counted, kept, logged⟩
  · refine ⟨[x], executes.history ended, ?_, ?_, ?_, ?_⟩
    · simp [executes.cycle]
    · rw [last]
      exact counted
    · rw [last, List.filterMap_eq_flatMap_toList, List.flatMap_singleton]
      exact executes.faults
    · rw [last]
      simp [next, logged]
  · refine ⟨[], ⟨fun k x found => ?_, fun k i fetches => ?_⟩, rfl, ?_, ?_, ?_⟩
    · cases found
    · cases k with
      | zero => exact absurd fetches (idle i)
      | succ k =>
        rw [Machine.after_step] at fetches
        exact absurd (ended.complete k i fetches) (Nat.not_lt_zero k)
    · rw [last]
      exact congrArg UInt64.toNat counted
    · rw [last]
      simp [next, kept]
    · rw [last]
      simp [next, logged]

theorem Accounts.cons {p : Progress} {x : Execution} {history : List Execution}
    (running : (p.machine.step config).outcome = .running)
    (executes : p.machine.Executes config x)
    (logged : (p.machine.step config).events = x.events config.trace)
    (others : (p.next config).Accounts config history) : p.Accounts config (x :: history) := by
  have rest : p.complete config = (p.next config).complete config := complete_of_running running
  have counted : (p.next config).machine.cycles.toNat = p.machine.cycles.toNat + 1 :=
    Machine.toNat_cycles_of_running running
  refine ⟨executes.history others.follows, ?_, ?_, ?_, ?_⟩
  · rw [List.map_cons, others.numbered, counted, executes.cycle]
    rfl
  · rw [rest, others.cycles, counted, List.length_cons]
    omega
  · have faults := others.faults
    rw [List.filterMap_eq_flatMap_toList] at faults ⊢
    rw [rest, faults, List.flatMap_cons, ← List.append_assoc, ← executes.faults]
    rfl
  · rw [rest, others.events]
    simp [next, logged]

/-- The induction is on the steps that leave the machine running; the events so far vary with it. -/
theorem exists_accounts {p : Progress} {count : Nat} (lasts : p.machine.Lasts config count)
    (live : p.machine.halt? = none) : ∃ history, p.Accounts config history := by
  induction count generalizing p with
  | zero => exact exists_accounts_of_stop (Machine.lasts_zero_iff.mp lasts) live
  | succ count ih =>
    obtain ⟨running, others⟩ := Machine.lasts_succ_iff.mp lasts
    rcases Machine.step_log config live with
      ⟨x, executes, _, logged⟩ | ⟨_, stops, _⟩
    · obtain ⟨history, accounts⟩ :=
        ih (p := p.next config) others (Machine.ready_of_running running).2.2
      rw [running] at logged
      exact ⟨x :: history,
        accounts.cons running executes (by simpa [Outcome.closing?] using logged)⟩
    · exact absurd running stops

end Progress

namespace Machine

variable {config : Config} {m : Machine}

theorem events_run (config : Config) (m : Machine) :
    (m.run config).events = ((Progress.ofMachine m).complete config).events := by
  unfold run
  dsimp only
  split <;> rfl

/-- The closing event says what the run gives. -/
theorem closing_of_run {count : Nat} (lasts : m.Lasts config count) :
    let last := (Progress.ofMachine m).complete config
    last.outcome.closing? last.machine =
      some (Event.closing last.machine.cycles (m.run config).result) := by
  intro last
  obtain ⟨_, machine, outcome⟩ := Progress.complete_ofMachine lasts
  have stops := lasts.stops
  cases ended : ((m.after config count).step config).outcome with
  | running => exact absurd ended stops
  | failed fault =>
    rw [lasts.result_of_failed ended, outcome.trans ended]
    rfl
  | halted reason =>
    obtain ⟨_, halted, same⟩ := exists_halt_of_stops stops
    cases same reason ended
    rw [← after_succ] at halted
    rw [lasts.result_of_halted ended, outcome.trans ended, machine]
    simp [Outcome.closing?, Event.closing, report, halted]

end Machine

/-- The same configuration, with announcements or without. -/
def Config.tracing (config : Config) (trace : Bool) : Config := { config with trace }

def StepResult.quiet (r : StepResult) : StepResult :=
  { r with events := r.events.filter (·.level != .trace) }

def Progress.quiet (p : Progress) : Progress :=
  { p with events := p.events.filter (·.level != .trace) }

namespace Machine

variable {config : Config} {m : Machine}

/-- Without announcements a step is made in the same way. -/
theorem Steps.quiet {result : StepResult} (way : m.Steps (config.tracing true) result) :
    m.Steps (config.tracing false) result.quiet := by
  cases way with
  | rest halted => exact .rest halted
  | finish live ended => exact .finish live ended
  | exhaust live inside spent => exact .exhaust live inside spent
  | misread ready unread => exact .misread (ready.under ready.below) unread
  | succeed fetches done => exact .succeed (fetches.under fetches.below) done
  | skip fetches failed mild lenient =>
    exact .skip (fetches.under fetches.below) failed mild lenient
  | abort fetches failed fatal => exact .abort (fetches.under fetches.below) failed fatal

theorem step_quiet (config : Config) (m : Machine) :
    m.step (config.tracing false) = (m.step (config.tracing true)).quiet :=
  (steps (config.tracing true) m).quiet.eq

end Machine

theorem Progress.next_quiet (config : Config) (p : Progress) :
    p.quiet.next (config.tracing false) = (p.next (config.tracing true)).quiet := by
  have step := Machine.step_quiet config p.machine
  have events : p.events.filter (·.level != .trace) ++
      (p.machine.step (config.tracing true)).events.filter (·.level != .trace) =
        (p.events ++ (p.machine.step (config.tracing true)).events).filter (·.level != .trace) := by
    apply Array.toList_inj.mp
    simp
  simp [next, quiet, step, StepResult.quiet, events]

theorem Progress.complete_quiet {config : Config} {p : Progress} {count : Nat}
    (lasts : p.machine.Lasts (config.tracing true) count) :
    p.quiet.complete (config.tracing false) = (p.complete (config.tracing true)).quiet := by
  have next := next_quiet config p
  induction count generalizing p with
  | zero =>
    have stops : (p.next (config.tracing true)).outcome ≠ .running :=
      Machine.lasts_zero_iff.mp lasts
    rw [complete_of_stop stops, complete_of_stop (by rwa [next]), next]
  | succ count ih =>
    obtain ⟨running, others⟩ := Machine.lasts_succ_iff.mp lasts
    have goes : (p.next (config.tracing true)).outcome = .running := running
    rw [complete_of_running goes, complete_of_running (by rwa [next]), next]
    exact ih others (next_quiet config _)

namespace Machine

/-- Announcements are all that a traced run adds. -/
theorem run_quiet (config : Config) (m : Machine) :
    (m.run (config.tracing false)).result = (m.run (config.tracing true)).result ∧
      (m.run (config.tracing false)).events =
        (m.run (config.tracing true)).events.filter (·.level != .trace) := by
  obtain ⟨count, _, lasts⟩ := exists_lasts (config.tracing true) m
  have whole := Progress.complete_quiet (p := .ofMachine m) lasts
  have start : (Progress.ofMachine m).quiet = .ofMachine m := rfl
  rw [start] at whole
  unfold run
  rw [whole]
  simp only [Progress.quiet]
  cases ((Progress.ofMachine m).complete (config.tracing true)).outcome <;> exact ⟨rfl, rfl⟩

/-- The log accounts for the run. Its events are those of the executed instructions in order, each
announced where the configuration asks for it and then, if it was skipped, complained about; one
event follows, which says what the run gives. The instructions are numbered from zero to the cycles
spent, and the complaints are about the recorded faults. Without tracing the run gives the same, and
its log is the log of the traced run without the announcements. -/
theorem log_accounts_for_run (config : Config) (code : List UInt8) (memory : Memory) :
    let start := seeded code memory
    let last := ((Progress.ofMachine start).complete config).machine
    let log := (start.run config).events.toList
    let closing := Event.closing last.cycles (start.run config).result
    (∃ history, start.History config history ∧
      history.map (·.cycle.toNat) = List.range last.cycles.toNat ∧
      history.filterMap (·.skipped?) = last.faults.toList ∧
      log = history.flatMap (·.events config.trace) ++ [closing] ∧
      log.filter (·.level == .trace) = (if config.trace then
        history.map fun x => .executing x.cycle x.pc x.instruction else []) ∧
      (log.filter (·.level == .trace)).map Event.message = (if config.trace then
        history.map (·.instruction.text) else [])) ∧
    (log.filter (·.level == .warn)).map Event.message =
      last.faults.toList.map (fun fault => "skipping instruction: " ++ fault.message) ∧
    log.filter (·.level == .debug) = [closing] ∧
    ((∃ r, (start.run config).result = .ok r ∧ closing.message = "VM halted") ∨
      ∃ fault, (start.run config).result = .error fault ∧
        closing.message = "execution failed: " ++ fault.message) ∧
    (start.run (config.tracing false)).events.toList =
      (start.run (config.tracing true)).events.toList.filter (·.level != .trace) ∧
    (start.run (config.tracing false)).result = (start.run (config.tracing true)).result := by
  intro start last log closing
  obtain ⟨count, _, lasts⟩ := exists_lasts config start
  obtain ⟨history, accounts⟩ := Progress.exists_accounts (p := .ofMachine start) lasts rfl
  obtain ⟨result, events⟩ := run_quiet config start
  have logged : log = history.flatMap (·.events config.trace) ++ [closing] := by
    have added := accounts.events
    rw [closing_of_run lasts, ← events_run] at added
    exact added
  have faults : history.filterMap (·.skipped?) = last.faults.toList := accounts.faults.symm
  have level : closing.level = .debug := Event.level_closing _ _
  have announced : log.filter (·.level == .trace) = (if config.trace then
      history.map fun x => .executing x.cycle x.pc x.instruction else []) := by
    simp only [logged, List.filter_append, List.filter_flatMap, Execution.filter_trace_events]
    cases config.trace <;> simp [level, ← List.map_eq_flatMap]
  refine ⟨⟨history, accounts.follows, ?_, faults, logged, announced, ?_⟩, ?_, ?_, ?_, ?_, result⟩
  · have spent : last.cycles.toNat = history.length := accounts.cycles.trans (Nat.zero_add _)
    rw [spent, List.range_eq_range']
    exact accounts.numbered
  · rw [announced, apply_ite (List.map Event.message), List.map_map, List.map_nil]
    rfl
  · rw [← faults, ← Execution.messages_skipped]
    simp only [logged, List.filter_append, List.filter_flatMap, Execution.filter_warn_events]
    simp [level]
  · simp only [logged, List.filter_append, List.filter_flatMap, Execution.filter_debug_events]
    simp [level]
  · exact Event.message_closing _ _
  · rw [events, Array.toList_filter]

end Machine
end OctetMachine
