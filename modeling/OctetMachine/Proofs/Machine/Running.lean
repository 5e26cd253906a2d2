import Mathlib
import OctetMachine.Machine.Run
import OctetMachine.Proofs.Machine.Steps

/-! Runs as sequences of steps. A run takes some steps that leave the machine running and then one
that does not; since each of the former uses up a cycle, the configuration bounds their number. -/
namespace OctetMachine

namespace Machine

variable {config : Config} {m : Machine}

/-- A fresh machine with its memory filled beforehand. -/
def seeded (code : List UInt8) (memory : Memory) : Machine := { boot code with memory }

/-- So many steps leave the machine running. -/
def Survives (config : Config) (m : Machine) (count : Nat) : Prop :=
  ∀ k < count, ((m.after config k).step config).outcome = .running

/-- So many steps leave the machine running, and the next one does not. -/
structure Lasts (config : Config) (m : Machine) (count : Nat) : Prop where
  survives : m.Survives config count
  stops : ((m.after config count).step config).outcome ≠ .running

theorem survives_zero (config : Config) (m : Machine) : m.Survives config 0 := by
  intro k none
  cases none

theorem survives_succ_iff {count : Nat} : m.Survives config (count + 1) ↔
    (m.step config).outcome = .running ∧ (m.step config).machine.Survives config count := by
  constructor
  · intro survives
    refine ⟨survives 0 (by omega), fun k less => ?_⟩
    rw [← after_step]
    exact survives (k + 1) (by omega)
  · rintro ⟨first, others⟩ k less
    cases k with
    | zero => exact first
    | succ k =>
      rw [after_step]
      exact others k (by omega)

theorem lasts_zero_iff : m.Lasts config 0 ↔ (m.step config).outcome ≠ .running :=
  ⟨fun lasts => lasts.stops, fun stops => ⟨survives_zero config m, stops⟩⟩

theorem lasts_succ_iff {count : Nat} : m.Lasts config (count + 1) ↔
    (m.step config).outcome = .running ∧ (m.step config).machine.Lasts config count := by
  constructor
  · rintro ⟨survives, stops⟩
    obtain ⟨first, others⟩ := survives_succ_iff.mp survives
    rw [after_step] at stops
    exact ⟨first, others, stops⟩
  · rintro ⟨first, others, stops⟩
    rw [← after_step] at stops
    exact ⟨survives_succ_iff.mpr ⟨first, others⟩, stops⟩

theorem sameBooks_of_execute {i : Instruction} {pc : Nat} {n : Machine}
    (done : execute i pc m = .ok () n) : m.SameBooks n := by
  have books := confined_execute i pc m
  rw [done] at books
  exact books

theorem code_step (config : Config) (m : Machine) :
    (m.step config).machine.cursor.code = m.cursor.code := by
  have way := steps config m
  generalize m.step config = result at way ⊢
  cases way with
  | succeed fetches done => exact (sameBooks_of_execute done).code
  | rest | finish | exhaust | misread | skip | abort => rfl

theorem code_after (config : Config) (count : Nat) (m : Machine) :
    (m.after config count).cursor.code = m.cursor.code := by
  induction count with
  | zero => rfl
  | succ count ih => rw [after_succ, code_step, ih]

/-- The counter moves by one cycle or not at all, and does not wrap. -/
theorem toNat_cycles_step (config : Config) (m : Machine) :
    (m.step config).machine.cycles.toNat = m.cycles.toNat ∨
      (m.step config).machine.cycles.toNat = m.cycles.toNat + 1 := by
  have way := steps config m
  generalize m.step config = result at way ⊢
  cases way with
  | succeed fetches done =>
    rw [(sameBooks_of_execute done).cycles]
    exact .inr fetches.cycles_succ
  | skip fetches | abort fetches => exact .inr fetches.cycles_succ
  | rest | finish | exhaust | misread => exact .inl rfl

theorem ready_of_running (running : (m.step config).outcome = .running) :
    m.Ready config ∧ (m.step config).machine.cycles = m.cycles + 1 ∧
      (m.step config).machine.halt? = none := by
  have way := steps config m
  generalize m.step config = result at way running ⊢
  cases way with
  | succeed fetches done =>
    have books := sameBooks_of_execute done
    exact ⟨fetches.toReady, books.cycles, books.halt.trans fetches.live⟩
  | skip fetches => exact ⟨fetches.toReady, rfl, fetches.live⟩
  | rest | finish | exhaust | misread | abort => cases running

theorem toNat_cycles_of_running (running : (m.step config).outcome = .running) :
    (m.step config).machine.cycles.toNat = m.cycles.toNat + 1 := by
  obtain ⟨ready, counted, _⟩ := ready_of_running running
  rw [counted, ready.cycles_succ]

/-- The measure is the number of cycles that are left. -/
theorem exists_lasts (config : Config) (m : Machine) :
    ∃ count, count ≤ config.maxCycles.toNat - m.cycles.toNat ∧ m.Lasts config count := by
  induction left : config.maxCycles.toNat - m.cycles.toNat using Nat.strong_induction_on
    generalizing m with
  | _ left ih =>
    by_cases running : (m.step config).outcome = .running
    · have below := UInt64.lt_iff_toNat_lt.mp (ready_of_running running).1.below
      have counted := toNat_cycles_of_running running
      obtain ⟨count, bound, lasts⟩ := ih _ (by omega) (m.step config).machine rfl
      exact ⟨count + 1, by omega, lasts_succ_iff.mpr ⟨running, lasts⟩⟩
    · exact ⟨0, by omega, lasts_zero_iff.mpr running⟩

/-- A machine that survives has not halted, and its counter counts the steps. -/
theorem Survives.books {count : Nat} (survives : m.Survives config count) (live : m.halt? = none) :
    (m.after config count).halt? = none ∧
      (m.after config count).cycles.toNat = m.cycles.toNat + count := by
  induction count with
  | zero => exact ⟨live, rfl⟩
  | succ count ih =>
    have running := survives count (by omega)
    have before := ih fun k less => survives k (by omega)
    rw [after_succ]
    refine ⟨(ready_of_running running).2.2, ?_⟩
    rw [toNat_cycles_of_running running, before.2, Nat.add_assoc]

theorem Survives.cycles_le {count : Nat} (survives : m.Survives config count)
    (start : m.cycles ≤ config.maxCycles) : (m.after config count).cycles ≤ config.maxCycles := by
  cases count with
  | zero => exact start
  | succ count =>
    have running := survives count (by omega)
    have below := UInt64.lt_iff_toNat_lt.mp (ready_of_running running).1.below
    have counted := toNat_cycles_of_running running
    rw [after_succ]
    apply UInt64.le_iff_toNat_le.mpr
    omega

end Machine

namespace Progress

variable {config : Config}

theorem complete_of_running {p : Progress} (running : (p.next config).outcome = .running) :
    p.complete config = (p.next config).complete config := by
  rw [complete]
  exact dif_pos running

theorem complete_of_stop {p : Progress} (stops : (p.next config).outcome ≠ .running) :
    p.complete config = p.next config := by
  rw [complete]
  exact dif_neg stops

/-- What a run comes to, when it is known how long the machine lasts. -/
theorem complete_of_lasts {p : Progress} {count : Nat} (lasts : p.machine.Lasts config count) :
    (p.complete config).taken = p.taken + (count + 1) ∧
      (p.complete config).machine = p.machine.after config (count + 1) ∧
      (p.complete config).outcome = ((p.machine.after config count).step config).outcome := by
  induction count generalizing p with
  | zero =>
    rw [complete_of_stop (Machine.lasts_zero_iff.mp lasts)]
    exact ⟨rfl, rfl, rfl⟩
  | succ count ih =>
    obtain ⟨running, others⟩ := Machine.lasts_succ_iff.mp lasts
    obtain ⟨taken, machine, outcome⟩ := ih (p := p.next config) others
    rw [complete_of_running running, taken, machine, outcome]
    refine ⟨?_, ?_, ?_⟩
    · simp only [next]
      omega
    · exact (Machine.after_step config (count + 1) p.machine).symm
    · rw [Machine.after_step]
      rfl

theorem complete_ofMachine {m : Machine} {count : Nat} (lasts : m.Lasts config count) :
    ((ofMachine m).complete config).taken = count + 1 ∧
      ((ofMachine m).complete config).machine = m.after config (count + 1) ∧
      ((ofMachine m).complete config).outcome = ((m.after config count).step config).outcome := by
  obtain ⟨taken, machine, outcome⟩ := complete_of_lasts (p := ofMachine m) lasts
  exact ⟨taken.trans (Nat.zero_add _), machine, outcome⟩

end Progress

namespace Machine

variable {config : Config} {m : Machine}

theorem Lasts.result_of_failed {count : Nat} {fault : Fault} (lasts : m.Lasts config count)
    (failed : ((m.after config count).step config).outcome = .failed fault) :
    (m.run config).result = .error fault := by
  obtain ⟨_, _, outcome⟩ := Progress.complete_ofMachine lasts
  simp only [run, outcome, failed]

theorem Lasts.result_of_halted {count : Nat} {reason : HaltReason} (lasts : m.Lasts config count)
    (halted : ((m.after config count).step config).outcome = .halted reason) :
    (m.run config).result = .ok (m.after config (count + 1)).report := by
  obtain ⟨_, machine, outcome⟩ := Progress.complete_ofMachine lasts
  simp only [run, outcome, halted, machine]

theorem Survives.result_of_stop {count : Nat} {reason : HaltReason}
    (survives : m.Survives config count)
    (stopped : (m.after config count).step config = (m.after config count).stop reason) :
    (m.run config).result = .ok ((m.after config count).stop reason).machine.report := by
  have lasts : m.Lasts config count := ⟨survives, by rw [stopped]; simp [stop]⟩
  have result := lasts.result_of_halted (congrArg StepResult.outcome stopped)
  rwa [after_succ, stopped] at result

/-- How a machine that has not halted comes to a stop. -/
theorem step_of_live (live : m.halt? = none) (stops : (m.step config).outcome ≠ .running) :
    (∃ fault, (m.step config).outcome = .failed fault) ∨
    (m.cursor.code.length ≤ m.cursor.position ∧
      m.step config = m.stop .endOfProgram) ∨
    (m.cursor.position < m.cursor.code.length ∧ config.maxCycles ≤ m.cycles ∧
      m.step config = m.stop .cycleLimit) := by
  have way := steps config m
  generalize m.step config = result at way stops ⊢
  cases way with
  | rest halted => cases live.symm.trans halted
  | finish live ended => exact .inr (.inl ⟨ended, rfl⟩)
  | exhaust live inside spent => exact .inr (.inr ⟨inside, spent, rfl⟩)
  | misread | abort => exact .inl ⟨_, rfl⟩
  | succeed | skip => exact absurd rfl stops

/-- What the run of a machine with cycles to spend gives: the fault of the last step, or a report of
the machine behind its code or out of cycles. -/
theorem Lasts.ending {count : Nat} (lasts : m.Lasts config count) (live : m.halt? = none)
    (start : m.cycles ≤ config.maxCycles) :
    (∃ fault, (m.run config).result = .error fault ∧
      ((m.after config count).step config).outcome = .failed fault) ∨
    (∃ r, (m.run config).result = .ok r ∧ r = (m.after config (count + 1)).report ∧
      ((r.haltReason = .endOfProgram ∧ m.cursor.code.length ≤ r.position) ∨
        (r.haltReason = .cycleLimit ∧ r.cycles = config.maxCycles ∧
          r.position < m.cursor.code.length))) := by
  rw [← code_after config count m]
  rcases step_of_live (lasts.survives.books live).1 lasts.stops with
    ⟨fault, failed⟩ | ⟨ended, stopped⟩ | ⟨inside, spent, stopped⟩
  · exact .inl ⟨fault, lasts.result_of_failed failed, failed⟩
  · have result := lasts.survives.result_of_stop stopped
    rw [after_succ, stopped]
    exact .inr ⟨_, result, rfl, .inl ⟨rfl, ended⟩⟩
  · have result := lasts.survives.result_of_stop stopped
    rw [after_succ, stopped]
    have all := UInt64.le_antisymm (lasts.survives.cycles_le start) spent
    exact .inr ⟨_, result, rfl, .inr ⟨rfl, all, inside⟩⟩

/-- Every run comes to an end. It takes at most one step more than the cycles allowed, of which the
last alone does not leave the machine running. No step makes the counter wrap, and each that leaves
the machine running counts one cycle. A run that does not end in a fault ends behind the code or,
inside the code, with all its cycles spent. -/
theorem run_ends_within_budget (config : Config) (code : List UInt8) (memory : Memory) :
    let start := seeded code memory
    let taken := ((Progress.ofMachine start).complete config).taken
    taken ≤ config.maxCycles.toNat + 1 ∧
    (∀ k < taken, ((start.after config k).step config).outcome = .running ↔ k + 1 < taken) ∧
    (∀ m : Machine, (m.step config).machine.cycles.toNat = m.cycles.toNat ∨
      (m.step config).machine.cycles.toNat = m.cycles.toNat + 1) ∧
    (∀ m : Machine, (m.step config).outcome = .running →
      (m.step config).machine.cycles.toNat = m.cycles.toNat + 1) ∧
    ((∃ fault, (start.run config).result = .error fault ∧
        ((start.after config (taken - 1)).step config).outcome = .failed fault) ∨
      (∃ r, (start.run config).result = .ok r ∧ r = (start.after config taken).report ∧
        ((r.haltReason = .endOfProgram ∧ code.length ≤ r.position) ∨
          (r.haltReason = .cycleLimit ∧ r.cycles = config.maxCycles ∧
            r.position < code.length)))) ∧
    ∀ r, (start.run config).result = .ok r → r.haltReason ≠ .faulted := by
  intro start taken
  obtain ⟨count, bound, lasts⟩ := exists_lasts config start
  have takes : taken = count + 1 := (Progress.complete_ofMachine lasts).1
  have ending := lasts.ending rfl UInt64.zero_le
  rw [takes]
  refine ⟨by omega, ?_, toNat_cycles_step config, fun m => toNat_cycles_of_running, ending, ?_⟩
  · intro k less
    constructor
    · intro running
      by_contra last
      obtain rfl : k = count := by omega
      exact lasts.stops running
    · intro more
      exact lasts.survives k (by omega)
  · intro r found faulted
    rcases ending with ⟨fault, failed, _⟩ | ⟨r', completed, _, behind | limited⟩
    · cases found.symm.trans failed
    · cases found.symm.trans completed
      cases faulted.symm.trans behind.1
    · cases found.symm.trans completed
      cases faulted.symm.trans limited.1

/-- A jump to itself runs out of cycles. -/
theorem run_ends_within_budget_loop :
    let config : Config := { maxCycles := 3 }
    let start := seeded [0xFE, 0] (.zeros 4)
    let taken := ((Progress.ofMachine start).complete config).taken
    taken = 4 ∧ taken ≤ config.maxCycles.toNat + 1 ∧
    ((start.after config 2).step config).outcome = .running ∧
    ((start.after config 2).step config).machine.cycles.toNat =
      (start.after config 2).cycles.toNat + 1 ∧
    ∃ r, (start.run config).result = .ok r ∧ r.haltReason ≠ .faulted := by
  intro config start taken
  have four : taken = 4 := by decide +kernel
  have budget := run_ends_within_budget config [0xFE, 0] (.zeros 4)
  have running : ((start.after config 2).step config).outcome = .running :=
    (budget.2.1 2 (lt_of_lt_of_eq (by decide) four.symm)).mpr
      (lt_of_lt_of_eq (by decide) four.symm)
  have completed : (start.run config).result = .ok (start.after config 4).report := by
    decide +kernel
  exact ⟨four, budget.1, running, budget.2.2.2.1 _ running, _, completed,
    budget.2.2.2.2.2 _ completed⟩

end Machine
end OctetMachine
