import Mathlib
import OctetMachine.Proofs.Machine.Running

/-! One machine under two configurations. Where they make the same steps they make the same run. A
strict configuration differs from a lenient one at the first mismatch, at which it fails; a smaller
limit differs from a larger one where its cycles are spent, at which it stops. -/
namespace OctetMachine

namespace Config

/-- The same configuration, skipping instructions whose operands have the wrong type. -/
def lenient (config : Config) : Config := { config with strictOperands := false }

/-- The same configuration, failing at such instructions. -/
def strict (config : Config) : Config := { config with strictOperands := true }

/-- The same configuration with another limit. -/
def limited (config : Config) (limit : UInt64) : Config := { config with maxCycles := limit }

end Config

namespace Machine

section Agreement

variable {a b : Config} {m : Machine} {count : Nat}

/-- Of the configuration, only the limit matters to whether an instruction can be fetched. -/
theorem Ready.under (ready : m.Ready a) (below : m.cycles < b.maxCycles) : m.Ready b :=
  ⟨ready.live, ready.inside, below⟩

theorem Fetches.under {i : Instruction} (fetches : m.Fetches a i) (below : m.cycles < b.maxCycles) :
    m.Fetches b i :=
  ⟨fetches.toReady.under below, fetches.fetched, fetches.fits⟩

/-- So many steps under the first configuration are steps under the second as well. -/
def Agree (a b : Config) (m : Machine) (count : Nat) : Prop :=
  ∀ k < count, (m.after a k).step b = (m.after a k).step a

theorem agree_succ_iff : Agree a b m (count + 1) ↔
    m.step b = m.step a ∧ Agree a b (m.step a).machine count := by
  constructor
  · intro agree
    refine ⟨agree 0 (by omega), fun k less => ?_⟩
    rw [← after_step]
    exact agree (k + 1) (by omega)
  · rintro ⟨first, others⟩ k less
    cases k with
    | zero => exact first
    | succ k =>
      rw [after_step]
      exact others k (by omega)

theorem Agree.after (agree : Agree a b m count) : m.after b count = m.after a count := by
  induction count generalizing m with
  | zero => rfl
  | succ count ih =>
    obtain ⟨first, others⟩ := agree_succ_iff.mp agree
    rw [after_step, after_step, first, ih others]

theorem Agree.of_le {k : Nat} (agree : Agree a b m count) (le : k ≤ count) : Agree a b m k :=
  fun j less => agree j (by omega)

theorem Agree.step {k : Nat} (agree : Agree a b m count) (less : k < count) :
    (m.after b k).step b = (m.after a k).step a := by
  rw [(agree.of_le less.le).after]
  exact agree k less

theorem Agree.survives (agree : Agree a b m count) (survives : m.Survives a count) :
    m.Survives b count := by
  intro k less
  rw [agree.step less]
  exact survives k less

end Agreement

end Machine

namespace Progress

variable {a b : Config} {p : Progress}

theorem next_of_step (same : p.machine.step b = p.machine.step a) : p.next b = p.next a := by
  unfold next
  rw [same]

theorem complete_of_agree {count : Nat} (lasts : p.machine.Lasts a count)
    (agree : p.machine.Agree a b (count + 1)) : p.complete b = p.complete a := by
  induction count generalizing p with
  | zero =>
    have next := next_of_step (Machine.agree_succ_iff.mp agree).1
    have stops : (p.next a).outcome ≠ .running := Machine.lasts_zero_iff.mp lasts
    rw [complete_of_stop stops, ← next, complete_of_stop (by rwa [next])]
  | succ count ih =>
    obtain ⟨first, later⟩ := Machine.agree_succ_iff.mp agree
    obtain ⟨running, others⟩ := Machine.lasts_succ_iff.mp lasts
    have next := next_of_step first
    have goes : (p.next a).outcome = .running := running
    rw [complete_of_running goes, complete_of_running (by rwa [next]), next]
    exact ih others later

end Progress

namespace Machine

theorem Lasts.run_of_agree {a b : Config} {m : Machine} {count : Nat} (lasts : m.Lasts a count)
    (agree : m.Agree a b (count + 1)) : m.run b = m.run a := by
  unfold run
  rw [Progress.complete_of_agree (p := .ofMachine m) lasts agree]

section Strictness

variable {config : Config} {m : Machine} {count : Nat}

/-- What strictness makes of a step: nothing, or a failure where the instruction would have been
skipped. -/
theorem Steps.strict {result : StepResult} (way : m.Steps config.lenient result) :
    (m.Steps config.strict result ∧ result.machine.faults = m.faults) ∨
    ∃ fault, result.machine.faults = m.faults.push fault ∧
      ∃ failure, m.Steps config.strict failure ∧ failure.outcome = .failed fault ∧
        failure.machine = { result.machine with faults := m.faults, halt? := some .faulted } := by
  cases way with
  | rest halted => exact .inl ⟨.rest halted, rfl⟩
  | finish live ended => exact .inl ⟨.finish live ended, rfl⟩
  | exhaust live inside spent => exact .inl ⟨.exhaust live inside spent, rfl⟩
  | misread ready unread => exact .inl ⟨.misread (ready.under ready.below) unread, rfl⟩
  | succeed fetches done =>
    have faults := (sameBooks_of_execute done).faults
    exact .inl ⟨.succeed (fetches.under fetches.below) done, faults⟩
  | skip fetches failed mild =>
    have aborts := Steps.abort (fetches.under (b := config.strict) fetches.below) failed fun _ => rfl
    exact .inr ⟨_, rfl, _, aborts, rfl, rfl⟩
  | abort fetches failed fatal =>
    exact .inl ⟨.abort (fetches.under fetches.below) failed fun _ => rfl, rfl⟩

theorem step_strict (config : Config) (m : Machine) :
    (m.step config.strict = m.step config.lenient ∧
      (m.step config.lenient).machine.faults = m.faults) ∨
    ∃ fault, (m.step config.lenient).machine.faults = m.faults.push fault ∧
      (m.step config.strict).outcome = .failed fault ∧
      (m.step config.strict).machine =
        { (m.step config.lenient).machine with faults := m.faults, halt? := some .faulted } := by
  rcases (steps config.lenient m).strict with
    ⟨way, kept⟩ | ⟨fault, pushed, failure, way, failed, left⟩
  · exact .inl ⟨way.eq, kept⟩
  · rw [way.eq]
    exact .inr ⟨fault, pushed, failed, left⟩

theorem size_faults_step (config : Config) (m : Machine) :
    m.faults.size ≤ (m.step config.lenient).machine.faults.size := by
  rcases step_strict config m with ⟨_, kept⟩ | ⟨fault, pushed, _⟩
  · rw [kept]
  · rw [pushed, Array.size_push]
    exact Nat.le_succ _

theorem size_faults_after {j k : Nat} (le : j ≤ k) :
    (m.after config.lenient j).faults.size ≤ (m.after config.lenient k).faults.size := by
  induction le with
  | refl => exact le_rfl
  | step _ ih =>
    rw [after_succ]
    exact ih.trans (size_faults_step config _)

/-- Without a new fault strictness makes no difference. -/
theorem agree_of_faults (clean : (m.after config.lenient count).faults = m.faults) :
    m.Agree config.lenient config.strict count := by
  intro k less
  rcases step_strict config (m.after config.lenient k) with ⟨same, _⟩ | ⟨fault, pushed, _⟩
  · exact same
  · have before : m.faults.size ≤ (m.after config.lenient k).faults.size :=
      size_faults_after (Nat.zero_le k)
    have after : (m.after config.lenient (k + 1)).faults.size ≤ _ := size_faults_after less
    rw [after_succ, pushed, Array.size_push, clean] at after
    omega

/-- After `k` steps without a fault, the next one records this fault where the machine is lenient.
Strictness makes no difference to these `k` steps; then it makes the machine fail with the fault. -/
structure FirstFault (config : Config) (m : Machine) (k : Nat) (fault : Fault) : Prop where
  same_steps : ∀ j < k, (m.after config.strict j).step config.strict =
    (m.after config.lenient j).step config.lenient
  same_states : ∀ j ≤ k, m.after config.strict j = m.after config.lenient j
  clean : (m.after config.lenient k).faults = #[]
  records : (m.after config.lenient (k + 1)).faults = #[fault]
  fails : ((m.after config.strict k).step config.strict).outcome = .failed fault
  /-- Stack, memory, cycles and instruction pointer are those of the lenient machine. -/
  leaves : m.after config.strict (k + 1) =
    { m.after config.lenient (k + 1) with faults := #[], halt? := some .faulted }

theorem exists_firstFault {fault : Fault} (fresh : m.faults = #[])
    (found : (m.after config.lenient count).faults[0]? = some fault) :
    ∃ k < count, m.FirstFault config k fault := by
  induction count with
  | zero =>
    rw [show m.after config.lenient 0 = m from rfl, fresh] at found
    cases found
  | succ count ih =>
    rw [after_succ] at found
    rcases step_strict config (m.after config.lenient count) with
      ⟨_, kept⟩ | ⟨other, pushed, fails, left⟩
    · rw [kept] at found
      obtain ⟨k, less, first⟩ := ih found
      exact ⟨k, by omega, first⟩
    · by_cases clean : (m.after config.lenient count).faults = #[]
      · have agree : m.Agree config.lenient config.strict count :=
          agree_of_faults (clean.trans fresh.symm)
        rw [pushed, clean] at found
        cases found
        refine ⟨count, by omega, fun j => agree.step, fun j le => (agree.of_le le).after, clean,
          ?_, ?_, ?_⟩
        · rw [after_succ, pushed, clean]
          rfl
        · rwa [agree.after]
        · rw [after_succ, after_succ, agree.after, left, clean]
      · have some : 0 < (m.after config.lenient count).faults.size :=
          Array.size_pos_iff.mpr clean
        rw [pushed, Array.getElem?_push_lt some] at found
        obtain ⟨k, less, first⟩ := ih (by rwa [Array.getElem?_eq_getElem some])
        exact ⟨k, by omega, first⟩

end Strictness

/-- A strict run is a lenient run up to the first fault. If the lenient run records none, the two
runs are the same. If it does, the strict run makes the same steps until then, fails with the first
fault and leaves the machine as the lenient step does, except that it has halted and recorded
nothing. -/
theorem strict_run_fails_at_first_fault (config : Config) (code : List UInt8) (memory : Memory) :
    let start := seeded code memory
    let whole := (Progress.ofMachine start).complete config.lenient
    (whole.machine.faults = #[] → start.run config.strict = start.run config.lenient) ∧
    ∀ fault, whole.machine.faults[0]? = some fault → ∃ k < whole.taken,
      start.FirstFault config k fault ∧ start.Survives config.strict k ∧
        (start.run config.strict).result = .error fault := by
  intro start whole
  obtain ⟨count, _, lasts⟩ := exists_lasts config.lenient start
  obtain ⟨taken, machine, _⟩ := Progress.complete_ofMachine lasts
  refine ⟨fun clean => ?_, fun fault found => ?_⟩
  · apply lasts.run_of_agree
    apply agree_of_faults
    rw [← machine]
    exact clean
  · rw [machine] at found
    obtain ⟨k, less, first⟩ := exists_firstFault rfl found
    have survives : start.Survives config.strict k := by
      intro j earlier
      rw [first.same_steps j earlier]
      exact lasts.survives j (by omega)
    have fails : start.Lasts config.strict k := ⟨survives, by rw [first.fails]; simp⟩
    exact ⟨k, less.trans_eq taken.symm, first, survives, fails.result_of_failed first.fails⟩

/-- A byte that should have been a word, between a push and a pop, is the first fault. With the push
alone there is none. -/
theorem strict_run_fails_at_first_fault_narrow :
    let start := seeded [0xFD, 7, 0xEE, 0, 5, 0xFC] (.zeros 4)
    let fault : Fault := .operandTypeMismatch .word .byte 2
    let short := seeded [0xFD, 7] (.zeros 4)
    ((Progress.ofMachine start).complete (Config.lenient {})).machine.faults = #[fault] ∧
    (∃ k, start.FirstFault {} k fault ∧
      (start.run (Config.strict {})).result = .error fault) ∧
    ((Progress.ofMachine short).complete (Config.lenient {})).machine.faults = #[] ∧
    short.run (Config.strict {}) = short.run (Config.lenient {}) := by
  intro start fault short
  have faults : ((Progress.ofMachine start).complete (Config.lenient {})).machine.faults =
      #[fault] := by decide +kernel
  have clean : ((Progress.ofMachine short).complete (Config.lenient {})).machine.faults =
      #[] := by decide +kernel
  refine ⟨faults, ?_, clean, (strict_run_fails_at_first_fault {} _ _).1 clean⟩
  obtain ⟨k, _, first, _, result⟩ :=
    (strict_run_fails_at_first_fault {} _ _).2 fault (congrArg (·[0]?) faults)
  exact ⟨k, first, result⟩

section Limits

variable {config : Config} {m : Machine} {n limit : UInt64} {count : Nat}

/-- A larger limit makes no difference to a step, unless the cycles of the smaller are spent. -/
theorem Steps.limited {result : StepResult} (way : m.Steps (config.limited n) result)
    (le : n ≤ limit) (goes : result ≠ m.stop .cycleLimit) :
    m.Steps (config.limited limit) result := by
  have below : m.Ready (config.limited n) → m.cycles < limit :=
    fun ready => UInt64.lt_of_lt_of_le ready.below le
  cases way with
  | rest halted => exact .rest halted
  | finish live ended => exact .finish live ended
  | exhaust live inside spent => exact absurd rfl goes
  | misread ready unread => exact .misread (ready.under (below ready)) unread
  | succeed fetches done => exact .succeed (fetches.under (below fetches.toReady)) done
  | skip fetches failed mild lenient =>
    exact .skip (fetches.under (below fetches.toReady)) failed mild lenient
  | abort fetches failed fatal => exact .abort (fetches.under (below fetches.toReady)) failed fatal

theorem Survives.agree_limited (survives : m.Survives (config.limited n) count) (le : n ≤ limit) :
    m.Agree (config.limited n) (config.limited limit) count := by
  intro k less
  apply Steps.eq
  apply (steps _ _).limited le
  intro stopped
  have running := survives k less
  rw [stopped] at running
  cases running

/-- The last step is made under the larger limit as well, unless it is a stop at the smaller. -/
theorem Lasts.run_limited (lasts : m.Lasts (config.limited n) count) (le : n ≤ limit)
    (goes : (m.after (config.limited n) count).step (config.limited n) ≠
      (m.after (config.limited n) count).stop .cycleLimit) :
    m.run (config.limited limit) = m.run (config.limited n) := by
  apply lasts.run_of_agree
  intro k less
  rcases Nat.lt_succ_iff_lt_or_eq.mp less with earlier | rfl
  · exact lasts.survives.agree_limited le k earlier
  · apply Steps.eq
    exact (steps _ _).limited le goes

/-- Under the smaller limit a run is the same as under the larger one, or it is cut short inside the
code. -/
theorem run_limited (config : Config) (le : n ≤ limit) (live : m.halt? = none)
    (fresh : m.cycles ≤ n) :
    (m.run (config.limited limit) = m.run (config.limited n) ∧
      ∀ r, (m.run (config.limited n)).result = .ok r →
        r.haltReason = .endOfProgram ∧ r.cycles ≤ n) ∨
    ∃ count, m.Survives (config.limited limit) count ∧
      let cut := m.after (config.limited limit) count
      cut.cycles = n ∧ cut.cursor.position < cut.cursor.code.length ∧
        (m.run (config.limited n)).result =
          .ok { cut.report with haltReason := .cycleLimit } := by
  obtain ⟨count, _, lasts⟩ := exists_lasts (config.limited n) m
  have bound := lasts.survives.cycles_le fresh
  rcases step_of_live (lasts.survives.books live).1 lasts.stops with
    ⟨fault, failed⟩ | ⟨ended, stopped⟩ | ⟨inside, spent, stopped⟩
  · refine .inl ⟨lasts.run_limited le ?_, fun r completed => ?_⟩
    · intro stopped
      rw [stopped] at failed
      cases failed
    · cases completed.symm.trans (lasts.result_of_failed failed)
  · refine .inl ⟨lasts.run_limited le ?_, fun r completed => ?_⟩
    · rw [stopped]
      intro same
      cases congrArg StepResult.outcome same
    · cases completed.symm.trans (lasts.survives.result_of_stop stopped)
      exact ⟨rfl, bound⟩
  · have agree := lasts.survives.agree_limited le
    refine .inr ⟨count, agree.survives lasts.survives, ?_⟩
    rw [agree.after]
    exact ⟨UInt64.le_antisymm bound spent, inside, lasts.survives.result_of_stop stopped⟩

theorem Lasts.le_of_survives {j k : Nat} (lasts : m.Lasts config k) (survives : m.Survives config j) :
    j ≤ k := by
  by_contra less
  exact lasts.stops (survives k (Nat.lt_of_not_le less))

theorem Lasts.ended {r : Report} (lasts : m.Lasts config count) (live : m.halt? = none)
    (completed : (m.run config).result = .ok r) (ended : r.haltReason = .endOfProgram) :
    (m.after config count).cursor.code.length ≤ (m.after config count).cursor.position ∧
      r.cycles = (m.after config count).cycles := by
  rcases step_of_live (lasts.survives.books live).1 lasts.stops with
    ⟨fault, failed⟩ | ⟨behind, stopped⟩ | ⟨_, _, stopped⟩
  · cases completed.symm.trans (lasts.result_of_failed failed)
  · cases completed.symm.trans (lasts.survives.result_of_stop stopped)
    exact ⟨behind, rfl⟩
  · cases completed.symm.trans (lasts.survives.result_of_stop stopped)
    cases ended

/-- A machine that is still inside the code after some steps takes more cycles to end. -/
theorem Survives.cycles_lt {r : Report} (survives : m.Survives config count)
    (live : m.halt? = none)
    (inside : (m.after config count).cursor.position < (m.after config count).cursor.code.length)
    (completed : (m.run config).result = .ok r) (ended : r.haltReason = .endOfProgram) :
    (m.after config count).cycles < r.cycles := by
  obtain ⟨total, _, lasts⟩ := exists_lasts config m
  obtain ⟨behind, cycles⟩ := lasts.ended live completed ended
  have le := lasts.le_of_survives survives
  have unequal : count ≠ total := by
    rintro rfl
    omega
  rw [cycles, UInt64.lt_iff_toNat_lt, (survives.books live).2, (lasts.survives.books live).2]
  omega

end Limits

/-- The limit only truncates. A run that does not stop at the smaller limit is the same run under the
larger one. One that does has spent all its cycles, and reports what the machine under the larger
limit has come to after as many steps. Of a run that ends behind the code, the smaller limit keeps
everything if it allows for as many cycles, and else not. -/
theorem limit_only_truncates (config : Config) (code : List UInt8) (memory : Memory)
    {n limit : UInt64} (le : n ≤ limit) :
    let start := seeded code memory
    let short := start.run (config.limited n)
    let long := start.run (config.limited limit)
    ((∀ r, short.result = .ok r → r.haltReason ≠ .cycleLimit) → long = short) ∧
    (∀ r, short.result = .ok r → r.haltReason = .cycleLimit → r.cycles = n ∧
      start.Survives (config.limited limit) n.toNat ∧
      r = { (start.after (config.limited limit) n.toNat).report with haltReason := .cycleLimit }) ∧
    (∀ r, long.result = .ok r → r.haltReason = .endOfProgram →
      (short.result = long.result ↔ r.cycles ≤ n)) := by
  intro start short long
  have live : start.halt? = none := rfl
  rcases run_limited config le live UInt64.zero_le with
    ⟨same, whole⟩ | ⟨count, survives, spent, inside, cut⟩
  · refine ⟨fun _ => same, fun r completed limited => ?_, fun r completed _ => ?_⟩
    · cases limited.symm.trans (whole r completed).1
    · have result : short.result = long.result := congrArg RunResult.result same.symm
      exact iff_of_true result (whole r (result.trans completed)).2
  · refine ⟨fun unlimited => absurd rfl (unlimited _ cut), fun r completed _ => ?_,
      fun r completed ended => iff_of_false ?_ ?_⟩
    · cases completed.symm.trans cut
      have counted := (survives.books live).2
      rw [spent] at counted
      obtain rfl : n.toNat = count := counted.trans (Nat.zero_add count)
      exact ⟨spent, survives, rfl⟩
    · intro same
      cases (same.symm.trans cut).symm.trans completed
      cases ended
    · have more := survives.cycles_lt live inside completed ended
      rw [spent] at more
      exact UInt64.not_le.mpr more

/-- Two pushes and a pop need three cycles: with two of them the run stops before the pop, and with
three it is what it is with five. -/
theorem limit_only_truncates_pushes :
    let start := seeded [0xFD, 7, 0xFD, 8, 0xFC] (.zeros 4)
    let run := fun limit => start.run (Config.limited {} limit)
    let stopped := start.after (Config.limited {} 5) 2
    (run 2).result = .ok { stopped.report with haltReason := .cycleLimit } ∧
    stopped.stack = ⟨#[7, 8]⟩ ∧ run 5 = run 3 ∧ (run 2).result ≠ (run 5).result := by
  intro start run stopped
  have two : (run 2).result = .ok (start.after (Config.limited {} 2) 3).report := by
    decide +kernel
  have three : (run 3).result = .ok (start.after (Config.limited {} 3) 4).report := by
    decide +kernel
  have five : (run 5).result = .ok (start.after (Config.limited {} 5) 4).report := by
    decide +kernel
  have less : (2 : UInt64) ≤ 5 := by decide
  have enough : (3 : UInt64) ≤ 5 := by decide
  obtain ⟨_, cut, ended⟩ := limit_only_truncates {} [0xFD, 7, 0xFD, 8, 0xFC] (.zeros 4) less
  obtain ⟨whole, _⟩ := limit_only_truncates {} [0xFD, 7, 0xFD, 8, 0xFC] (.zeros 4) enough
  refine ⟨?_, by decide +kernel, ?_, ?_⟩
  · have report := (cut _ two (by decide +kernel)).2.2
    exact two.trans (congrArg Except.ok report)
  · apply whole
    intro r completed
    cases completed.symm.trans three
    decide +kernel
  · intro same
    have few := (ended _ five (by decide +kernel)).mp same
    exact absurd few (by decide +kernel)

end Machine
end OctetMachine
