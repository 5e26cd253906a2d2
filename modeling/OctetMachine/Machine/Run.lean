import OctetMachine.Machine.Confined

/-! Running a machine until it halts. Every step that does not halt it uses up a cycle of a bounded
number, so that each run comes to an end. -/
namespace OctetMachine

/-- How far a machine has come: the steps taken, the result of the last one, and all events. -/
structure Progress where
  machine : Machine
  taken : Nat := 0
  outcome : Outcome := .running
  events : Array Event := #[]

namespace Progress

def ofMachine (m : Machine) : Progress := { machine := m }

def next (config : Config) (p : Progress) : Progress :=
  let result := p.machine.step config
  { machine := result.machine
    taken := p.taken + 1
    outcome := result.outcome
    events := p.events ++ result.events }

/-- Take so many steps, or fewer if one of them does not leave the machine running. -/
def advance (config : Config) : Nat → Progress → Progress
  | 0, p => p
  | count + 1, p =>
    let q := p.next config
    if q.outcome = .running then advance config count q else q

/-- Take steps until one does not leave the machine running. -/
def complete (config : Config) (p : Progress) : Progress :=
  let q := p.next config
  if _running : q.outcome = .running then complete config q else q
termination_by config.maxCycles.toNat - p.machine.cycles.toNat
decreasing_by
  have spent := Machine.cycles_of_step (m := p.machine) _running
  have below : p.machine.cycles.toNat < config.maxCycles.toNat := UInt64.lt_iff_toNat_lt.mp spent.1
  have after : (p.next config).machine.cycles.toNat = p.machine.cycles.toNat + 1 := by
    have bound := config.maxCycles.toNat_lt
    show (p.machine.step config).machine.cycles.toNat = _
    rw [spent.2, UInt64.toNat_add]
    exact Nat.mod_eq_of_lt (by simp; omega)
  omega

end Progress

/-- The end of a run: a report or the fault that ended it, and the events on the way. -/
structure RunResult where
  result : Except Fault Report
  events : Array Event

def Machine.run (config : Config) (m : Machine) : RunResult :=
  let last := (Progress.ofMachine m).complete config
  match last.outcome with
  | .failed fault => ⟨.error fault, last.events⟩
  | _ => ⟨.ok last.machine.report, last.events⟩

end OctetMachine
