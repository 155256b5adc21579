import OsSim.Sched.Policy
import OsSim.Sched.System

/-!
# A run of every configuration

The threads of `os.c` take their steps in a fixed order: the first one of a list that can go on
does, and when none of them can, the timer does. Calls of `get_proc` are atomic.

Results:
* `System.path_lockstep`, `System.run_lockstep`: these steps are steps of the simulator, whatever
  the configuration and the order of the threads are.
-/

namespace OsSim.Sched

/-- `cpu_routine` of one CPU, or `ld_routine`. -/
inductive Thread (n : ℕ)
  | ld
  | cpu (k : Fin n)

/-- The loader, and the CPUs in their order. -/
def Thread.all (n : ℕ) : List (Thread n) := .ld :: (List.finRange n).map .cpu

/-- A call of `get_proc` returns `NULL` when no process waits, and changes nothing. -/
theorem getMlqProc_of_allEmpty {s : Mlq} (h : s.allEmpty = true) :
    getMlqProc s = some (s, none) := by
  obtain ⟨k, hk, hret⟩ := returns_null (s.allEmpty_iff.mp h)
  exact getMlqProc_of_returns (by omega) hret

namespace System

variable {n : ℕ}

/-- The next step of a thread. -/
def threadStep (c : Config) (s : System n) : Thread n → Option (Label n × State n)
  | .ld => (s.os.ldStep c s.timer.time).map fun r => (.ld s.timer.time r.1, r.2)
  | .cpu k =>
    match (s.os.cpu k).loc with
    | .getting b (.loop 0 false) =>
      -- the empty queues need not be scanned one by one
      if s.os.mlq.allEmpty then
        some (.cpu k (.get none), s.os.setCpu k (b.next none)
          (if b = .finished then 0 else (s.os.cpu k).timeLeft))
      else (s.os.cpuStep c .call k).map fun r => (.cpu k r.1, r.2)
    | _ => (s.os.cpuStep c .call k).map fun r => (.cpu k r.1, r.2)

/-- A step of a thread, with the timer's part of it. -/
def threadNext (c : Config) (s : System n) (th : Thread n) : Option (SysLabel n × System n) :=
  match s.threadStep c th with
  | none => none
  | some (e, os) =>
    match e.timer with
    | none => some (.thread e, ⟨os, s.timer⟩)
    | some te => (s.timer.exec te).map fun t => (.thread e, ⟨os, t⟩)

def timerNext (s : System n) : Option (SysLabel n × System n) :=
  match s.timer.timerRoutine with
  | some t => some (.timer .routine, ⟨s.os, t⟩)
  | none => s.timer.tick.map fun t => (.timer .tick, ⟨s.os, t⟩)

/-- The first thread of `order` that can go on takes a step, or the timer. -/
def next (c : Config) (order : List (Thread n)) (s : System n) :
    Option (SysLabel n × System n) :=
  match order.findSome? (s.threadNext c) with
  | some r => some r
  | none => s.timerNext

/-- At most `fuel` steps: what they are, and the state after them. -/
def lockstep (c : Config) (order : List (Thread n)) (fuel : ℕ) (s : System n) :
    List (SysLabel n) × System n :=
  match fuel with
  | 0 => ([], s)
  | fuel + 1 =>
    match s.next c order with
    | none => ([], s)
    | some (l, s') => (l :: (lockstep c order fuel s').1, (lockstep c order fuel s').2)

variable {c : Config}

/-- A call of `get_proc` that finds no process. -/
theorem cpuStep_of_allEmpty {s : State n} {k : Fin n} {b : GetSite}
    (hl : (s.cpu k).loc = .getting b .start) (hempty : s.mlq.allEmpty = true) :
    s.cpuStep c .call k = some (.get none, s.setCpu k (b.next none)
      (if b = .finished then 0 else (s.cpu k).timeLeft)) := by
  have hget : Grain.call.get s.mlq .start = some (s.mlq, .inr none) := by
    rw [show Grain.call.get s.mlq .start = (getMlqProc s.mlq).map fun r => (r.1, .inr r.2) from rfl,
      getMlqProc_of_allEmpty hempty]
    rfl
  simp only [State.cpuStep, hl, hget]
  cases b
  all_goals rfl

theorem exec_of_threadStep {s : System n} {th : Thread n} {e : Label n} {os : State n}
    (h : s.threadStep c th = some (e, os)) : s.os.exec c .call e = some os ∧ s.timeOk e = true := by
  cases th with
  | ld =>
    obtain ⟨⟨a, os'⟩, hst, heq⟩ := Option.map_eq_some_iff.mp h
    cases heq
    exact ⟨exec_ld.mpr hst, by simp [timeOk]⟩
  | cpu k =>
    have hmap : ∀ {e os}, ((s.os.cpuStep c .call k).map fun r => (Label.cpu k r.1, r.2)) =
        some (e, os) → s.os.exec c .call e = some os ∧ s.timeOk e = true := by
      intro e os h
      obtain ⟨⟨a, os'⟩, hst, heq⟩ := Option.map_eq_some_iff.mp h
      cases heq
      exact ⟨exec_cpu.mpr hst, rfl⟩
    simp only [threadStep] at h
    split at h
    · rename_i b hl
      split at h
      · rename_i hempty
        cases h
        exact ⟨exec_cpu.mpr (cpuStep_of_allEmpty hl hempty), rfl⟩
      · exact hmap h
    · exact hmap h

theorem exec_of_threadNext {s s' : System n} {th : Thread n} {l : SysLabel n}
    (h : s.threadNext c th = some (l, s')) : s.exec c .call l = some s' := by
  simp only [threadNext] at h
  split at h
  · cases h
  · rename_i e os hst
    obtain ⟨hos, htime⟩ := exec_of_threadStep hst
    split at h
    · rename_i ht
      cases h
      simp only [exec, htime, hos, ht, if_true]
    · rename_i te ht
      obtain ⟨t, hexec, heq⟩ := Option.map_eq_some_iff.mp h
      cases heq
      simp only [exec, htime, hos, ht, hexec, if_true, Option.map_some]

theorem exec_of_next {s s' : System n} {order : List (Thread n)} {l : SysLabel n}
    (h : s.next c order = some (l, s')) : s.exec c .call l = some s' := by
  simp only [next] at h
  split at h
  · rename_i r hr
    cases h
    obtain ⟨th, -, hth⟩ := List.exists_of_findSome?_eq_some hr
    exact exec_of_threadNext hth
  · simp only [timerNext] at h
    split at h
    · rename_i t ht
      cases h
      simp [exec, ownStep, Timer.State.exec, ht]
    · obtain ⟨t, ht, heq⟩ := Option.map_eq_some_iff.mp h
      cases heq
      simp [exec, ownStep, Timer.State.exec, ht]

/-- The steps of `lockstep` are steps of the simulator. -/
theorem path_lockstep {c : Config} (order : List (Thread c.numCpus)) (fuel : ℕ)
    (s : System c.numCpus) :
    (sysLts c .call).Path s (s.lockstep c order fuel).1 (s.lockstep c order fuel).2 := by
  induction fuel generalizing s with
  | zero => exact .nil
  | succ fuel ih =>
    unfold lockstep
    split
    · exact .nil
    · rename_i l s' hnext
      exact .cons (exec_of_next hnext) (ih s')

/-- From the start they are a run. -/
theorem run_lockstep {c : Config} (order : List (Thread c.numCpus)) (fuel : ℕ) :
    (sysLts c .call).Run ((init c.numCpus).lockstep c order fuel).1
      ((init c.numCpus).lockstep c order fuel).2 :=
  ⟨_, rfl, path_lockstep order fuel _⟩

end System

/-! ## Two configurations -/

/-- Two CPUs and five processes of one queue, with time slices of two slots. -/
def Config.fiveProcesses : Config where
  timeSlot := 2
  numCpus := 2
  ldProcesses := [
    ⟨[⟨.ALLOC, 300, 0, 0⟩, ⟨.WRITE, 7, 0, 20⟩, ⟨.READ, 0, 20, 1⟩, ⟨.FREE, 0, 0, 0⟩], 0, 0⟩,
    ⟨List.replicate 3 { opcode := .CALC }, 0, 0⟩,
    ⟨[{ opcode := .CALC }, ⟨.ALLOC, 100, 1, 0⟩, { opcode := .CALC }], 0, 0⟩,
    ⟨List.replicate 2 { opcode := .CALC }, 3, 0⟩,
    ⟨[{ opcode := .CALC }], 4, 0⟩]

/-- Both CPUs are at work until all processes have been freed, and stop. -/
@[irreducible] def fiveProcesses (fuel : ℕ) : List (SysLabel 2) × System 2 :=
  (System.init 2).lockstep .fiveProcesses (Thread.all 2) fuel

theorem run_fiveProcesses (fuel : ℕ) :
    (sysLts .fiveProcesses .call).Run (fiveProcesses fuel).1 (fiveProcesses fuel).2 := by
  unfold fiveProcesses
  exact System.run_lockstep (c := .fiveProcesses) _ fuel

/-- At most `more` steps that follow the first `fuel` ones. -/
@[irreducible] def fiveProcessesAfter (fuel more : ℕ) : List (SysLabel 2) × System 2 :=
  (fiveProcesses fuel).2.lockstep .fiveProcesses (Thread.all 2) more

theorem path_fiveProcessesAfter (fuel more : ℕ) :
    (sysLts .fiveProcesses .call).Path (fiveProcesses fuel).2 (fiveProcessesAfter fuel more).1
      (fiveProcessesAfter fuel more).2 := by
  unfold fiveProcessesAfter
  exact System.path_lockstep (c := .fiveProcesses) _ more _

/-- The last process starts when the others have finished. -/
def Config.lateProcess : Config where
  timeSlot := 2
  numCpus := 2
  ldProcesses := [
    ⟨[⟨.ALLOC, 300, 0, 0⟩, ⟨.WRITE, 7, 0, 20⟩, ⟨.FREE, 0, 0, 0⟩], 0, 0⟩,
    ⟨List.replicate 2 { opcode := .CALC }, 0, 1⟩,
    ⟨[{ opcode := .CALC }], 4, 0⟩]

/-- CPU 0 finds no process while CPU 1 executes the last one, and goes on looking for one. -/
@[irreducible] def lateProcess (fuel : ℕ) : List (SysLabel 2) × System 2 :=
  (System.init 2).lockstep .lateProcess (Thread.all 2) fuel

theorem run_lateProcess (fuel : ℕ) :
    (sysLts .lateProcess .call).Run (lateProcess fuel).1 (lateProcess fuel).2 := by
  unfold lateProcess
  exact System.run_lockstep (c := .lateProcess) _ fuel

end OsSim.Sched
