import OsSim.Lib.Lts
import OsSim.Mem.CpuTlb
import OsSim.Sched.Mlq

/-!
# CPUs and loader

`os.c` and `run` of `cpu.c`: the loops of `cpu_routine` and `ld_routine`, as
steps of threads that share the ready queues, the `struct pcb_t`s and `done`.
A step reads or writes one shared variable, or is a block of `queue_lock`; what a
thread does with its own variables and with the process that it holds goes with
the next such step. What an instruction does to memory is not part of the state,
the instruction itself is part of the step (`Act.run`).

The time that the loader reads is part of its step, so the threads may be run
with or without the timer.

Results:
* `cpuMove_of_cpuStep`, `ldMove_of_ldStep`: what a step of a thread can be, one
  case for each branch of the source.
-/

namespace OsSim.Sched

open Mem (Inst)

/-- What the loader reads of one process: the program in its file, its start time and its
priority. -/
structure LdProcess where
  code : List Inst
  startTime : ℕ
  prio : ℕ

/-- A configuration, as `read_config` reads it. -/
structure Config where
  timeSlot : ℤ
  numCpus : ℕ
  ldProcesses : List LdProcess

namespace Config

variable (c : Config)

def numProcesses : ℕ := c.ldProcesses.length

/-- The program of process `i`. -/
def code (i : ℕ) : List Inst := (c.ldProcesses[i]?.map LdProcess.code).getD []

def startTime (i : ℕ) : ℕ := (c.ldProcesses[i]?.map LdProcess.startTime).getD 0

/-- `proc->prio = ld_processes.prio[i]`, from `unsigned long` to `uint32_t`. -/
def prio (i : ℕ) : ℕ := (c.ldProcesses[i]?.map LdProcess.prio).getD 0 % 2 ^ 32

end Config

/-- `struct pcb_t`, as far as the scheduler uses it; `code->size` is the length of `code`. -/
structure Pcb where
  code : List Inst := []
  pc : ℕ := 0
  prio : ℕ := 0

/-- The branch of `cpu_routine` that calls `get_proc`. -/
inductive GetSite
  /-- `proc == NULL` -/
  | idle
  /-- `proc->pc == proc->code->size` -/
  | finished
  /-- `time_left == 0` -/
  | putBack
  deriving DecidableEq

/-- Where `cpu_routine` is, with the value of `proc` where it is used again. -/
inductive CpuLoc
  /-- At the beginning of an iteration. -/
  | top (proc : Option ℕ)
  /-- In `get_proc`. -/
  | getting (b : GetSite) (l : GetLoc)
  /-- At `if (proc == NULL && done)`. -/
  | recheck (proc : Option ℕ)
  /-- At `run(proc)`. -/
  | run (proc : ℕ)
  /-- Before `next_slot`. -/
  | slot (proc : Option ℕ)
  /-- In `next_slot`. -/
  | inSlot (proc : Option ℕ)
  /-- Out of the loop, before `detach_event`. -/
  | stopped
  | exited
  deriving DecidableEq

/-- `proc` and `time_left` of one CPU, and its position. -/
structure Cpu where
  loc : CpuLoc
  timeLeft : ℤ

/-- Where `ld_routine` calls `next_slot`. -/
inductive LdSite
  /-- In `while (current_time() < ld_processes.start_time[i])`. -/
  | early
  /-- After `add_proc`. -/
  | added
  deriving DecidableEq

/-- Where `ld_routine` is, with the value of `i`. -/
inductive LdLoc
  /-- At `while (i < num_processes)`. -/
  | loop (i : ℕ)
  /-- At `while (current_time() < ld_processes.start_time[i])`. -/
  | test (i : ℕ)
  /-- Before `add_proc`. -/
  | add (i : ℕ)
  /-- Before `next_slot`. -/
  | slot (b : LdSite) (i : ℕ)
  /-- In `next_slot`. -/
  | inSlot (b : LdSite) (i : ℕ)
  /-- Before `done = 1`. -/
  | finish
  /-- Before `detach_event`. -/
  | detach
  | exited
  deriving DecidableEq

/-- What the threads of `n` CPUs and of the loader share, and where they are. `freed` are the
processes that `free(proc)` has been called for. -/
structure State (n : ℕ) where
  mlq : Mlq
  pcb : ℕ → Pcb
  freed : ℕ → Bool
  cpu : Fin n → Cpu
  ld : LdLoc
  done : Bool

namespace State

variable {n : ℕ}

/-- All threads have just been created. -/
def init (n : ℕ) : State n where
  mlq := .init
  pcb := fun _ => {}
  freed := fun _ => false
  cpu := fun _ => ⟨.top none, 0⟩
  ld := .loop 0
  done := false

def setCpu (s : State n) (k : Fin n) (loc : CpuLoc) (timeLeft : ℤ) : State n :=
  { s with cpu := Function.update s.cpu k ⟨loc, timeLeft⟩ }

/-- `run`: the instruction that is executed, if there is one, and the process afterwards. -/
def runPcb (p : Pcb) : Option Inst × Pcb :=
  match p.code[p.pc]? with
  | none => (none, p)
  | some ins => (some ins, { p with pc := p.pc + 1 })

end State

/-- What a CPU does in one step. -/
inductive Act
  /-- Reads of shared variables and moves that the others do not see. -/
  | step
  /-- `free(proc)`, the process has finished. -/
  | free (proc : ℕ)
  /-- `put_proc(proc)`. -/
  | put (proc : ℕ)
  /-- `get_proc` returns. -/
  | get (proc : Option ℕ)
  /-- `run(proc)` executes an instruction, or finds none. -/
  | run (proc : ℕ) (ins : Option Inst)
  /-- A call of `next_slot`, and its return. -/
  | nextSlot
  | ret
  /-- `break`. -/
  | stop
  | detach
  deriving DecidableEq

/-- What the loader does in one step. -/
inductive LdAct
  | step
  | add (proc : ℕ)
  | nextSlot
  | ret
  /-- `done = 1`. -/
  | finish
  | detach
  deriving DecidableEq

namespace State

variable {n : ℕ}

/-- One step of CPU `k`; `none` if it cannot go on now. -/
def cpuStep (c : Config) (g : Grain) (s : State n) (k : Fin n) : Option (Act × State n) :=
  let t := (s.cpu k).timeLeft
  match (s.cpu k).loc with
  | .top none => some (.step, s.setCpu k (.getting .idle .start) t)
  | .top (some p) =>
    if (s.pcb p).pc = (s.pcb p).code.length then
      some (.free p, { s with freed := Function.update s.freed p true }.setCpu k
        (.getting .finished .start) t)
    else if t = 0 then
      match putMlqProc s.mlq p (s.pcb p).prio with
      | .error _ => none
      | .ok mlq => some (.put p, { s with mlq := mlq }.setCpu k (.getting .putBack .start) t)
    else some (.step, s.setCpu k (.recheck (some p)) t)
  | .getting b l =>
    match g.get s.mlq l with
    | none => none
    | some (mlq, .inl l') => some (.step, { s with mlq := mlq }.setCpu k (.getting b l') t)
    | some (mlq, .inr proc) =>
      let s' := { s with mlq := mlq }
      match b, proc with
      | .idle, none => some (.get none, s'.setCpu k (.slot none) t)
      | .idle, some p => some (.get (some p), s'.setCpu k (.recheck (some p)) t)
      | .finished, o => some (.get o, s'.setCpu k (.recheck o) 0)
      | .putBack, o => some (.get o, s'.setCpu k (.recheck o) t)
  | .recheck none =>
    if s.done then some (.stop, s.setCpu k .stopped t)
    else some (.step, s.setCpu k (.slot none) t)
  | .recheck (some p) => some (.step, s.setCpu k (.run p) (if t = 0 then c.timeSlot else t))
  | .run p =>
    some (.run p (runPcb (s.pcb p)).1,
      { s with pcb := Function.update s.pcb p (runPcb (s.pcb p)).2 }.setCpu k (.slot (some p))
        (t - 1))
  | .slot proc => some (.nextSlot, s.setCpu k (.inSlot proc) t)
  | .inSlot proc => some (.ret, s.setCpu k (.top proc) t)
  | .stopped => some (.detach, s.setCpu k .exited t)
  | .exited => none

/-- One step of the loader, which reads the time `time` if it calls `current_time`. -/
def ldStep (c : Config) (time : ℕ) (s : State n) : Option (LdAct × State n) :=
  match s.ld with
  | .loop i =>
    if i < c.numProcesses then
      some (.step, { s with
        pcb := Function.update s.pcb i { code := c.code i, pc := 0, prio := c.prio i }
        ld := .test i })
    else some (.step, { s with ld := .finish })
  | .test i =>
    if time < c.startTime i then some (.step, { s with ld := .slot .early i })
    else some (.step, { s with ld := .add i })
  | .add i =>
    match addMlqProc s.mlq i (s.pcb i).prio with
    | .error _ => none
    | .ok mlq => some (.add i, { s with mlq := mlq, ld := .slot .added (i + 1) })
  | .slot b i => some (.nextSlot, { s with ld := .inSlot b i })
  | .inSlot .early i => some (.ret, { s with ld := .test i })
  | .inSlot .added i => some (.ret, { s with ld := .loop i })
  | .finish => some (.finish, { s with done := true, ld := .detach })
  | .detach => some (.detach, { s with ld := .exited })
  | .exited => none

end State

/-- A step of a thread; the loader's also says what time it is. -/
inductive Label (n : ℕ)
  | cpu (k : Fin n) (a : Act)
  | ld (time : ℕ) (a : LdAct)
  deriving DecidableEq

namespace State

variable {n : ℕ}

/-- The state after a step, `none` where it is not possible. -/
def exec (c : Config) (g : Grain) (s : State n) : Label n → Option (State n)
  | .cpu k a =>
    match s.cpuStep c g k with
    | none => none
    | some (a', s') => if a' = a then some s' else none
  | .ld time a =>
    match s.ldStep c time with
    | none => none
    | some (a', s') => if a' = a then some s' else none

end State

/-- The threads of a configuration, interleaved in any way. -/
def osLts (c : Config) (g : Grain) : Lts (State c.numCpus) (Label c.numCpus) :=
  .ofFn (.init c.numCpus) (State.exec c g)

/-! ## What a step can be -/

section

variable {n : ℕ} (c : Config) (g : Grain) (s : State n)

/-- `proc` after a call of `get_proc` that returned `o`. -/
def GetSite.next (b : GetSite) (o : Option ℕ) : CpuLoc :=
  if b = .idle ∧ o = none then .slot none else .recheck o

/-- The branches of `cpu_routine`. -/
inductive CpuMove (k : Fin n) : Act → State n → Prop
  | idle : (s.cpu k).loc = .top none →
      CpuMove k .step (s.setCpu k (.getting .idle .start) (s.cpu k).timeLeft)
  | free (p : ℕ) : (s.cpu k).loc = .top (some p) → (s.pcb p).pc = (s.pcb p).code.length →
      CpuMove k (.free p) ({ s with freed := Function.update s.freed p true }.setCpu k
        (.getting .finished .start) (s.cpu k).timeLeft)
  | put (p : ℕ) (mlq : Mlq) : (s.cpu k).loc = .top (some p) →
      (s.pcb p).pc ≠ (s.pcb p).code.length → (s.cpu k).timeLeft = 0 →
      putMlqProc s.mlq p (s.pcb p).prio = .ok mlq →
      CpuMove k (.put p)
        ({ s with mlq := mlq }.setCpu k (.getting .putBack .start) (s.cpu k).timeLeft)
  | keep (p : ℕ) : (s.cpu k).loc = .top (some p) → (s.pcb p).pc ≠ (s.pcb p).code.length →
      (s.cpu k).timeLeft ≠ 0 →
      CpuMove k .step (s.setCpu k (.recheck (some p)) (s.cpu k).timeLeft)
  | scan (b : GetSite) (l l' : GetLoc) (mlq : Mlq) : (s.cpu k).loc = .getting b l →
      g.get s.mlq l = some (mlq, .inl l') →
      CpuMove k .step ({ s with mlq := mlq }.setCpu k (.getting b l') (s.cpu k).timeLeft)
  | get (b : GetSite) (l : GetLoc) (o : Option ℕ) (mlq : Mlq) : (s.cpu k).loc = .getting b l →
      g.get s.mlq l = some (mlq, .inr o) →
      CpuMove k (.get o) ({ s with mlq := mlq }.setCpu k (b.next o)
        (if b = GetSite.finished then 0 else (s.cpu k).timeLeft))
  | stop : (s.cpu k).loc = .recheck none → s.done = true →
      CpuMove k .stop (s.setCpu k .stopped (s.cpu k).timeLeft)
  | skip : (s.cpu k).loc = .recheck none → s.done = false →
      CpuMove k .step (s.setCpu k (.slot none) (s.cpu k).timeLeft)
  | dispatch (p : ℕ) : (s.cpu k).loc = .recheck (some p) →
      CpuMove k .step (s.setCpu k (.run p)
        (if (s.cpu k).timeLeft = 0 then c.timeSlot else (s.cpu k).timeLeft))
  | run (p : ℕ) : (s.cpu k).loc = .run p →
      CpuMove k (.run p (State.runPcb (s.pcb p)).1)
        ({ s with pcb := Function.update s.pcb p (State.runPcb (s.pcb p)).2 }.setCpu k
          (.slot (some p)) ((s.cpu k).timeLeft - 1))
  | nextSlot (o : Option ℕ) : (s.cpu k).loc = .slot o →
      CpuMove k .nextSlot (s.setCpu k (.inSlot o) (s.cpu k).timeLeft)
  | ret (o : Option ℕ) : (s.cpu k).loc = .inSlot o →
      CpuMove k .ret (s.setCpu k (.top o) (s.cpu k).timeLeft)
  | detach : (s.cpu k).loc = .stopped →
      CpuMove k .detach (s.setCpu k .exited (s.cpu k).timeLeft)

/-- The branches of `ld_routine`. -/
inductive LdMove (time : ℕ) : LdAct → State n → Prop
  | load (i : ℕ) : s.ld = .loop i → i < c.numProcesses →
      LdMove time .step { s with
        pcb := Function.update s.pcb i { code := c.code i, pc := 0, prio := c.prio i }
        ld := .test i }
  | leave (i : ℕ) : s.ld = .loop i → c.numProcesses ≤ i → LdMove time .step { s with ld := .finish }
  | early (i : ℕ) : s.ld = .test i → time < c.startTime i →
      LdMove time .step { s with ld := .slot .early i }
  | ready (i : ℕ) : s.ld = .test i → c.startTime i ≤ time → LdMove time .step { s with ld := .add i }
  | add (i : ℕ) (mlq : Mlq) : s.ld = .add i → addMlqProc s.mlq i (s.pcb i).prio = .ok mlq →
      LdMove time (.add i) { s with mlq := mlq, ld := .slot .added (i + 1) }
  | nextSlot (b : LdSite) (i : ℕ) : s.ld = .slot b i →
      LdMove time .nextSlot { s with ld := .inSlot b i }
  | retEarly (i : ℕ) : s.ld = .inSlot .early i → LdMove time .ret { s with ld := .test i }
  | retAdded (i : ℕ) : s.ld = .inSlot .added i → LdMove time .ret { s with ld := .loop i }
  | finish : s.ld = .finish → LdMove time .finish { s with done := true, ld := .detach }
  | detach : s.ld = .detach → LdMove time .detach { s with ld := .exited }

variable {c g s}

theorem cpuMove_of_cpuStep {s' : State n} {k : Fin n} {a : Act}
    (h : s.cpuStep c g k = some (a, s')) : CpuMove c g s k a s' := by
  simp only [State.cpuStep] at h
  split at h
  · cases h
    exact .idle (by assumption)
  · rename_i p hl
    split at h
    · rename_i hpc
      cases h
      exact .free p hl hpc
    · rename_i hpc
      split at h
      · rename_i ht
        split at h
        · cases h
        · rename_i mlq hput
          cases h
          exact .put p mlq hl hpc ht hput
      · rename_i ht
        cases h
        exact .keep p hl hpc ht
  · rename_i b l hl
    split at h
    · cases h
    · rename_i mlq l' hget
      cases h
      exact .scan b l l' mlq hl hget
    · rename_i mlq o hget
      have hmove := CpuMove.get (c := c) b l o mlq hl hget
      split at h
      all_goals
        cases h
        exact hmove
  · rename_i hl
    split at h
    · rename_i hdone
      cases h
      exact .stop hl hdone
    · rename_i hdone
      cases h
      exact .skip hl (by simpa using hdone)
  · cases h
    exact .dispatch _ (by assumption)
  · cases h
    exact .run _ (by assumption)
  · cases h
    exact .nextSlot _ (by assumption)
  · cases h
    exact .ret _ (by assumption)
  · cases h
    exact .detach (by assumption)
  · cases h

theorem ldMove_of_ldStep {s' : State n} {time : ℕ} {a : LdAct}
    (h : s.ldStep c time = some (a, s')) : LdMove c s time a s' := by
  simp only [State.ldStep] at h
  split at h
  · rename_i i hl
    split at h
    · cases h
      exact .load i hl (by assumption)
    · cases h
      exact .leave i hl (by omega)
  · rename_i i hl
    split at h
    · cases h
      exact .early i hl (by assumption)
    · cases h
      exact .ready i hl (by omega)
  · rename_i i hl
    split at h
    · cases h
    · rename_i mlq hadd
      cases h
      exact .add i mlq hl hadd
  · cases h
    exact .nextSlot _ _ (by assumption)
  · cases h
    exact .retEarly _ (by assumption)
  · cases h
    exact .retAdded _ (by assumption)
  · cases h
    exact .finish (by assumption)
  · cases h
    exact .detach (by assumption)
  · cases h

theorem exec_cpu {s' : State n} {k : Fin n} {a : Act} :
    s.exec c g (.cpu k a) = some s' ↔ s.cpuStep c g k = some (a, s') := by
  simp only [State.exec]
  cases hst : s.cpuStep c g k with
  | none => simp
  | some r => simp [Prod.ext_iff]

theorem exec_ld {s' : State n} {time : ℕ} {a : LdAct} :
    s.exec c g (.ld time a) = some s' ↔ s.ldStep c time = some (a, s') := by
  simp only [State.exec]
  cases hst : s.ldStep c time with
  | none => simp
  | some r => simp [Prod.ext_iff]

/-- A step of the system is a step of one CPU or of the loader. -/
theorem moves_of_exec {s' : State n} {e : Label n} (h : s.exec c g e = some s') :
    (∃ k a, e = .cpu k a ∧ CpuMove c g s k a s') ∨
      ∃ time a, e = .ld time a ∧ LdMove c s time a s' := by
  cases e with
  | cpu k a => exact .inl ⟨k, a, rfl, cpuMove_of_cpuStep (exec_cpu.mp h)⟩
  | ld time a => exact .inr ⟨time, a, rfl, ldMove_of_ldStep (exec_ld.mp h)⟩

end

end OsSim.Sched
