import OsSim.Sched.Dispatch
import OsSim.Timer.SlotBarrier

/-!
# The simulator

The threads of `os.c` together with the timer: `main` attaches one device for each
CPU and then one for the loader, and a thread that calls `next_slot`, returns from
it or calls `detach_event` takes the step of its device.

Results:
* `osRun_of_run`, `osPath_of_path`, `timerRun_of_run`: runs of the simulator are runs
  of the threads and runs of the timer.
* `sync_of_run`: a thread is in `next_slot` when its device is.
* `stopInv_of_run`: a CPU stops only after `done = 1`.
-/

namespace OsSim.Sched

/-- The threads and the timer. -/
structure System (n : ℕ) where
  os : State n
  timer : Timer.State

/-- The call of `timer.c` that a step of a CPU is, on its device `d`. -/
def Act.timer (d : ℕ) : Act → Option Timer.Event
  | .nextSlot => some (.nextSlot d)
  | .ret => some (.ret d)
  | .detach => some (.detach d)
  | _ => none

def LdAct.timer (d : ℕ) : LdAct → Option Timer.Event
  | .nextSlot => some (.nextSlot d)
  | .ret => some (.ret d)
  | .detach => some (.detach d)
  | _ => none

/-- The loader's device is the last one that `main` attaches. -/
def Label.timer {n : ℕ} : Label n → Option Timer.Event
  | .cpu k a => a.timer k
  | .ld _ a => a.timer n

/-- Steps that are not calls of a thread of `os.c`. -/
def ownStep : Timer.Event → Bool
  | .nextSlot _ | .ret _ | .detach _ => false
  | _ => true

inductive SysLabel (n : ℕ)
  | thread (e : Label n)
  | timer (e : Timer.Event)
  deriving DecidableEq

namespace System

variable {n : ℕ}

/-- After `start_timer` and the creation of all threads. -/
def init (n : ℕ) : System n := ⟨.init n, .started (n + 1)⟩

/-- The loader reads the time of the timer. -/
def timeOk (s : System n) : Label n → Bool
  | .cpu _ _ => true
  | .ld time _ => time == s.timer.time

/-- The state after a step, `none` where it is not possible. -/
def exec (c : Config) (g : Grain) (s : System n) : SysLabel n → Option (System n)
  | .thread e =>
    if s.timeOk e then
      match s.os.exec c g e, e.timer with
      | none, _ => none
      | some os, none => some ⟨os, s.timer⟩
      | some os, some te => (s.timer.exec te).map fun t => ⟨os, t⟩
    else none
  | .timer te => if ownStep te then (s.timer.exec te).map fun t => ⟨s.os, t⟩ else none

end System

/-- The simulator on a configuration. -/
def sysLts (c : Config) (g : Grain) : Lts (System c.numCpus) (SysLabel c.numCpus) :=
  .ofFn (.init c.numCpus) (System.exec c g)

variable {n : ℕ} {c : Config} {g : Grain}

/-- A step of the simulator is a step of a thread, with the timer's part of it, or one of the timer
alone. -/
theorem System.exec_cases {s s' : System n} {l : SysLabel n} (h : s.exec c g l = some s') :
    (∃ e, l = .thread e ∧ s.timeOk e = true ∧ s.os.exec c g e = some s'.os ∧
      (e.timer = none ∧ s'.timer = s.timer ∨
        ∃ te, e.timer = some te ∧ s.timer.exec te = some s'.timer)) ∨
      ∃ te, l = .timer te ∧ ownStep te = true ∧ s'.os = s.os ∧ s.timer.exec te = some s'.timer := by
  cases l with
  | thread e =>
    left
    simp only [System.exec] at h
    split at h
    · rename_i htime
      refine ⟨e, rfl, htime, ?_⟩
      split at h
      · cases h
      · rename_i os hos ht
        cases h
        exact ⟨hos, .inl ⟨ht, rfl⟩⟩
      · rename_i os te hos ht
        obtain ⟨t, hexec, heq⟩ := Option.map_eq_some_iff.mp h
        cases heq
        exact ⟨hos, .inr ⟨te, ht, hexec⟩⟩
    · cases h
  | timer te =>
    right
    simp only [System.exec] at h
    split at h
    · rename_i hown
      obtain ⟨t, hexec, heq⟩ := Option.map_eq_some_iff.mp h
      cases heq
      exact ⟨te, rfl, hown, rfl, hexec⟩
    · cases h

/-! ## The two components -/

def SysLabel.os : SysLabel n → Option (Label n)
  | .thread e => some e
  | .timer _ => none

def SysLabel.toTimer : SysLabel n → Option Timer.Event
  | .thread e => e.timer
  | .timer te => some te

def osProjection (c : Config) (g : Grain) : Lts.Projection (sysLts c g) (osLts c g) where
  state := System.os
  label := SysLabel.os
  init s hs := by
    rw [show s = System.init c.numCpus from hs]
    rfl
  step s l s' hst := by
    obtain ⟨e, rfl, _, hos, _⟩ | ⟨te, rfl, _, hos, _⟩ := System.exec_cases hst
    · exact .inl ⟨e, rfl, hos⟩
    · exact .inr ⟨rfl, hos⟩

def timerProjection (c : Config) (g : Grain) :
    Lts.Projection (sysLts c g) (Timer.State.lts (c.numCpus + 1)) where
  state := System.timer
  label := SysLabel.toTimer
  init s hs := by
    rw [show s = System.init c.numCpus from hs]
    rfl
  step s l s' hst := by
    obtain ⟨e, rfl, _, _, ht⟩ | ⟨te, rfl, _, _, ht⟩ := System.exec_cases hst
    · rcases ht with ⟨ht, heq⟩ | ⟨te, ht, hexec⟩
      · exact .inr ⟨ht, heq⟩
      · exact .inl ⟨te, ht, hexec⟩
    · exact .inl ⟨te, rfl, ht⟩

/-- The steps of the threads in a run of the simulator. -/
def osTrace (tr : List (SysLabel n)) : List (Label n) := tr.filterMap SysLabel.os

section

variable {tr : List (SysLabel c.numCpus)} {s : System c.numCpus}

theorem osRun_of_run (h : (sysLts c g).Run tr s) : (osLts c g).Run (osTrace tr) s.os :=
  (osProjection c g).run h

theorem osPath_of_path {s' : System c.numCpus} (h : (sysLts c g).Path s tr s') :
    (osLts c g).Path s.os (osTrace tr) s'.os :=
  (Lts.Path.project (I := fun _ => True) System.os SysLabel.os
    (fun s l s' _ hst => ⟨trivial, (osProjection c g).step s l s' hst⟩) h trivial).2

theorem timerRun_of_run (h : (sysLts c g).Run tr s) :
    (Timer.State.lts (c.numCpus + 1)).Run (tr.filterMap SysLabel.toTimer) s.timer :=
  (timerProjection c g).run h

end

/-! ## Threads and devices -/

/-- Where the device of a CPU is; `testing` stands for any place in `next_slot`. -/
def CpuLoc.device : CpuLoc → Timer.DevLoc
  | .inSlot _ => .testing
  | .exited => .detached
  | _ => .working

def LdLoc.device : LdLoc → Timer.DevLoc
  | .inSlot _ _ => .testing
  | .exited => .detached
  | _ => .working

/-- Threads and devices agree. -/
structure Sync (s : System n) : Prop where
  cpu : ∀ k : Fin n, (s.timer.dev k).signal = (s.os.cpu k).loc.device
  ld : (s.timer.dev n).signal = s.os.ld.device

theorem signal_eq_working {l : Timer.DevLoc} : l.signal = .working ↔ l = .working := by
  cases l
  all_goals simp [Timer.DevLoc.signal]

/-- A step of the timer alone moves no device into or out of `next_slot`. -/
theorem signal_ownStep {t t' : Timer.State} {te : Timer.Event} (hown : ownStep te = true)
    (h : t.exec te = some t') (d : ℕ) : (t'.dev d).signal = (t.dev d).signal := by
  cases te with
  | nextSlot d => cases hown
  | ret d => cases hown
  | detach d => cases hown
  | sleep d' | wake d' =>
    obtain ⟨ht, rfl⟩ := by simpa [Timer.State.exec] using h
    by_cases hd : d = d'
    · subst hd
      simp [Timer.State.move, Timer.DevLoc.signal, ht]
    · simp [Timer.State.move, Function.update_of_ne hd]
  | tick =>
    simp only [Timer.State.exec, Timer.State.tick] at h
    split at h
    all_goals cases h
    rfl
  | wakeTimer =>
    simp only [Timer.State.exec, Timer.State.wakeTimer] at h
    split at h
    all_goals cases h
    rfl
  | stopTimer =>
    obtain ⟨_, rfl⟩ := by simpa [Timer.State.exec] using h
    rfl
  | routine =>
    simp only [Timer.State.exec, Timer.State.timerRoutine] at h
    repeat' split at h
    all_goals cases h
    all_goals try rfl
    rename_i d' _ _ _ _
    by_cases hd : d = d'
    · subst hd
      simp only [Function.update_self]
      cases t.dev d
      all_goals rfl
    · simp only [Function.update_of_ne hd]

/-- Where a device is after a call of its thread. -/
def afterCall : Timer.Event → Timer.DevLoc
  | .nextSlot _ => .testing
  | .detach _ => .detached
  | _ => .working

/-- A call of a thread moves its own device. -/
theorem dev_call {t t' : Timer.State} {te : Timer.Event} {d : ℕ}
    (hte : te = .nextSlot d ∨ te = .ret d ∨ te = .detach d) (h : t.exec te = some t') :
    t'.dev = Function.update t.dev d (afterCall te) := by
  rcases hte with rfl | rfl | rfl
  · obtain ⟨_, rfl⟩ := by simpa [Timer.State.exec] using h
    rfl
  · obtain ⟨_, rfl⟩ := by simpa [Timer.State.exec] using h
    rfl
  · obtain ⟨_, rfl⟩ := by simpa [Timer.State.exec] using h
    rfl

theorem Act.timer_eq {a : Act} {d : ℕ} {te : Timer.Event} (h : a.timer d = some te) :
    te = .nextSlot d ∨ te = .ret d ∨ te = .detach d := by
  cases a
  all_goals simp_all [Act.timer, eq_comm]

theorem LdAct.timer_eq {a : LdAct} {d : ℕ} {te : Timer.Event} (h : a.timer d = some te) :
    te = .nextSlot d ∨ te = .ret d ∨ te = .detach d := by
  cases a
  all_goals simp_all [LdAct.timer, eq_comm]

/-- A CPU moves itself only, and its device as its step says. -/
theorem CpuMove.device {s s' : State n} {k : Fin n} {a : Act} (h : CpuMove c g s k a s') :
    s'.ld = s.ld ∧ (∀ k', k' ≠ k → s'.cpu k' = s.cpu k') ∧
      (s'.cpu k).loc.device = ((a.timer k).map afterCall).getD (s.cpu k).loc.device := by
  cases h with
  | get b l o mlq hl hget =>
    refine ⟨rfl, fun k' hk => Function.update_of_ne hk _ _, ?_⟩
    simp only [State.setCpu, Function.update_self, hl, GetSite.next]
    split
    all_goals rfl
  | _ =>
    refine ⟨rfl, fun k' hk => Function.update_of_ne hk _ _, ?_⟩
    simp only [State.setCpu, Function.update_self]
    try simp only [*]
    rfl

theorem LdMove.device {s s' : State n} {time : ℕ} {a : LdAct} (h : LdMove c s time a s') (d : ℕ) :
    s'.cpu = s.cpu ∧ s'.ld.device = ((a.timer d).map afterCall).getD s.ld.device := by
  cases h with
  | load i hl hi | leave i hl hi | early i hl hi | ready i hl hi | add i mlq hl hadd
  | nextSlot b i hl | retEarly i hl | retAdded i hl | finish hl | detach hl =>
    refine ⟨rfl, ?_⟩
    rw [hl]
    rfl

theorem Sync.step {s s' : System n} {l : SysLabel n} (h : Sync s) (hst : s.exec c g l = some s') :
    Sync s' := by
  obtain ⟨e, rfl, _, hos, ht⟩ | ⟨te, rfl, hown, hos, ht⟩ := System.exec_cases hst
  · obtain ⟨k, a, rfl, hmove⟩ | ⟨time, a, rfl, hmove⟩ := moves_of_exec hos
    · obtain ⟨hld, hother, hself⟩ := hmove.device
      rcases ht with ⟨hnone, heq⟩ | ⟨te, hte, hexec⟩
      · simp only [Label.timer] at hnone
        rw [hnone] at hself
        refine ⟨?_, ?_⟩
        · intro k'
          rw [heq]
          by_cases hk : k' = k
          · subst hk
            rw [hself]
            exact h.cpu k'
          · rw [hother k' hk]
            exact h.cpu k'
        · rw [heq, hld]
          exact h.ld
      · simp only [Label.timer] at hte
        have hdev := dev_call (Act.timer_eq hte) hexec
        rw [hte] at hself
        refine ⟨?_, ?_⟩
        · intro k'
          by_cases hk : k' = k
          · subst hk
            rw [hdev, Function.update_self, hself]
            cases te
            all_goals rfl
          · have hne : (k' : ℕ) ≠ k := fun heq => hk (Fin.ext heq)
            rw [hdev, Function.update_of_ne hne, hother k' hk]
            exact h.cpu k'
        · have hne : n ≠ (k : ℕ) := by omega
          rw [hdev, Function.update_of_ne hne, hld]
          exact h.ld
    · obtain ⟨hcpu, hself⟩ := hmove.device n
      rcases ht with ⟨hnone, heq⟩ | ⟨te, hte, hexec⟩
      · simp only [Label.timer] at hnone
        rw [hnone] at hself
        refine ⟨?_, ?_⟩
        · intro k'
          rw [heq, hcpu]
          exact h.cpu k'
        · rw [heq, hself]
          exact h.ld
      · simp only [Label.timer] at hte
        have hdev := dev_call (LdAct.timer_eq hte) hexec
        rw [hte] at hself
        refine ⟨?_, ?_⟩
        · intro k'
          have hne : (k' : ℕ) ≠ n := by omega
          rw [hdev, Function.update_of_ne hne, hcpu]
          exact h.cpu k'
        · rw [hdev, Function.update_self, hself]
          cases te
          all_goals rfl
  · refine ⟨?_, ?_⟩
    · intro k
      rw [signal_ownStep hown ht, hos]
      exact h.cpu k
    · rw [signal_ownStep hown ht, hos]
      exact h.ld

theorem sync_init (n : ℕ) : Sync (System.init n) := by
  refine ⟨?_, ?_⟩
  · intro k
    simp only [System.init, Timer.State.started, Timer.State.attached_eq]
    rfl
  · simp only [System.init, Timer.State.started, Timer.State.attached_eq]
    rfl

/-- In every run a thread is in `next_slot` when its device is. -/
theorem sync_of_run {tr : List (SysLabel c.numCpus)} {s : System c.numCpus}
    (h : (sysLts c g).Run tr s) : Sync s := by
  refine h.invariant ?_ ?_
  · rintro s rfl
    exact sync_init _
  · intro s l s' hs hst
    exact hs.step hst

/-! ## The end of the loops -/

/-- The CPU has left its loop. -/
def CpuLoc.Stopped (l : CpuLoc) : Prop := l = .stopped ∨ l = .exited

instance (l : CpuLoc) : Decidable l.Stopped := inferInstanceAs (Decidable (_ ∨ _))

/-- The loader has set `done`. -/
def LdLoc.Done (l : LdLoc) : Prop := l = .detach ∨ l = .exited

/-- A CPU stops only after `done = 1`, which is the last thing that the loader does; and only the
queues of `mlq_ready_queue` are ever used. -/
structure StopInv (s : State n) : Prop where
  stopped : ∀ k, (s.cpu k).loc.Stopped → s.done = true
  done : s.done = true ↔ s.ld.Done
  bound : ∀ i, maxPrio ≤ i → s.mlq.ready i = []

theorem ready_of_put {m m' : Mlq} {p prio : ℕ} (h : enqueueMlq m p prio = .ok m')
    (hb : ∀ i, maxPrio ≤ i → m.ready i = []) (i : ℕ) (hi : maxPrio ≤ i) : m'.ready i = [] := by
  obtain ⟨hlt, hready⟩ := enqueueMlq_ok h
  rw [hready, Function.update_of_ne (by omega)]
  exact hb i hi

theorem ready_of_get {m m' : Mlq} {l : GetLoc} {r : GetLoc ⊕ Option ℕ}
    (h : g.get m l = some (m', r)) (hb : ∀ i, maxPrio ≤ i → m.ready i = []) (i : ℕ)
    (hi : maxPrio ≤ i) : m'.ready i = [] := by
  have hspec := Grain.get_spec h
  cases r with
  | inl l' => rw [show m'.ready = m.ready from hspec]; exact hb i hi
  | inr o =>
    cases o with
    | none => rw [show m'.ready = m.ready from hspec]; exact hb i hi
    | some p =>
      obtain ⟨j, rest, hj, hready⟩ := hspec
      have hne : i ≠ j := by
        rintro rfl
        rw [hb i hi] at hj
        cases hj
      rw [hready, Function.update_of_ne hne]
      exact hb i hi

/-- A CPU that does not stop. -/
theorem StopInv.setCpu {s : State n} (h : StopInv s) {m : Mlq}
    (hb : ∀ i, maxPrio ≤ i → m.ready i = []) {pcb : ℕ → Pcb} {freed : ℕ → Bool} (k : Fin n)
    {loc : CpuLoc} (t : ℤ) (hloc : loc.Stopped → s.done = true) :
    StopInv ({ s with mlq := m, pcb := pcb, freed := freed }.setCpu k loc t) where
  stopped k' hk' := by
    by_cases hk : k' = k
    · subst hk
      exact hloc (by simpa [State.setCpu] using hk')
    · exact h.stopped k' (by simpa [State.setCpu, Function.update_of_ne hk] using hk')
  done := h.done
  bound := hb

theorem StopInv.step {s s' : State n} (h : StopInv s) {e : Label n}
    (hst : s.exec c g e = some s') : StopInv s' := by
  obtain ⟨k, a, rfl, hmove⟩ | ⟨time, a, rfl, hmove⟩ := moves_of_exec hst
  · cases hmove with
    | put p mlq hl hpc ht hput =>
      exact h.setCpu (ready_of_put hput h.bound) k _ (by simp [CpuLoc.Stopped])
    | scan b l l' mlq hl hget =>
      exact h.setCpu (ready_of_get hget h.bound) k _ (by simp [CpuLoc.Stopped])
    | get b l o mlq hl hget =>
      refine h.setCpu (ready_of_get hget h.bound) k _ ?_
      unfold GetSite.next
      split
      all_goals simp [CpuLoc.Stopped]
    | stop hl hdone => exact h.setCpu h.bound k _ fun _ => hdone
    | detach hl => exact h.setCpu h.bound k _ fun _ => h.stopped k (.inl hl)
    | _ => exact h.setCpu h.bound k _ (by simp [CpuLoc.Stopped])
  · have hnd : ∀ l, s.ld = l → ¬l.Done → s.done = true → False := by
      rintro l rfl hl hdone
      exact hl (h.done.mp hdone)
    cases hmove with
    | add i mlq hl hadd =>
      refine ⟨h.stopped, ?_, ready_of_put hadd h.bound⟩
      have := hnd _ hl (by simp [LdLoc.Done])
      simpa [LdLoc.Done] using this
    | finish hl => exact ⟨fun _ _ => rfl, by simp [LdLoc.Done], h.bound⟩
    | detach hl =>
      refine ⟨h.stopped, ?_, h.bound⟩
      have : s.done = true := h.done.mpr (.inl hl)
      simpa [LdLoc.Done] using this
    | load i hl hi | leave i hl hi | early i hl hi | ready i hl hi | nextSlot b i hl
    | retEarly i hl | retAdded i hl =>
      refine ⟨h.stopped, ?_, h.bound⟩
      have := hnd _ hl (by simp [LdLoc.Done])
      simpa [LdLoc.Done] using this

theorem stopInv_of_run {tr : List (Label c.numCpus)} {s : State c.numCpus}
    (h : (osLts c g).Run tr s) : StopInv s := by
  refine h.invariant ?_ ?_
  · rintro s rfl
    refine ⟨?_, ?_, ?_⟩
    · simp [State.init, CpuLoc.Stopped]
    · simp [State.init, LdLoc.Done]
    · intro i _
      rfl
  · intro s e s' hs hst
    exact hs.step hst

end OsSim.Sched
