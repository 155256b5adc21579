import OsSim.Sched.Stranded
import Mathlib.Algebra.Order.BigOperators.Group.Finset

/-!
# Shutdown

Once `done` is set, the ready queues are empty and no CPU holds a process, a CPU
stops in its next iteration if it comes from a process: it is in the `get_proc`
that follows `free` or `put_proc`, or at the test of `done` behind it. A CPU whose
`proc` was `NULL` before gets `NULL` again, and then `continue` takes it past that
test in every iteration, so it never stops, and neither does the timer.

Results:
* `GetLoc.rank_step`: over empty queues every step brings a call of `get_proc`
  nearer to its return.
* `Quiescent.rank_step`, `Quiescent.idle_step`: a CPU that is not idle comes nearer
  to its end with each of its steps, and an idle one stays idle.
* `shutsDown_iff`: the threads and the timer come to their end exactly if no CPU is
  in the branch `proc == NULL`.
-/

namespace OsSim.Sched

/-! ## `get_mlq_proc` over empty queues -/

/-- How many more steps a scan that has seen a used up queue can take. -/
def flagRank (flag : Bool) : ℕ := if flag then 43000 else 0

/-- A bound for the steps that a call of `get_mlq_proc` takes over empty queues. -/
def GetLoc.rank : GetLoc → ℕ
  | .loop i flag => (maxPrio - i) * 300 + flagRank flag
  | .checkEmpty i j flag => (maxPrio - 1 - i) * 300 + (i - j) + 2 + flagRank flag
  | .checkSlot i j flag =>
    (maxPrio - 1 - i) * 300 + (i - j) + (maxPrio - j) * 300 + 3 + 2 * flagRank flag
  | .testEmpty i flag => (maxPrio - 1 - i) * 300 + 1 + flagRank flag
  | .testSlot i _ => (maxPrio - 1 - i) * 300 + 1 + 43000
  | .lockReset => 42500
  | .reset i => 42001 + (maxPrio - i)
  | .lockDequeue _ => 0

theorem GetLoc.rank_step {s s' : Mlq} {l l' : GetLoc} (hempty : ∀ i, s.ready i = [])
    (h : l.step s = some (s', .inl l')) : l'.rank < l.rank := by
  have hq : ∀ i, (s.mlqReadyQueue i).empty = true := fun i => (ready_eq_nil_iff s i).mp (hempty i)
  cases l with
  | testEmpty i flag =>
    simp only [GetLoc.step, hq, if_true] at h
    split at h
    · rename_i hlast
      cases h
      simp only [GetLoc.rank, hlast.1, flagRank, if_true]
      omega
    · cases h
      simp only [GetLoc.rank, maxPrio]
      omega
  | testSlot i flag =>
    simp only [GetLoc.step] at h
    repeat' split at h
    all_goals cases h
    all_goals simp only [GetLoc.rank, flagRank, maxPrio, if_true]
    all_goals omega
  | checkEmpty i j flag =>
    simp only [GetLoc.step, hq, if_true] at h
    split at h
    all_goals cases h
    all_goals simp only [GetLoc.rank]
    all_goals omega
  | lockDequeue i =>
    simp only [GetLoc.step] at h
    split at h
    all_goals cases h
  | loop i flag | checkSlot i j flag | lockReset | reset i =>
    simp only [GetLoc.step] at h
    split at h
    all_goals cases h
    all_goals simp only [GetLoc.rank, flagRank, maxPrio, Bool.false_eq_true, if_false] at *
    all_goals omega

/-- Over empty queues a call returns `NULL`. -/
theorem GetLoc.step_null {s s' : Mlq} {l : GetLoc} {o : Option ℕ} (hempty : ∀ i, s.ready i = [])
    (h : l.step s = some (s', .inr o)) : o = none := by
  have hspec := GetLoc.step_spec h
  cases o with
  | none => rfl
  | some p =>
    obtain ⟨i, rest, hi, _⟩ := hspec
    rw [hempty i] at hi
    cases hi

/-- Over empty queues the queues stay empty. -/
theorem GetLoc.step_ready {s s' : Mlq} {l : GetLoc} {r : GetLoc ⊕ Option ℕ}
    (hempty : ∀ i, s.ready i = []) (h : l.step s = some (s', r)) : s'.ready = s.ready := by
  have hspec := GetLoc.step_spec h
  cases r with
  | inl l' => exact hspec
  | inr o =>
    obtain rfl := GetLoc.step_null hempty h
    exact hspec

/-- The lock is held by a call that resets the slots. -/
theorem GetLoc.step_locked {s s' : Mlq} {l : GetLoc} {r : GetLoc ⊕ Option ℕ}
    (h : l.step s = some (s', r)) (hlock : s'.locked = true) :
    (∃ i, r = .inl (.reset i)) ∨ s.locked = true ∧ ∀ i, l ≠ .reset i := by
  cases l with
  | lockDequeue i =>
    simp only [GetLoc.step] at h
    split at h
    · cases h
    · rename_i hnl
      cases h
      exact absurd hlock hnl
  | lockReset =>
    simp only [GetLoc.step] at h
    split at h
    all_goals cases h
    exact .inl ⟨0, rfl⟩
  | reset i =>
    simp only [GetLoc.step] at h
    split at h
    all_goals cases h
    · exact .inl ⟨i + 1, rfl⟩
    · cases hlock
  | _ =>
    simp only [GetLoc.step] at h
    repeat' split at h
    all_goals cases h
    all_goals exact .inr ⟨hlock, by simp⟩

/-- A call waits for the lock only. -/
theorem GetLoc.step_isSome {s : Mlq} {l : GetLoc} (h : s.locked = false ∨ ∃ i, l = .reset i) :
    ∃ s' r, l.step s = some (s', r) := by
  rcases h with h | ⟨i, rfl⟩
  · cases l
    all_goals simp only [GetLoc.step, h]
    all_goals repeat' split
    all_goals first | exact ⟨_, _, rfl⟩ | contradiction
  · simp only [GetLoc.step]
    split
    all_goals exact ⟨_, _, rfl⟩

/-! ## States without work -/

variable {n : ℕ} {c : Config}

/-- The loader has set `done`, nothing waits, and no CPU holds a process. -/
structure Quiescent (s : State n) : Prop where
  done : s.done = true
  ready : ∀ i, s.mlq.ready i = []
  proc : ∀ k, (s.cpu k).loc.proc = none

/-- The CPU is in an iteration that it began with `proc == NULL`, before the test of `done`. -/
def CpuLoc.Idle : CpuLoc → Prop
  | .top o | .slot o | .inSlot o => o = none
  | .getting b _ => b = .idle
  | _ => False

/-- A bound for the steps of a CPU that has no process and is not idle. -/
def CpuLoc.rank : CpuLoc → ℕ
  | .getting _ l => l.rank + 4
  | .recheck _ => 3
  | .stopped => 1
  | _ => 0

section

variable {s s' : State n} {k : Fin n} {a : Act}

theorem Quiescent.cpuMove (h : Quiescent s) (hmove : CpuMove c .access s k a s') : Quiescent s' := by
  have hproc := h.proc
  have hother := hmove.device.2.1
  have hself : (s'.cpu k).loc.proc = none → ∀ k', (s'.cpu k').loc.proc = none := by
    intro hk k'
    by_cases hkk : k' = k
    · rwa [hkk]
    · rw [hother k' hkk]
      exact hproc k'
  have hk := hproc k
  cases hmove with
  | scan b l l' mlq hl hget =>
    refine ⟨h.done, ?_, hself (by simp [State.setCpu, CpuLoc.proc])⟩
    intro i
    exact (congrFun (GetLoc.step_ready h.ready hget) i).trans (h.ready i)
  | get b l o mlq hl hget =>
    obtain rfl := GetLoc.step_null h.ready hget
    refine ⟨h.done, ?_, hself (by simp [State.setCpu])⟩
    intro i
    exact (congrFun (GetLoc.step_ready h.ready hget) i).trans (h.ready i)
  | free p hl | put p mlq hl | keep p hl | dispatch p hl | run p hl =>
    rw [hl] at hk
    cases hk
  | nextSlot o hl | ret o hl =>
    rw [hl] at hk
    exact ⟨h.done, h.ready, hself (by simpa [State.setCpu, CpuLoc.proc] using hk)⟩
  | idle hl | stop hl hd | skip hl hd | detach hl =>
    exact ⟨h.done, h.ready, hself (by simp [State.setCpu, CpuLoc.proc])⟩

/-- An idle CPU stays idle. -/
theorem Quiescent.idle_step (h : Quiescent s) (hmove : CpuMove c .access s k a s')
    (hidle : (s.cpu k).loc.Idle) : (s'.cpu k).loc.Idle := by
  cases hmove with
  | get b l o mlq hl hget =>
    obtain rfl := GetLoc.step_null h.ready hget
    rw [hl] at hidle
    obtain rfl := show b = .idle from hidle
    simp [State.setCpu, CpuLoc.Idle, GetSite.next]
  | idle hl => simp [State.setCpu, CpuLoc.Idle]
  | scan b l l' mlq hl hget | nextSlot o hl | ret o hl =>
    rw [hl] at hidle
    simpa [State.setCpu, CpuLoc.Idle] using hidle
  | free p hl | put p mlq hl | keep p hl =>
    rw [hl] at hidle
    cases hidle
  | dispatch p hl | run p hl | stop hl hd | skip hl hd | detach hl =>
    rw [hl] at hidle
    exact absurd hidle not_false

/-- A CPU that is not idle comes nearer to its end with each of its steps, and does not call
`next_slot`. -/
theorem Quiescent.rank_step (h : Quiescent s) (hmove : CpuMove c .access s k a s')
    (hidle : ¬(s.cpu k).loc.Idle) :
    ¬(s'.cpu k).loc.Idle ∧ (s'.cpu k).loc.rank < (s.cpu k).loc.rank ∧ a ≠ .nextSlot := by
  have hproc := h.proc k
  cases hmove with
  | scan b l l' mlq hl hget =>
    rw [hl] at hidle
    have hlt := GetLoc.rank_step h.ready hget
    refine ⟨?_, ?_, by simp⟩
    · simpa [State.setCpu, CpuLoc.Idle] using hidle
    · simpa [State.setCpu, CpuLoc.rank, hl] using hlt
  | get b l o mlq hl hget =>
    obtain rfl := GetLoc.step_null h.ready hget
    rw [hl] at hidle
    refine ⟨?_, ?_, by simp⟩
    · simp [State.setCpu, GetSite.next, show b ≠ .idle from hidle, CpuLoc.Idle]
    · simp [State.setCpu, GetSite.next, show b ≠ .idle from hidle, CpuLoc.rank, hl]
  | stop hl hd | detach hl =>
    exact ⟨by simp [State.setCpu, CpuLoc.Idle], by simp [State.setCpu, CpuLoc.rank, hl], by simp⟩
  | skip hl hd =>
    rw [h.done] at hd
    cases hd
  | idle hl =>
    rw [hl] at hidle
    exact absurd rfl hidle
  | free p hl | put p mlq hl | keep p hl | dispatch p hl | run p hl =>
    rw [hl] at hproc
    cases hproc
  | nextSlot o hl | ret o hl =>
    rw [hl] at hproc hidle
    exact absurd hproc hidle

end

/-! ## The lock -/

/-- Only a CPU that resets the slots keeps the lock from one step to the next. -/
def LockInv (s : State n) : Prop :=
  s.mlq.locked = true → ∃ k b i, (s.cpu k).loc = .getting b (.reset i)

theorem locked_of_put {m m' : Mlq} {p prio : ℕ} (h : enqueueMlq m p prio = .ok m') :
    m'.locked = false := by
  unfold enqueueMlq at h
  split at h
  · cases h
  · rename_i hnl
    split at h
    · cases h
    · split at h
      · cases h
      · cases h
        simpa [Mlq.setQueue] using hnl

theorem LockInv.cpuMove {s s' : State n} {k : Fin n} {a : Act} (h : LockInv s)
    (hmove : CpuMove c .access s k a s') : LockInv s' := by
  have hother := hmove.device.2.1
  -- another CPU that holds the lock keeps it
  have hkeep : s.mlq.locked = true → (∀ b i, (s.cpu k).loc ≠ .getting b (.reset i)) →
      ∃ k b i, (s'.cpu k).loc = .getting b (.reset i) := by
    intro hlock hk
    obtain ⟨j, b, i, hj⟩ := h hlock
    have hjk : j ≠ k := by
      rintro rfl
      exact hk b i hj
    exact ⟨j, b, i, by rw [hother j hjk]; exact hj⟩
  intro hlock
  cases hmove with
  | scan b l l' mlq hl hget =>
    rcases GetLoc.step_locked hget hlock with ⟨i, hi⟩ | ⟨hold, hne⟩
    · cases hi
      exact ⟨k, b, i, by simp [State.setCpu]⟩
    · refine hkeep hold ?_
      rintro b' i hi
      rw [hl] at hi
      cases hi
      exact hne i rfl
  | get b l o mlq hl hget =>
    rcases GetLoc.step_locked hget hlock with ⟨i, hi⟩ | ⟨hold, hne⟩
    · cases hi
    · refine hkeep hold ?_
      rintro b' i hi
      rw [hl] at hi
      cases hi
      exact hne i rfl
  | put p mlq hl hpc ht hput =>
    exact absurd ((locked_of_put hput).symm.trans hlock) (by simp)
  | idle hl | free p hl | keep p hl | stop hl | skip hl | dispatch p hl | run p hl | nextSlot o hl
  | ret o hl | detach hl => exact hkeep hlock (by simp [hl])

theorem lockInv_of_run {tr : List (Label c.numCpus)} {s : State c.numCpus}
    (h : (osLts c .access).Run tr s) : LockInv s := by
  refine h.invariant ?_ ?_
  · rintro s rfl hlock
    cases hlock
  · intro s e s' hs hst
    obtain ⟨k, a, rfl, hmove⟩ | ⟨time, a, rfl, hmove⟩ := moves_of_exec hst
    · exact hs.cpuMove hmove
    · intro hlock
      rw [(hmove.device c.numCpus).1]
      apply hs
      cases hmove with
      | add i mlq hl hadd =>
        exact absurd ((locked_of_put hadd).symm.trans hlock) (by simp)
      | _ => exact hlock

/-- A CPU that is neither idle nor gone can go on, unless another one holds the lock. -/
theorem Quiescent.exists_step {s : State n} (h : Quiescent s) {k : Fin n}
    (hidle : ¬(s.cpu k).loc.Idle) (hstop : ¬(s.cpu k).loc.Stopped)
    (hlock : s.mlq.locked = false ∨ ∃ b i, (s.cpu k).loc = .getting b (.reset i)) :
    ∃ a s', s.cpuStep c .access k = some (a, s') ∧ a.timer k = none := by
  have hproc := h.proc k
  cases hl : (s.cpu k).loc with
  | getting b l =>
    have hfree : s.mlq.locked = false ∨ ∃ i, l = .reset i := by
      refine hlock.imp id ?_
      rintro ⟨b', i, hi⟩
      rw [hl] at hi
      cases hi
      exact ⟨i, rfl⟩
    obtain ⟨m, r, hst⟩ := GetLoc.step_isSome hfree
    have hget : Grain.access.get s.mlq l = some (m, r) := hst
    simp only [State.cpuStep, hl, hget]
    cases r with
    | inl l' => exact ⟨_, _, rfl, rfl⟩
    | inr o =>
      cases b
      all_goals cases o
      all_goals exact ⟨_, _, rfl, rfl⟩
  | recheck o =>
    rw [hl] at hproc
    obtain rfl := show o = none from hproc
    simp only [State.cpuStep, hl, h.done, if_true]
    exact ⟨_, _, rfl, rfl⟩
  | top o | slot o | inSlot o =>
    rw [hl] at hproc hidle
    exact absurd hproc hidle
  | run p =>
    rw [hl] at hproc
    cases hproc
  | stopped => exact absurd (.inl hl) hstop
  | exited => exact absurd (.inr hl) hstop

/-! ## The timer without devices -/

/-- A bound for the steps of `timer_routine` when all `m` devices are gone. A pass that has counted
a device which was not yet gone is followed by another one. -/
def timerRank (m : ℕ) : Timer.TimerLoc → ℕ
  | .loop => 2 * m + 4
  | .wait temp fsh event => temp.length + m + 3 + if fsh = event then 0 else 2 * m + 5
  | .asleep _ temp fsh event => temp.length + 1 + m + 3 + if fsh = event then 0 else 2 * m + 5
  | .release temp fsh event => temp.length + 1 + if fsh = event then 0 else 2 * m + 5
  | .exited => 0

theorem timerRank_signal (m d : ℕ) (l : Timer.TimerLoc) :
    timerRank m (l.signal d) = timerRank m l := by
  cases l with
  | asleep d' temp fsh event =>
    simp only [Timer.TimerLoc.signal]
    split
    all_goals simp [timerRank]
  | _ => rfl

/-- When all devices are gone, the timer comes nearer to its end. -/
theorem timerRank_step {t : Timer.State} (h : Timer.Inv n t)
    (hfsh : ∀ d ∈ t.devList, (t.id d).fsh = true) (hr : t.routine ≠ .exited) :
    ∃ e t', ownStep e = true ∧ t.exec e = some t' ∧
      timerRank t.devList.length t'.routine < timerRank t.devList.length t.routine := by
  have hinv := h.routine
  cases hl : t.routine with
  | loop =>
    refine ⟨.routine, ?_⟩
    simp only [Timer.State.exec, Timer.State.timerRoutine, hl]
    split
    · exact ⟨_, rfl, rfl, by simp [timerRank]⟩
    · refine ⟨_, rfl, rfl, ?_⟩
      simp only [timerRank, if_true]
      omega
  | wait temp fsh event =>
    rw [hl] at hinv
    obtain ⟨seen, hdev, _⟩ := hinv
    cases temp with
    | nil =>
      refine ⟨.tick, ?_⟩
      simp only [Timer.State.exec, Timer.State.tick, hl]
      refine ⟨_, rfl, rfl, ?_⟩
      simp only [timerRank, List.length_nil]
      omega
    | cons d temp =>
      have hd := hfsh d (by simp [hdev])
      refine ⟨.routine, ?_⟩
      simp only [Timer.State.exec, Timer.State.timerRoutine, hl, hd, Bool.or_true, if_true]
      refine ⟨_, rfl, rfl, ?_⟩
      simp only [timerRank, List.length_cons, Nat.add_right_cancel_iff]
      omega
  | asleep d temp fsh event =>
    rw [hl] at hinv
    obtain ⟨⟨seen, hdev, _⟩, hna⟩ := hinv
    exact absurd (.inr (hfsh d (by simp [hdev]))) hna
  | release temp fsh event =>
    refine ⟨.routine, ?_⟩
    cases temp with
    | nil =>
      simp only [Timer.State.exec, Timer.State.timerRoutine, hl]
      split
      · exact ⟨_, rfl, rfl, by simp [timerRank]⟩
      · rename_i hne
        refine ⟨_, rfl, rfl, ?_⟩
        simp only [timerRank, hne, if_false, List.length_nil]
        omega
    | cons d temp =>
      simp only [Timer.State.exec, Timer.State.timerRoutine, hl]
      refine ⟨_, rfl, rfl, ?_⟩
      simp only [timerRank, List.length_cons]
      omega
  | exited => exact absurd hl hr

/-! ## The end of a run -/

section

variable {s s' : System c.numCpus} {e : SysLabel c.numCpus}

/-- Without work the loader has nothing left but to detach. -/
theorem Quiescent.ldMove {s s' : State n} (h : Quiescent s) (hstop : StopInv s) {time : ℕ}
    {a : LdAct} (hmove : LdMove c s time a s') :
    Quiescent s' ∧ s'.cpu = s.cpu := by
  have hld := hstop.done.mp h.done
  cases hmove with
  | detach hl => exact ⟨⟨h.done, h.ready, h.proc⟩, rfl⟩
  | load i hl | leave i hl | early i hl | ready i hl | add i mlq hl | nextSlot b i hl
  | retEarly i hl | retAdded i hl | finish hl =>
    rw [hl] at hld
    rcases hld with hld | hld
    all_goals cases hld

/-- A state without work stays so, and a CPU changes by its own steps only. -/
theorem Quiescent.step (h : Quiescent s.os) (hstop : StopInv s.os)
    (hst : s.exec c .access e = some s') :
    Quiescent s'.os ∧ ∀ k, (∃ a, e = .thread (.cpu k a) ∧ CpuMove c .access s.os k a s'.os) ∨
      s'.os.cpu k = s.os.cpu k ∧ ∀ a, e ≠ .thread (.cpu k a) := by
  obtain ⟨e, rfl, _, hos, _⟩ | ⟨te, rfl, _, hos, _⟩ := System.exec_cases hst
  · obtain ⟨j, a, rfl, hmove⟩ | ⟨time, a, rfl, hmove⟩ := moves_of_exec hos
    · refine ⟨h.cpuMove hmove, ?_⟩
      intro k
      by_cases hj : k = j
      · subst hj
        exact .inl ⟨a, rfl, hmove⟩
      · exact .inr ⟨hmove.device.2.1 k hj, by simp [Ne.symm hj]⟩
    · obtain ⟨hq, hcpu⟩ := h.ldMove hstop hmove
      exact ⟨hq, fun k => .inr ⟨by rw [hcpu], by simp⟩⟩
  · rw [hos]
    exact ⟨h, fun k => .inr ⟨rfl, by simp⟩⟩

/-- A state without work and without idle CPUs. -/
structure Ending (s : System c.numCpus) : Prop where
  run : ∃ tr, (sysLts c .access).Run tr s
  quiet : Quiescent s.os
  busy : ∀ k, ¬(s.os.cpu k).loc.Idle

theorem Ending.step (h : Ending s) (hst : (sysLts c .access).step s e s') : Ending s' := by
  obtain ⟨tr, hrun⟩ := h.run
  obtain ⟨hquiet, hcpu⟩ := h.quiet.step (stopInv_of_run (osRun_of_run hrun)) hst
  refine ⟨⟨_, hrun.step hst⟩, hquiet, ?_⟩
  intro k
  rcases hcpu k with ⟨a, rfl, hmove⟩ | ⟨heq, _⟩
  · exact (h.quiet.rank_step hmove (h.busy k)).1
  · rw [heq]
    exact h.busy k

def LdLoc.rank : LdLoc → ℕ
  | .exited => 0
  | _ => 1

/-- A bound for the steps of all threads until they have finished. -/
def System.rank (s : System n) : ℕ :=
  ∑ k, (s.os.cpu k).loc.rank + s.os.ld.rank + timerRank (n + 1) s.timer.routine

/-- All threads have finished, and `main` goes on behind `pthread_join` and `stop_timer`. -/
structure Finished (s : System n) : Prop where
  cpu : ∀ k, (s.os.cpu k).loc = .exited
  ld : s.os.ld = .exited
  timer : s.timer.routine = .exited

/-- A step of one CPU that lowers its rank. -/
theorem rank_lt_of_cpu {k : Fin n} {s s' : System n}
    (hother : ∀ k', k' ≠ k → s'.os.cpu k' = s.os.cpu k')
    (hk : (s'.os.cpu k).loc.rank < (s.os.cpu k).loc.rank) (hld : s'.os.ld = s.os.ld)
    (ht : timerRank (n + 1) s'.timer.routine = timerRank (n + 1) s.timer.routine) :
    s'.rank < s.rank := by
  have hsum : ∑ j, (s'.os.cpu j).loc.rank < ∑ j, (s.os.cpu j).loc.rank := by
    apply Finset.sum_lt_sum
    · intro j _
      by_cases hj : j = k
      · rw [hj]
        exact Nat.le_of_lt hk
      · rw [hother j hj]
    · exact ⟨k, Finset.mem_univ k, hk⟩
  unfold System.rank
  rw [hld, ht]
  omega

theorem signal_eq_detached {l : Timer.DevLoc} : l.signal = .detached ↔ l = .detached := by
  cases l
  all_goals simp [Timer.DevLoc.signal]

/-- A thread at work can detach its device, which does not lead the timer away from its end. -/
theorem Sync.detach {s : System n} (ht : Timer.Inv (n + 1) s.timer) {d : ℕ} (hd : d < n + 1)
    (hw : (s.timer.dev d).signal = .working) :
    ∃ t, s.timer.exec (.detach d) = some t ∧
      timerRank (n + 1) t.routine = timerRank (n + 1) s.timer.routine := by
  have hmem := ht.mem_devList.mpr hd
  refine ⟨s.timer.detachEvent d, ?_, timerRank_signal _ _ _⟩
  simp [Timer.State.exec, hmem, signal_eq_working.mp hw]

/-- As long as not all threads have finished, one of them can come nearer to its end. -/
theorem Ending.exists_step (h : Ending s) (hf : ¬Finished s) :
    ∃ e s', (sysLts c .access).step s e s' ∧ s'.rank < s.rank := by
  obtain ⟨tr, hrun⟩ := h.run
  have hsync := sync_of_run hrun
  have ht := Timer.inv_of_run (timerRun_of_run hrun)
  have hlock := lockInv_of_run (osRun_of_run hrun)
  have hstop := stopInv_of_run (osRun_of_run hrun)
  -- a CPU in its loop that the lock does not stop
  have hloop : ∀ k, ¬(s.os.cpu k).loc.Stopped →
      (s.os.mlq.locked = false ∨ ∃ b i, (s.os.cpu k).loc = .getting b (.reset i)) →
      ∃ e s', (sysLts c .access).step s e s' ∧ s'.rank < s.rank := by
    intro k hk hfree
    obtain ⟨a, os, hstep, hnone⟩ := h.quiet.exists_step (c := c) (h.busy k) hk hfree
    have hmove := cpuMove_of_cpuStep hstep
    refine ⟨.thread (.cpu k a), ⟨os, s.timer⟩, ?_, ?_⟩
    · simp [sysLts, Lts.ofFn, System.exec, System.timeOk, State.exec, hstep, Label.timer, hnone]
    · exact rank_lt_of_cpu hmove.device.2.1 (h.quiet.rank_step hmove (h.busy k)).2.1 hmove.device.1
        rfl
  by_cases hcpu : ∃ k, ¬(s.os.cpu k).loc.Stopped
  · obtain ⟨k, hk⟩ := hcpu
    by_cases hl : s.os.mlq.locked = true
    · obtain ⟨j, b, i, hj⟩ := hlock hl
      exact hloop j (by simp [hj, CpuLoc.Stopped]) (.inr ⟨b, i, hj⟩)
    · exact hloop k hk (.inl (by simpa using hl))
  · push Not at hcpu
    by_cases hk : ∃ k, (s.os.cpu k).loc = .stopped
    · obtain ⟨k, hk⟩ := hk
      have hw := hsync.cpu k
      rw [hk] at hw
      obtain ⟨t, hexec, hrank⟩ := Sync.detach ht (by omega) hw
      have hmove : CpuMove c .access s.os k .detach _ := .detach hk
      refine ⟨.thread (.cpu k .detach), ⟨s.os.setCpu k .exited (s.os.cpu k).timeLeft, t⟩, ?_, ?_⟩
      · simp [sysLts, Lts.ofFn, System.exec, System.timeOk, State.exec, State.cpuStep, hk,
          Label.timer, Act.timer, hexec]
      · exact rank_lt_of_cpu hmove.device.2.1 (h.quiet.rank_step hmove (h.busy k)).2.1
          hmove.device.1 hrank
    · push Not at hk
      have hexited : ∀ k, (s.os.cpu k).loc = .exited := fun k => (hcpu k).resolve_left (hk k)
      by_cases hld : s.os.ld = .exited
      · have hr : s.timer.routine ≠ .exited := fun hr => hf ⟨hexited, hld, hr⟩
        have hfsh : ∀ d ∈ s.timer.devList, (s.timer.id d).fsh = true := by
          intro d hd
          rw [(ht.dev d).fsh_iff, ← signal_eq_detached]
          rcases Nat.lt_succ_iff_lt_or_eq.mp (ht.mem_devList.mp hd) with hd | rfl
          · rw [hsync.cpu ⟨d, hd⟩, hexited]
            rfl
          · rw [hsync.ld, hld]
            rfl
        obtain ⟨te, t, hown, hexec, hlt⟩ := timerRank_step ht hfsh hr
        refine ⟨.timer te, ⟨s.os, t⟩, ?_, ?_⟩
        · simp [sysLts, Lts.ofFn, System.exec, hown, hexec]
        · rw [ht.devList, List.length_reverse, List.length_range] at hlt
          exact Nat.add_lt_add_left hlt _
      · have hdet : s.os.ld = .detach := (hstop.done.mp h.quiet.done).resolve_right hld
        have hw := hsync.ld
        rw [hdet] at hw
        obtain ⟨t, hexec, hrank⟩ := Sync.detach ht (by omega) hw
        refine ⟨.thread (.ld s.timer.time .detach), ⟨{ s.os with ld := .exited }, t⟩, ?_, ?_⟩
        · simp [sysLts, Lts.ofFn, System.exec, System.timeOk, State.exec, State.ldStep, hdet,
            Label.timer, LdAct.timer, hexec]
        · simp [System.rank, hdet, LdLoc.rank, hrank]

/-- Whatever has happened, the threads can still come to their end. -/
theorem Ending.exists_path (h : Ending s) :
    ∃ tr s', (sysLts c .access).Path s tr s' ∧ Finished s' :=
  Lts.exists_path_of_rank (I := Ending) System.rank
    (fun _ h hf =>
      let ⟨e, s', hst, hlt⟩ := h.exists_step hf
      ⟨e, s', hst, h.step hst, hlt⟩) h

theorem Ending.path {tr : List (SysLabel c.numCpus)} (h : Ending s)
    (hp : (sysLts c .access).Path s tr s') : Ending s' :=
  hp.invariant (fun _ _ _ h hst => h.step hst) h

/-- A step of CPU `k`. -/
def SysLabel.ofCpu (k : Fin n) : SysLabel n → Bool
  | .thread (.cpu j _) => j == k
  | _ => false

theorem SysLabel.ofCpu_iff {k : Fin n} {e : SysLabel n} :
    e.ofCpu k = true ↔ ∃ a, e = .thread (.cpu k a) := by
  unfold SysLabel.ofCpu
  split
  · rename_i j a
    rw [beq_iff_eq]
    constructor
    · rintro rfl
      exact ⟨a, rfl⟩
    · rintro ⟨a', ha⟩
      cases ha
      rfl
  · rename_i hne
    constructor
    · simp
    · rintro ⟨a, rfl⟩
      exact absurd rfl (hne k a)

/-- The CPU leaves its loop in the iteration that it is in. -/
structure LeavesLoop (s : System c.numCpus) (k : Fin c.numCpus) : Prop where
  /-- It does not call `next_slot` again. -/
  noSlot : ∀ tr s', (sysLts c .access).Path s tr s' → .thread (.cpu k .nextSlot) ∉ tr
  /-- There is a bound for the steps that it takes. -/
  bounded : ∃ m, ∀ tr s', (sysLts c .access).Path s tr s' → tr.countP (SysLabel.ofCpu k) ≤ m
  /-- Whatever has happened, it can still stop. -/
  stops : ∀ tr s', (sysLts c .access).Path s tr s' →
    ∃ tr' s'', (sysLts c .access).Path s' tr' s'' ∧ (s''.os.cpu k).loc.Stopped

theorem Ending.leavesLoop (h : Ending s) (k : Fin c.numCpus) : LeavesLoop s k where
  noSlot tr s' hp := by
    induction hp with
    | nil => exact List.not_mem_nil
    | @snoc tr s1 s2 e hp hst ih =>
      have h1 := h.path hp
      obtain ⟨tr1, hrun⟩ := h1.run
      rw [List.mem_append, not_or, List.mem_singleton]
      refine ⟨ih, ?_⟩
      rintro rfl
      rcases (h1.quiet.step (stopInv_of_run (osRun_of_run hrun)) hst).2 k with
        ⟨a, ha, hmove⟩ | ⟨_, hne⟩
      · cases ha
        exact (h1.quiet.rank_step hmove (h1.busy k)).2.2 rfl
      · exact hne _ rfl
  bounded := by
    refine ⟨(s.os.cpu k).loc.rank, ?_⟩
    intro tr s' hp
    have hle := hp.countP_le (I := Ending) (SysLabel.ofCpu k)
      (fun s => (s.os.cpu k).loc.rank) ?_ h
    · omega
    · intro s1 e s2 h1 hst
      refine ⟨h1.step hst, ?_⟩
      obtain ⟨tr1, hrun⟩ := h1.run
      rcases (h1.quiet.step (stopInv_of_run (osRun_of_run hrun)) hst).2 k with
        ⟨a, rfl, hmove⟩ | ⟨heq, hne⟩
      · rw [if_pos (SysLabel.ofCpu_iff.mpr ⟨a, rfl⟩)]
        exact (h1.quiet.rank_step hmove (h1.busy k)).2.1
      · rw [heq, if_neg]
        rw [SysLabel.ofCpu_iff]
        rintro ⟨a, ha⟩
        exact hne a ha
  stops tr s' hp := by
    obtain ⟨tr', s'', hp', hf⟩ := (h.path hp).exists_path
    exact ⟨tr', s'', hp', .inr (hf.cpu k)⟩

/-- Every CPU that has not stopped leaves its loop, and whatever happens, all threads can come to
their end. -/
structure ShutsDown (s : System c.numCpus) : Prop where
  leaves : ∀ k, ¬(s.os.cpu k).loc.Stopped → LeavesLoop s k
  finishes : ∀ tr s', (sysLts c .access).Path s tr s' →
    ∃ tr' s'', (sysLts c .access).Path s' tr' s'' ∧ Finished s''

theorem not_stopped_of_idle {l : CpuLoc} (h : l.Idle) : ¬l.Stopped := by
  rintro (rfl | rfl)
  all_goals exact h

/-- An idle CPU does not leave its loop. -/
theorem not_leavesLoop {tr : List (SysLabel c.numCpus)} (hrun : (sysLts c .access).Run tr s)
    (hq : Quiescent s.os) {k : Fin c.numCpus} (hidle : (s.os.cpu k).loc.Idle) :
    ¬LeavesLoop s k := by
  intro hleave
  obtain ⟨tr', s', hp, hstop⟩ := hleave.stops [] s .nil
  refine not_stopped_of_idle ?_ hstop
  refine (hp.invariant (I := fun s => (∃ tr, (sysLts c .access).Run tr s) ∧ Quiescent s.os ∧
    (s.os.cpu k).loc.Idle) ?_ ⟨⟨tr, hrun⟩, hq, hidle⟩).2.2
  rintro s1 e s2 ⟨⟨tr1, hrun1⟩, hq1, hidle1⟩ hst
  obtain ⟨hq2, hcpu⟩ := hq1.step (stopInv_of_run (osRun_of_run hrun1)) hst
  refine ⟨⟨_, hrun1.step hst⟩, hq2, ?_⟩
  rcases hcpu k with ⟨a, _, hmove⟩ | ⟨heq, _⟩
  · exact hq1.idle_step hmove hidle1
  · rwa [heq]

/-- In every reachable state without work, the simulator shuts down exactly if no CPU is in an
iteration that it began with `proc == NULL`. -/
theorem shutsDown_iff {tr : List (SysLabel c.numCpus)} (h : (sysLts c .access).Run tr s)
    (hq : Quiescent s.os) : ShutsDown s ↔ ∀ k, ¬(s.os.cpu k).loc.Idle := by
  constructor
  · intro hs k hidle
    exact not_leavesLoop h hq hidle (hs.leaves k (not_stopped_of_idle hidle))
  · intro hbusy
    have hend : Ending s := ⟨⟨tr, h⟩, hq, hbusy⟩
    exact ⟨fun k _ => hend.leavesLoop k, fun _ _ hp => (hend.path hp).exists_path⟩

end

/-! ## One CPU, and two -/

theorem StopInv.quiescent {s : State n} (h : StopInv s) (hdone : s.done = true)
    (hready : QueuesEmpty s.mlq) (hproc : ∀ k, (s.cpu k).loc.proc = none) : Quiescent s where
  done := hdone
  ready i := by
    by_cases hi : i < maxPrio
    · exact hready i hi
    · exact h.bound i (Nat.not_lt.mp hi)
  proc := hproc

/-- One CPU and one process of one instruction. -/
def Config.oneCpu : Config where
  timeSlot := 2
  numCpus := 1
  ldProcesses := [⟨[{ opcode := .CALC }], 0, 0⟩]

/-- CPU `k` has just freed the only process. -/
def lastFree {n : ℕ} (k : Fin n) : List (SysLabel n) :=
  [.thread (.ld 0 .step), .thread (.ld 0 .step), .thread (.ld 0 (.add 0)),
    .thread (.ld 0 .nextSlot)] ++
  .replicate 5 (.thread (.cpu k .step)) ++
  [.thread (.cpu k (.get (some 0))), .thread (.cpu k .step),
    .thread (.cpu k (.run 0 (some { opcode := .CALC }))), .thread (.cpu k .nextSlot),
    .timer .routine, .timer .routine, .timer .routine, .timer .tick, .timer .routine,
    .timer .routine, .thread (.ld 1 .ret), .thread (.ld 1 .step), .thread (.ld 1 .finish),
    .thread (.cpu k .ret), .thread (.cpu k (.free 0))]

theorem shutsDown_lastFree : ∃ s, (sysLts .oneCpu .access).Run (lastFree (n := 1) 0) s ∧
    Quiescent s.os ∧ ShutsDown (c := .oneCpu) s := by
  obtain ⟨s, hrun, htest⟩ := Lts.exists_run_of_execAll (System.init 1)
    (System.exec .oneCpu .access) (lastFree 0)
    (fun s => decide (s.os.done = true ∧ QueuesEmpty s.os.mlq ∧
      ∀ k, (s.os.cpu k).loc = .getting .finished .start)) (by decide +kernel)
  obtain ⟨hdone, hready, hloc⟩ := of_decide_eq_true htest
  have hstop := stopInv_of_run (osRun_of_run (c := .oneCpu) (g := .access) hrun)
  have hq : Quiescent s.os := hstop.quiescent hdone hready fun k => congrArg CpuLoc.proc (hloc k)
  refine ⟨s, hrun, hq, (shutsDown_iff (c := .oneCpu) hrun hq).mpr ?_⟩
  intro k hidle
  have hb : GetSite.finished = .idle := (congrArg CpuLoc.Idle (hloc k)).mp hidle
  cases hb

/-- CPU `k'` has found no process, and begins its next iteration after `done = 1`. -/
def lateCpu {n : ℕ} (k k' : Fin n) : List (SysLabel n) :=
  (race k k').map .thread ++
  [.thread (.ld 0 .nextSlot), .thread (.cpu k .nextSlot), .thread (.cpu k' .nextSlot),
    .timer .routine, .timer .routine, .timer .routine, .timer .routine, .timer .tick,
    .timer .routine, .timer .routine, .timer .routine, .thread (.ld 1 .ret), .thread (.ld 1 .step),
    .thread (.ld 1 .finish), .thread (.cpu k .ret), .thread (.cpu k (.free 0)),
    .thread (.cpu k' .ret)]

/-- It never stops. -/
theorem not_shutsDown_lateCpu : ∃ s, (sysLts .twoCpus .access).Run (lateCpu (n := 2) 0 1) s ∧
    Quiescent s.os ∧ ¬ShutsDown (c := .twoCpus) s := by
  obtain ⟨s, hrun, htest⟩ := Lts.exists_run_of_execAll (System.init 2)
    (System.exec .twoCpus .access) (lateCpu 0 1)
    (fun s => decide (s.os.done = true ∧ QueuesEmpty s.os.mlq ∧
      (∀ k, (s.os.cpu k).loc.proc = none) ∧ (s.os.cpu 1).loc = .top none)) (by decide +kernel)
  obtain ⟨hdone, hready, hproc, hloc⟩ := of_decide_eq_true htest
  have hstop := stopInv_of_run (osRun_of_run (c := .twoCpus) (g := .access) hrun)
  have hq : Quiescent s.os := hstop.quiescent hdone hready hproc
  have hidle : (s.os.cpu 1).loc.Idle := by
    rw [hloc]
    rfl
  refine ⟨s, hrun, hq, ?_⟩
  intro hs
  exact not_leavesLoop (c := .twoCpus) hrun hq hidle (hs.leaves _ (not_stopped_of_idle hidle))

end OsSim.Sched
