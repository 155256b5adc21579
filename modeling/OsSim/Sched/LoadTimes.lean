import OsSim.Sched.Deadline

/-!
# When processes are added

`ld_routine` adds one process after the other (`src/os.c`, lines 121–174), each not before its
start time, and goes to the next slot after each. It reads `_time` without a lock, but in a slot
that it has not finished `_time` stays as it is, so the slot of each `add_proc` can be told from
the start times alone, whatever the CPUs do and however their steps interleave.

Results:
* `addTime_le_iff`: the slots of the processes from their start times.
* `ldTime_of_run`: what time it is at each position of the loader.
* `loadedOnTime_of_run`: the slot of each `add_proc`.
-/

namespace OsSim.Sched

variable {n : ℕ} {c : Config} {g : Grain}

/-- The first slot in which the loader has nothing to do with the processes before `i` any more. -/
def Config.loaderFree (c : Config) : ℕ → ℕ
  | 0 => 0
  | i + 1 => max (c.startTime i) (c.loaderFree i) + 1

/-- The slot in which process `i` is added. -/
def Config.addTime (c : Config) (i : ℕ) : ℕ := max (c.startTime i) (c.loaderFree i)

theorem loaderFree_succ (c : Config) (i : ℕ) : c.loaderFree (i + 1) = c.addTime i + 1 := rfl

theorem loaderFree_le_addTime (c : Config) (i : ℕ) : c.loaderFree i ≤ c.addTime i :=
  le_max_right ..

/-- The processes are added in different slots, in their order. -/
theorem addTime_lt_loaderFree (c : Config) {i j : ℕ} (h : i < j) :
    c.addTime i < c.loaderFree j := by
  induction j with
  | zero => exact absurd h (Nat.not_lt_zero i)
  | succ j ih =>
    rw [loaderFree_succ]
    rcases Nat.lt_succ_iff_lt_or_eq.mp h with hlt | rfl
    · have := ih hlt
      have := loaderFree_le_addTime c j
      omega
    · exact Nat.lt_succ_self _

/-- A process is added as soon as it and the processes before it have come to their start times,
one slot after another. -/
theorem addTime_le_iff (c : Config) (i time : ℕ) :
    c.addTime i ≤ time ↔ ∀ j ≤ i, c.startTime j + (i - j) ≤ time := by
  induction i generalizing time with
  | zero => simp [Config.addTime, Config.loaderFree]
  | succ i ih =>
    rw [Config.addTime, loaderFree_succ, max_le_iff]
    constructor
    · rintro ⟨hstart, hfree⟩ j hj
      obtain rfl | hlt := hj.eq_or_lt
      · omega
      · have := (ih (time - 1)).mp (by omega) j (by omega)
        omega
    · intro h
      have hlast := h (i + 1) le_rfl
      have hprev := h i (Nat.le_succ i)
      have hfree : c.addTime i ≤ time - 1 := (ih _).mpr fun j hj => by
        have := h j (by omega)
        omega
      omega

/-! ## The loader -/

/-- What time it can be where the loader is, if `φ` is the phase of its device. -/
def LdTime (c : Config) (time : ℕ) (φ : Barrier.Phase) : LdLoc → Prop
  | .loop i => time = c.loaderFree i
  | .test i => c.loaderFree i ≤ time ∧ time ≤ c.addTime i
  | .add i => time = c.addTime i
  | .slot .early i => c.loaderFree i ≤ time ∧ time < c.startTime i
  | .slot .added i => time + 1 = c.loaderFree i
  | .inSlot .early i =>
    c.loaderFree i ≤ time ∧ if φ = .released then time ≤ c.addTime i else time < c.startTime i
  | .inSlot .added i => if φ = .released then time = c.loaderFree i else time + 1 = c.loaderFree i
  | .finish | .detach => time = c.loaderFree c.numProcesses
  | .exited => c.loaderFree c.numProcesses ≤ time

/-- A step of the loader; its device arrives when it calls `next_slot`, and has been released when
it returns. -/
theorem LdTime.move {s s' : State n} {time : ℕ} {a : LdAct} {φ φ' : Barrier.Phase}
    (h : LdTime c time φ s.ld) (hloaded : s.ld.loaded c ≤ c.numProcesses)
    (hmove : LdMove c s time a s') (hcall : a = .nextSlot → φ' = .arrived)
    (hret : a = .ret → φ = .released) : LdTime c time φ' s'.ld := by
  cases hmove with
  | load i hl hi =>
    rw [hl] at h
    obtain rfl : time = c.loaderFree i := h
    exact ⟨le_rfl, loaderFree_le_addTime c i⟩
  | leave i hl hi =>
    rw [hl] at h hloaded
    obtain rfl : i = c.numProcesses := Nat.le_antisymm hloaded hi
    exact h
  | early i hl hi =>
    rw [hl] at h
    exact ⟨h.1, hi⟩
  | ready i hl hi =>
    rw [hl] at h
    exact Nat.le_antisymm h.2 (max_le hi h.1)
  | add i mlq hl hadd =>
    rw [hl] at h
    exact congrArg (· + 1) h
  | nextSlot b i hl =>
    rw [hl] at h
    obtain rfl := hcall rfl
    cases b with
    | early => exact ⟨h.1, h.2⟩
    | added => exact h
  | retEarly i hl =>
    rw [hl, hret rfl] at h
    exact ⟨h.1, h.2⟩
  | retAdded i hl =>
    rw [hl, hret rfl] at h
    exact h
  | finish hl =>
    rw [hl] at h
    exact h
  | detach hl =>
    rw [hl] at h
    exact Nat.le_of_eq (Eq.symm h)

/-- A slot begins when the loader waits for it or has gone. -/
theorem LdTime.tick {l : LdLoc} {time : ℕ} (h : LdTime c time .arrived l)
    (hwaits : (∃ b i, l = .inSlot b i) ∨ l = .exited) : LdTime c (time + 1) .released l := by
  obtain ⟨b, i, rfl⟩ | rfl := hwaits
  · cases b with
    | early =>
      obtain ⟨hfree, hstart⟩ := h
      exact ⟨Nat.le_succ_of_le hfree, Nat.le_trans hstart (le_max_left ..)⟩
    | added => exact h
  · exact Nat.le_succ_of_le h

theorem LdTime.step {s s' : System n} {l : SysLabel n}
    (h : LdTime c s.timer.time (s.timer.phase n) s.os.ld) (hinv : Inv c s.os) (hsync : Sync s)
    (ht : Timer.Inv (n + 1) s.timer) (hst : s.exec c g l = some s') :
    LdTime c s'.timer.time (s'.timer.phase n) s'.os.ld := by
  obtain ⟨e, rfl, htime, hos, hcall⟩ | ⟨te, rfl, hown, hos, hexec⟩ := System.exec_cases hst
  · obtain ⟨hsame, hphase⟩ := thread_timer ht hcall
    rw [hsame]
    obtain ⟨k, a, rfl, hmove⟩ | ⟨time, a, rfl, hmove⟩ := moves_of_exec hos
    · rw [hmove.device.1, hphase n k.isLt.ne']
      exact h
    · have heq : time = s.timer.time := by simpa [System.timeOk] using htime
      subst heq
      refine h.move hinv.loaded_le hmove ?_ ?_
      · rintro rfl
        exact ht.phase_nextSlot (exec_of_call hcall rfl)
      · rintro rfl
        exact ht.phase_ret (exec_of_call hcall rfl)
  · rw [hos, Timer.time_exec hexec]
    by_cases hne : te = .tick
    · subst hne
      rw [if_pos rfl]
      rcases phase_cases ht hexec with ⟨-, harr, hphase⟩ | ⟨hne, -⟩
      · rw [hphase n]
        rcases hsync.ld_waits ht (harr n) with ⟨hl, hn⟩ | hl
        · rw [hn] at h ⊢
          exact h.tick (.inl hl)
        · rw [hl] at h ⊢
          exact Nat.le_succ_of_le h
      · exact absurd rfl hne
    · rw [if_neg hne, phase_ownStep ht hown hne hexec]
      exact h

theorem ldTime_of_run {tr : List (SysLabel c.numCpus)} {s : System c.numCpus}
    (h : (sysLts c g).Run tr s) : LdTime c s.timer.time (s.timer.phase c.numCpus) s.os.ld := by
  refine (h.history (I := fun tr s => (sysLts c g).Run tr s ∧
    LdTime c s.timer.time (s.timer.phase c.numCpus) s.os.ld) ?_ ?_).2
  · rintro s rfl
    refine ⟨.init rfl, ?_⟩
    simp [System.init, Timer.State.started, Timer.State.attached_eq, Timer.State.startTimer,
      Timer.State.boot, State.init, LdTime, Config.loaderFree]
  · rintro tr s l s' ⟨hrun, hs⟩ hst
    exact ⟨hrun.step hst, hs.step (inv_of_run (osRun_of_run hrun)) (sync_of_run hrun)
      (Timer.inv_of_run (timerRun_of_run hrun)) hst⟩

/-- As long as a process has not been added, its slot has not passed. -/
theorem LdTime.time_le {time : ℕ} {φ : Barrier.Phase} {l : LdLoc} (h : LdTime c time φ l) {p : ℕ}
    (hp : p < c.numProcesses) (hadded : l.added c ≤ p) : time ≤ c.addTime p := by
  have hmono : ∀ i ≤ p, c.addTime i ≤ c.addTime p ∧ c.loaderFree i ≤ c.addTime p := by
    intro i hi
    have hfree := loaderFree_le_addTime c i
    obtain rfl | hlt := hi.eq_or_lt
    · exact ⟨le_rfl, hfree⟩
    · have := (addTime_lt_loaderFree c hlt).le.trans (loaderFree_le_addTime c p)
      omega
  cases l with
  | finish | detach | exited => exact absurd hp (not_lt.mpr hadded)
  | loop i | test i | add i =>
    have := hmono i hadded
    simp only [LdTime] at h
    omega
  | slot b i =>
    have := hmono i hadded
    have hstart : c.startTime i ≤ c.addTime i := le_max_left ..
    cases b
    all_goals
      simp only [LdTime] at h
      omega
  | inSlot b i =>
    have := hmono i hadded
    have hstart : c.startTime i ≤ c.addTime i := le_max_left ..
    cases b
    all_goals
      simp only [LdTime] at h
      split at h
    all_goals omega

/-! ## The processes -/

/-- What the steps `tr` say about the slots in which the processes are added. -/
structure LoadedOnTime (c : Config) (tr : List (SysLabel n)) (s : System n) : Prop where
  slot : ∀ time p, .thread (.ld time (.add p)) ∈ tr → p < c.numProcesses ∧ time = c.addTime p
  /-- In its slot at the latest a process is added. -/
  added : ∀ p < c.numProcesses, c.addTime p < s.timer.time →
    .thread (.ld (c.addTime p) (.add p)) ∈ tr

theorem addSlot_of_run {tr : List (SysLabel c.numCpus)} {s : System c.numCpus}
    (h : (sysLts c g).Run tr s) : ∀ time p, .thread (.ld time (.add p)) ∈ tr →
      p < c.numProcesses ∧ time = c.addTime p := by
  refine (h.history (I := fun tr s => (sysLts c g).Run tr s ∧
    ∀ time p, .thread (.ld time (.add p)) ∈ tr → p < c.numProcesses ∧ time = c.addTime p)
    ?_ ?_).2
  · rintro s rfl
    exact ⟨.init rfl, fun time p hp => by cases hp⟩
  · rintro tr s l s' ⟨hrun, hs⟩ hst
    refine ⟨hrun.step hst, fun time p hp => ?_⟩
    rcases List.mem_append.mp hp with hp | hp
    · exact hs time p hp
    obtain rfl := List.mem_singleton.mp hp
    obtain ⟨e, he, htime, hos, -⟩ | ⟨te, he, -⟩ := System.exec_cases hst
    · cases he
      obtain ⟨k, a, he, -⟩ | ⟨time', a, he, hmove⟩ := moves_of_exec hos
      · cases he
      cases he
      obtain rfl : time = s.timer.time := by simpa [System.timeOk] using htime
      generalize s'.os = os at hmove
      cases hmove with
      | add i mlq hl hadd =>
        have hle := (inv_of_run (osRun_of_run hrun)).loaded_le
        have hnow := ldTime_of_run hrun
        rw [hl] at hle hnow
        exact ⟨hle, hnow⟩
    · cases he

/-- In every run each process is added in its slot, whatever the CPUs do. -/
theorem loadedOnTime_of_run {tr : List (SysLabel c.numCpus)} {s : System c.numCpus}
    (h : (sysLts c g).Run tr s) : LoadedOnTime c tr s where
  slot := addSlot_of_run h
  added p hp htime := by
    have hadded : p < s.os.ld.added c := by
      by_contra hno
      exact absurd ((ldTime_of_run h).time_le hp (not_lt.mp hno)) (not_le.mpr htime)
    obtain ⟨time, hmem⟩ := ((history_of_run (osRun_of_run h)).added p).mp hadded
    obtain ⟨l, hl, hos⟩ := List.mem_filterMap.mp hmem
    cases l with
    | thread e =>
      cases hos
      rwa [(addSlot_of_run h time p hl).2] at hl
    | timer te => cases hos

/-- The loader waits two slots for the start time of the last process. -/
theorem loadedOnTime_lateProcess :
    (sysLts .lateProcess .call).Run (lateProcess 200).1 (lateProcess 200).2 ∧
    4 < (lateProcess 200).2.timer.time ∧
    LoadedOnTime .lateProcess (lateProcess 200).1 (lateProcess 200).2 := by
  have hrun := run_lateProcess 200
  exact ⟨hrun, by decide +kernel, loadedOnTime_of_run (c := .lateProcess) hrun⟩

end OsSim.Sched
