import Mathlib.Algebra.BigOperators.Group.Finset.Piecewise
import OsSim.Lib.Greedy
import OsSim.Sched.LoadTimes

/-!
# How fast the programs are executed

In a slot a CPU runs the process that it has once (`cpu_routine` in `src/os.c`, lines 52–119), and
no two CPUs have the same process. So the CPUs are workers that serve the processes in slots, and
what is known of such workers holds of the simulator: it can be no faster than one instruction of a
process in each slot from its `add_proc` on. From the slot in which the loader has added the last
process it is not much slower either: with atomic calls a CPU that has found the queues empty leaves
no process behind that no CPU runs in this slot.

Results:
* `serve_step`: `run` is what lowers the number of times that a process has still to be run.
* `paced_of_run`: how many instructions can have been executed, in every run.
* `drained_of_run`: a CPU that has no process leaves none waiting.
* `executed_by_listSchedule`: after how many slots all programs have been executed.
-/

namespace OsSim.Sched

variable {n : ℕ} {c : Config} {g : Grain}

/-! ## What is run in a slot -/

/-- The process that a step runs. -/
def Label.runs : Label n → Option ℕ
  | .cpu _ (.run p _) => some p
  | _ => none

/-- What CPU `k` has run in the current slot. -/
def System.ran (s : System n) (k : Fin n) : Option ℕ :=
  match (s.os.cpu k).loc with
  | .slot o => o
  | .inSlot o => if s.timer.phase k = .arrived then o else none
  | _ => none

/-- How often process `p` has been run in the current slot. -/
def System.served (s : System n) (p : ℕ) : ℕ := ∑ k, if s.ran k = some p then 1 else 0

/-- How often process `p` is run; a process without instructions is run once, too. -/
def Config.runs (c : Config) (p : ℕ) : ℕ := max (c.code p).length 1

/-- How often it has still to be run: what is left is to be added, run and freed. -/
def State.runsLeft (c : Config) (s : State n) (p : ℕ) : ℕ :=
  s.todo c p - if s.ld.added c ≤ p then 2 else 1

/-- What the programs have come to: nothing is executed of a process that has not been added, and
its instructions are not run twice. -/
structure Pace (c : Config) (s : State n) : Prop where
  fresh : ∀ p, s.ld.added c ≤ p → (s.pcb p).pc = 0
  runs_le : ∀ p, (s.pcb p).pc + s.runsLeft c p ≤ c.runs p

section

variable {s s' : State n}

theorem runsLeft_of_not_added {p : ℕ} (h : s.ld.added c ≤ p) : s.runsLeft c p = c.runs p := by
  rw [State.runsLeft, if_pos h, State.todo, if_pos h]
  rfl

/-- A process that has not to be run any more is at its end. -/
theorem Inv.pc_of_runsLeft (h : Inv c s) {p : ℕ} (hleft : s.runsLeft c p = 0) :
    p < s.ld.added c ∧ (s.pcb p).pc = (s.pcb p).code.length ∧
      (s.freed p = true ∨ RanOut s p) := by
  have hadded : p < s.ld.added c := by
    by_contra hno
    rw [runsLeft_of_not_added (not_lt.mp hno), Config.runs] at hleft
    omega
  refine ⟨hadded, ?_⟩
  cases hfreed : s.freed p with
  | true => exact ⟨(h.freed p hfreed).2, .inl rfl⟩
  | false =>
    rw [State.runsLeft, if_neg (not_le.mpr hadded), todo_of_added hadded hfreed] at hleft
    by_cases hout : RanOut s p
    · exact ⟨hout.1, .inr hout⟩
    · rw [if_neg hout] at hleft
      omega

/-- `run` is what lowers it. -/
theorem CpuMove.runsLeft (h : Inv c s) (hpc : ∀ p, (s.pcb p).pc ≤ (s.pcb p).code.length) {k : Fin n}
    {a : Act} (hmove : CpuMove c g s k a s') (p : ℕ) :
    s'.runsLeft c p + (if (Label.cpu k a).runs = some p then 1 else 0) = s.runsLeft c p := by
  have htodo := hmove.todo h hpc p
  rw [State.runsLeft, State.runsLeft, hmove.device.1]
  cases hmove with
  | run q hl =>
    by_cases hp : q = p
    · subst hp
      have hk : (s.cpu k).loc.proc = some q := by rw [hl]; rfl
      have hrest := (h.todo_eq hk).2
      rw [if_neg (h.not_ranOut hk (by rw [hl]; rfl))] at hrest
      have hadded := (h.of_held hk).1
      simp only [Label.works, Label.runs, if_true] at htodo ⊢
      rw [if_neg (not_le.mpr hadded)]
      omega
    · simp only [Label.works, Label.runs, Option.some.injEq, hp, if_false] at htodo ⊢
      omega
  | free q hl hend =>
    have hk : (s.cpu k).loc.proc = some q := by rw [hl]; rfl
    have hadded := (h.of_held hk).1
    by_cases hp : q = p
    · subst hp
      have hrest := (h.todo_eq hk).2
      rw [if_pos ⟨hend, k, by rw [hl]; rfl⟩] at hrest
      simp only [Label.works, Label.runs, if_true, reduceCtorEq, if_false] at htodo ⊢
      rw [if_neg (not_le.mpr hadded)]
      omega
    · simp only [Label.works, Label.runs, Option.some.injEq, hp, reduceCtorEq, if_false] at htodo ⊢
      omega
  | _ =>
    simp only [Label.works, Label.runs, reduceCtorEq, if_false] at htodo ⊢
    omega

theorem LdMove.added_iff {time : ℕ} {a : LdAct} (h : Inv c s) (hmove : LdMove c s time a s') {p : ℕ}
    (hp : a ≠ .add p) : s'.ld.added c ≤ p ↔ s.ld.added c ≤ p := by
  cases hmove with
  | add i mlq hl hadd =>
    have hne : i ≠ p := fun heq => hp (congrArg _ heq)
    rw [hl]
    simp only [LdLoc.added]
    omega
  | leave i hl hi =>
    have hle := h.loaded_le
    rw [hl] at hle ⊢
    rw [show i = c.numProcesses from Nat.le_antisymm hle hi]
    rfl
  | load i hl hi | early i hl hi | ready i hl hi | nextSlot b i hl | retEarly i hl | retAdded i hl
  | finish hl | detach hl =>
    rw [hl]
    rfl

/-- The loader does not change it. -/
theorem LdMove.runsLeft (h : Inv c s) (hfresh : ∀ p, s.ld.added c ≤ p → (s.pcb p).pc = 0) {time : ℕ}
    {a : LdAct} (hmove : LdMove c s time a s') (p : ℕ) : s'.runsLeft c p = s.runsLeft c p := by
  by_cases ha : a = .add p
  · subst ha
    obtain ⟨hbefore, hafter⟩ := hmove.todo_add h
    have hzero : (s.pcb p).pc = 0 := by
      cases hmove with
      | add i mlq hl hadd => exact hfresh p (by rw [hl]; exact Nat.le_refl p)
    have hld : s.ld.added c ≤ p ∧ ¬ s'.ld.added c ≤ p := by
      cases hmove with
      | add i mlq hl hadd =>
        rw [hl]
        simp [LdLoc.added]
    rw [State.runsLeft, State.runsLeft, if_pos hld.1, if_neg hld.2, hbefore, hafter, hzero]
    rfl
  · have hno : (Label.ld (n := n) time a).works ≠ some p := by
      cases a with
      | add q =>
        intro heq
        cases heq
        exact ha rfl
      | _ => exact fun heq => by cases heq
    rw [State.runsLeft, State.runsLeft, hmove.todo_eq h hno]
    simp only [hmove.added_iff h ha]

/-- `pc` goes on when the process is run. -/
theorem CpuMove.pc_le {k : Fin n} {a : Act} (hmove : CpuMove c g s k a s') (p : ℕ) :
    (s'.pcb p).pc ≤ (s.pcb p).pc + if (Label.cpu k a).runs = some p then 1 else 0 := by
  cases hmove with
  | run q hl =>
    show (Function.update s.pcb q (State.runPcb (s.pcb q)).2 p).pc ≤ _
    by_cases hp : p = q
    · subst hp
      rw [Function.update_self, Label.runs, if_pos rfl, State.runPcb]
      split
      · exact Nat.le_succ _
      · exact Nat.le_refl _
    · rw [Function.update_of_ne hp]
      exact Nat.le_add_right ..
  | _ => exact Nat.le_add_right ..

theorem Pace.step (h : Pace c s) (hinv : Inv c s)
    (hpc : ∀ p, (s.pcb p).pc ≤ (s.pcb p).code.length) {e : Label n}
    (hst : s.exec c g e = some s') : Pace c s' := by
  obtain ⟨k, a, rfl, hmove⟩ | ⟨time, a, rfl, hmove⟩ := moves_of_exec hst
  · refine ⟨fun p hp => ?_, fun p => ?_⟩
    · rw [hmove.device.1] at hp
      have hle := hmove.pc_le p
      split_ifs at hle with hrun
      · -- a process that is run has been added
        cases hmove with
        | run q hl =>
          cases hrun
          exact absurd (hinv.of_held (k := k) (by rw [hl]; rfl)).1 (not_lt.mpr hp)
        | _ => cases hrun
      · exact Nat.le_zero.mp (hle.trans (Nat.le_of_eq (h.fresh p hp)))
    · have hle := hmove.pc_le p
      have hleft := hmove.runsLeft hinv hpc p
      have := h.runs_le p
      omega
  · have hleft := hmove.runsLeft hinv h.fresh
    have hle : ∀ p, (s'.pcb p).pc ≤ (s.pcb p).pc := by
      intro p
      cases hmove with
      | load i hl hi =>
        by_cases hp : p = i
        · subst hp
          simp
        · simp [Function.update_of_ne hp]
      | _ => exact Nat.le_refl _
    refine ⟨fun p hp => ?_, fun p => ?_⟩
    · have hp' : s.ld.added c ≤ p := by
        cases hmove with
        | add i mlq hl hadd =>
          rw [hl]
          exact Nat.le_of_succ_le hp
        | leave i hl hi =>
          have hend := hinv.loaded_le
          rw [hl] at hend ⊢
          exact hend.trans hp
        | load i hl hi | early i hl hi | ready i hl hi | nextSlot b i hl | retEarly i hl
        | retAdded i hl | finish hl | detach hl =>
          rw [hl]
          exact hp
      exact Nat.le_zero.mp ((hle p).trans (Nat.le_of_eq (h.fresh p hp')))
    · rw [hleft p]
      exact (Nat.add_le_add_right (hle p) _).trans (h.runs_le p)

theorem pace_of_run {tr : List (Label c.numCpus)} {s : State c.numCpus}
    (h : (osLts c g).Run tr s) : Pace c s := by
  refine (h.history (I := fun tr s => (osLts c g).Run tr s ∧ Pace c s) ?_ ?_).2
  · rintro s rfl
    refine ⟨.init rfl, fun p _ => rfl, fun p => ?_⟩
    rw [runsLeft_of_not_added (Nat.zero_le p)]
    exact Nat.le_of_eq (Nat.zero_add _)
  · rintro tr s e s' ⟨hrun, hs⟩ hst
    exact ⟨hrun.step hst, hs.step (inv_of_run hrun) (history_of_run hrun).pc_le hst⟩

end

/-! ## The CPUs as workers -/

section

variable {s s' : System n}

theorem held_of_ran {k : Fin n} {p : ℕ} (h : s.ran k = some p) :
    (s.os.cpu k).loc.proc = some p := by
  unfold System.ran at h
  split at h
  · rename_i o hl
    rw [hl]
    exact h
  · rename_i o hl
    rw [hl]
    split at h
    · exact h
    · cases h
  · cases h

theorem served_le_one (h : Inv c s.os) (p : ℕ) : s.served p ≤ 1 := by
  by_cases hp : ∃ k, s.ran k = some p
  · obtain ⟨k, hk⟩ := hp
    rw [System.served, Finset.sum_eq_single k]
    · rw [if_pos hk]
    · intro k' _ hkk
      rw [if_neg]
      intro hk'
      exact hkk (h.places.inj k' k p (held_of_ran hk') (held_of_ran hk))
    · exact fun hk' => absurd (Finset.mem_univ k) hk'
  · push Not at hp
    rw [System.served, Finset.sum_eq_zero fun k _ => if_neg (hp k)]
    exact Nat.zero_le 1

/-- Which CPUs have run one of the processes. -/
theorem sum_served (s : System n) (N : ℕ) :
    ∑ p ∈ Finset.range N, s.served p = ∑ k, if ∃ p < N, s.ran k = some p then 1 else 0 := by
  unfold System.served
  rw [Finset.sum_comm]
  refine Finset.sum_congr rfl fun k _ => ?_
  cases hran : s.ran k with
  | none => simp
  | some q =>
    simp only [Option.some.injEq, Finset.sum_ite_eq, Finset.mem_range]
    simp

theorem sum_served_le (s : System n) (N : ℕ) : ∑ p ∈ Finset.range N, s.served p ≤ n := by
  rw [sum_served]
  calc ∑ k : Fin n, (if ∃ p < N, s.ran k = some p then 1 else 0)
      ≤ ∑ _k : Fin n, 1 := Finset.sum_le_sum fun k _ => by split_ifs <;> simp
    _ = n := by simp

/-- Another CPU or the loader does a step. -/
theorem ran_congr {k : Fin n} (hloc : s'.os.cpu k = s.os.cpu k)
    (hphase : s'.timer.phase k = s.timer.phase k) : s'.ran k = s.ran k := by
  unfold System.ran
  rw [hloc, hphase]

/-- A CPU has run the process of its last `run`, until it comes back from `next_slot`. -/
theorem CpuMove.ran {k : Fin n} {a : Act} (hmove : CpuMove c g s.os k a s'.os)
    (hcall : a = .nextSlot → s'.timer.phase k = .arrived)
    (hret : a = .ret → s.timer.phase k = .released) :
    (Label.cpu k a).runs = none ∧ s'.ran k = s.ran k ∨
      ∃ p, (Label.cpu k a).runs = some p ∧ s.ran k = none ∧ s'.ran k = some p := by
  unfold System.ran
  generalize s'.os = os at hmove ⊢
  cases hmove with
  | run p hl => exact .inr ⟨p, rfl, by rw [hl], by simp [State.setCpu]⟩
  | get b l o mlq hl hget =>
    refine .inl ⟨rfl, ?_⟩
    rw [hl]
    simp only [State.setCpu, Function.update_self, GetSite.next]
    by_cases hb : b = .idle ∧ o = none
    · simp only [if_pos hb]
    · simp only [if_neg hb]
  | nextSlot o hl =>
    refine .inl ⟨rfl, ?_⟩
    rw [hl]
    simp [State.setCpu, hcall rfl]
  | ret o hl =>
    refine .inl ⟨rfl, ?_⟩
    rw [hl]
    simp [State.setCpu, hret rfl]
  | idle hl | free p hl hpc | put p mlq hl hpc ht hput | keep p hl hpc ht | scan b l l' mlq hl hget
  | stop hl hdone | skip hl hdone | dispatch p hl | detach hl =>
    refine .inl ⟨rfl, ?_⟩
    rw [hl]
    simp [State.setCpu]

theorem CpuMove.served {k : Fin n} {a : Act} (hmove : CpuMove c g s.os k a s'.os)
    (hcall : a = .nextSlot → s'.timer.phase k = .arrived)
    (hret : a = .ret → s.timer.phase k = .released)
    (hother : ∀ k', k' ≠ k → s'.ran k' = s.ran k') (p : ℕ) :
    s'.served p = s.served p + if (Label.cpu k a).runs = some p then 1 else 0 := by
  have hsum : s'.served p + _ = s.served p + _ :=
    Greedy.sum_add_eq_of_ne (Finset.mem_univ k) fun k' hk' => by rw [hother k' hk']
  rcases hmove.ran hcall hret with ⟨hno, hsame⟩ | ⟨q, hq, hbefore, hafter⟩
  · rw [hsame] at hsum
    rw [hno]
    exact Nat.add_right_cancel hsum
  · rw [hbefore, hafter] at hsum
    rw [hq]
    exact hsum

/-- In a step that ends no slot, what is run is what has been served. -/
theorem serve_step (h : Inv c s.os) (hpace : Pace c s.os)
    (hpc : ∀ p, (s.os.pcb p).pc ≤ (s.os.pcb p).code.length) (ht : Timer.Inv (n + 1) s.timer)
    {l : SysLabel n} (hst : s.exec c g l = some s') (hl : l ≠ .timer .tick) (p : ℕ) :
    s'.os.runsLeft c p + s'.served p = s.os.runsLeft c p + s.served p ∧
      s.served p ≤ s'.served p := by
  obtain ⟨e, rfl, -, hos, hdev⟩ | ⟨te, rfl, hown, hos, hexec⟩ := System.exec_cases hst
  · obtain ⟨-, hphase⟩ := thread_timer ht hdev
    obtain ⟨k, a, rfl, hmove⟩ | ⟨time, a, rfl, hmove⟩ := moves_of_exec hos
    · have hserved : s'.served p = _ := hmove.served
        (fun ha => ht.phase_nextSlot (exec_of_call hdev (by rw [ha]; rfl)))
        (fun ha => ht.phase_ret (exec_of_call hdev (by rw [ha]; rfl)))
        (fun k' hk' => ran_congr (hmove.device.2.1 k' hk')
          (hphase k' fun heq => hk' (Fin.ext heq))) p
      have hleft := hmove.runsLeft h hpc p
      omega
    · have hserved : s'.served p = s.served p :=
        Finset.sum_congr rfl fun k _ => by
          rw [ran_congr (congrFun (hmove.device n).1 k) (hphase k (ne_of_lt k.isLt))]
      rw [hmove.runsLeft h hpace.fresh p, hserved]
      exact ⟨rfl, Nat.le_refl _⟩
  · have hphase := phase_ownStep ht hown (fun htick => hl (congrArg _ htick)) hexec
    have hserved : s'.served p = s.served p :=
      Finset.sum_congr rfl fun k _ => by rw [ran_congr (by rw [hos]) (hphase k)]
    rw [hos, hserved]
    exact ⟨rfl, Nat.le_refl _⟩

theorem served_of_tick (hsync : Sync s) (ht : Timer.Inv (n + 1) s.timer)
    (hst : s.exec c g (.timer .tick) = some s') (p : ℕ) : s'.served p = 0 := by
  refine Finset.sum_eq_zero fun k _ => if_neg ?_
  obtain ⟨hos, ⟨⟨o, hl⟩, -, hphase⟩ | hl⟩ := cpu_of_tick hsync ht hst k
  · rw [System.ran, hos, hl]
    simp [hphase]
  · rw [System.ran, hos, hl]
    simp

end

/-- The CPUs are workers that serve the processes in slots. -/
def workers (c : Config) (g : Grain) :
    Greedy.Slotted (sysLts c g) (fun s => ∃ tr, (sysLts c g).Run tr s) ℕ where
  items := Finset.range c.numProcesses
  workers := c.numCpus
  time s := s.timer.time
  tick l := decide (l = .timer .tick)
  need := c.runs
  left s := s.os.runsLeft c
  served := System.served
  init := by
    rintro s rfl
    refine ⟨?_, fun p _ => ⟨runsLeft_of_not_added (Nat.zero_le p), ?_⟩⟩
    · simp [System.init, Timer.State.started, Timer.State.attached_eq, Timer.State.startTimer,
        Timer.State.boot]
    · exact Finset.sum_eq_zero fun k _ => if_neg (fun h => by cases h)
  time_step s l s' hst := by
    rw [time_step hst]
    simp
  serve := by
    rintro s l s' ⟨tr, hrun⟩ hst hl p -
    have hos := osRun_of_run hrun
    exact serve_step (inv_of_run hos) (pace_of_run hos) (history_of_run hos).pc_le
      (Timer.inv_of_run (timerRun_of_run hrun)) hst (by simpa using hl) p
  next_slot := by
    rintro s l s' ⟨tr, hrun⟩ hst hl p -
    rw [decide_eq_true_eq] at hl
    subst hl
    have ht := Timer.inv_of_run (timerRun_of_run hrun)
    refine ⟨?_, served_of_tick (sync_of_run hrun) ht hst p⟩
    obtain ⟨e, he, -⟩ | ⟨te, he, -, hos, -⟩ := System.exec_cases hst
    · cases he
    · rw [hos]
  served_le := by
    rintro s ⟨tr, hrun⟩ p -
    exact served_le_one (inv_of_run (osRun_of_run hrun)) p
  sum_served_le s _ := sum_served_le s _

/-! ## No faster -/

theorem LdTime.loaderFree_le {time : ℕ} {φ : Barrier.Phase} {l : LdLoc} (h : LdTime c time φ l) :
    c.loaderFree (l.added c) ≤ time + 1 := by
  cases l with
  | loop i | finish | detach => exact Nat.le_succ_of_le (Nat.le_of_eq (Eq.symm h))
  | test i => exact Nat.le_succ_of_le h.1
  | add i =>
    rw [show time = c.addTime i from h]
    exact Nat.le_succ_of_le (loaderFree_le_addTime c i)
  | slot b i =>
    cases b with
    | early => exact Nat.le_succ_of_le h.1
    | added => exact Nat.le_of_eq (Eq.symm h)
  | inSlot b i =>
    cases b with
    | early => exact Nat.le_succ_of_le h.1
    | added =>
      simp only [LdTime] at h
      simp only [LdLoc.added]
      split at h
      all_goals omega
  | exited => exact Nat.le_succ_of_le h

/-- How many instructions can have been executed when the timer counts slot `time`. -/
structure Paced (c : Config) (tr : List (SysLabel n)) (s : System n) : Prop where
  /-- One instruction of a process in a slot, from its `add_proc` on. -/
  each : ∀ p < s.os.ld.added c,
    (executed p (osTrace tr)).length + c.addTime p ≤ s.timer.time + 1
  /-- It is freed in the slot after its last instruction at the earliest. -/
  freed : ∀ p, s.os.freed p = true → c.addTime p + c.runs p ≤ s.timer.time
  /-- One instruction on each CPU in a slot. -/
  all : ∑ p ∈ Finset.range c.numProcesses, (executed p (osTrace tr)).length ≤
    n * (s.timer.time + 1)

/-- In every run of any number of CPUs, the loader and the timer. -/
theorem paced_of_run {tr : List (SysLabel c.numCpus)} {s : System c.numCpus}
    (h : (sysLts c g).Run tr s) : Paced c tr s := by
  have hos := osRun_of_run h
  have hinv := inv_of_run hos
  have hhist := history_of_run hos
  have hpace := pace_of_run hos
  have hlen : ∀ p, (executed p (osTrace tr)).length = (s.os.pcb p).pc := fun p => by
    rw [hhist.executed, List.length_take, Nat.min_eq_left (hhist.pc_le p)]
  have hnow : ∀ {tr : List (SysLabel c.numCpus)} {s : System c.numCpus} {p : ℕ},
      (sysLts c g).Run tr s → p < s.os.ld.added c → c.addTime p ≤ s.timer.time := by
    intro tr s p hrun hp
    exact Nat.le_of_lt_succ
      ((addTime_lt_loaderFree c hp).trans_le (ldTime_of_run hrun).loaderFree_le)
  have hneed : ∀ p < s.os.ld.added c,
      s.os.runsLeft c p + s.served p = c.runs p ∨
        c.runs p + c.addTime p ≤ s.os.runsLeft c p + s.served p + s.timer.time := by
    intro p hp
    refine Greedy.Slotted.need_le (S := workers c g) (fun tr s hrun => ⟨tr, hrun⟩) (i := p)
      (Finset.mem_range.mpr ?_) ?_ h
    · exact (hp.trans_le (s.os.ld.added_le_loaded c)).trans_le hinv.loaded_le
    · rintro s1 ⟨tr1, hrun1⟩ hserved
      replace hserved : s1.served p ≠ 0 := hserved
      obtain ⟨k, -, hk⟩ := Finset.exists_ne_zero_of_sum_ne_zero hserved
      have hran : s1.ran k = some p := by
        by_contra hno
        exact hk (if_neg hno)
      exact hnow hrun1 ((inv_of_run (osRun_of_run hrun1)).of_held (held_of_ran hran)).1
  refine ⟨fun p hp => ?_, fun p hp => ?_, ?_⟩
  · have := hneed p hp
    have := hpace.runs_le p
    have := served_le_one hinv p
    have := hnow h hp
    rw [hlen]
    omega
  · have hadded := (hinv.freed p hp).1
    have hleft : s.os.runsLeft c p = 0 := by
      rw [State.runsLeft, todo_of_freed hadded hp]
      exact Nat.zero_sub _
    have hserved : s.served p = 0 := by
      refine Finset.sum_eq_zero fun k _ => if_neg fun hk => ?_
      rw [(hinv.of_held (held_of_ran hk)).2] at hp
      cases hp
    have hruns : 1 ≤ c.runs p := le_max_right ..
    have := hneed p hadded
    omega
  · have hsum := Greedy.Slotted.sum_need_le (S := workers c g) (fun tr s hrun => ⟨tr, hrun⟩) h
    have hone := sum_served_le s c.numProcesses
    have hle : ∑ p ∈ Finset.range c.numProcesses, ((s.os.pcb p).pc + s.os.runsLeft c p) ≤
        ∑ p ∈ Finset.range c.numProcesses, c.runs p := Finset.sum_le_sum fun p _ => hpace.runs_le p
    rw [Finset.sum_add_distrib] at hle
    simp only [Greedy.Slotted.pending, workers, Finset.sum_add_distrib] at hsum
    simp only [hlen]
    rw [Nat.mul_succ]
    omega

/-- All five processes have been freed. -/
theorem paced_fiveProcesses :
    (sysLts .fiveProcesses .call).Run (fiveProcesses 180).1 (fiveProcesses 180).2 ∧
    (∀ p < 5, (fiveProcesses 180).2.os.freed p = true) ∧
    Paced .fiveProcesses (fiveProcesses 180).1 (fiveProcesses 180).2 := by
  have hrun := run_fiveProcesses 180
  exact ⟨hrun, by decide +kernel, paced_of_run (c := .fiveProcesses) hrun⟩

/-! ## No CPU is idle while a process waits -/

/-- The CPU has found no process in this slot, or has left its loop. -/
def CpuIdle (s : System n) (k : Fin n) : Prop :=
  match (s.os.cpu k).loc with
  | .inSlot none => s.timer.phase k = .arrived
  | .recheck none | .slot none | .stopped | .exited => True
  | _ => False

/-- The CPU has put its process back and gets one next. -/
def CpuLoc.puttingBack : CpuLoc → Bool
  | .getting .putBack _ => true
  | _ => false

def Act.isPut : Act → Bool
  | .put _ => true
  | _ => false

/-- How many processes wait. -/
def Mlq.queued (m : Mlq) : ℕ := ∑ i ∈ Finset.range maxPrio, (m.ready i).length

def State.puttingBack (s : State n) : ℕ := ∑ k, (s.cpu k).loc.puttingBack.toNat

/-- When the loader has added all processes and a CPU has none, no more processes wait than CPUs
have just put back. -/
def Drained (c : Config) (s : System n) : Prop :=
  c.loaderFree c.numProcesses ≤ s.timer.time → (∃ k, CpuIdle s k) →
    s.os.mlq.queued ≤ s.os.puttingBack

theorem queued_update {m m' : Mlq} {i : ℕ} {q : List ℕ} (hi : i < maxPrio)
    (h : m'.ready = Function.update m.ready i q) :
    m'.queued + (m.ready i).length = m.queued + q.length := by
  have hsum : m'.queued + _ = m.queued + _ :=
    Greedy.sum_add_eq_of_ne (Finset.mem_range.mpr hi) fun j hj => by
      rw [h, Function.update_of_ne hj]
  rwa [h, Function.update_self] at hsum

theorem queued_eq_zero {m : Mlq} : m.queued = 0 ↔ QueuesEmpty m := by
  simp [Mlq.queued, QueuesEmpty]

section

variable {s s' : System n}

theorem CpuMove.puttingBack_loc {os os' : State n} {k : Fin n} {a : Act}
    (hmove : CpuMove c .call os k a os') : (os'.cpu k).loc.puttingBack = a.isPut := by
  cases hmove with
  | get b l o mlq hl hget =>
    simp only [State.setCpu, Function.update_self, GetSite.next]
    by_cases hb : b = .idle ∧ o = none
    · rw [if_pos hb]
      rfl
    · rw [if_neg hb]
      rfl
  | scan b l l' mlq hl hget => exact absurd hget fun hget => get_call_inl hget
  | idle hl | free p hl hpc | put p mlq hl hpc ht hput | keep p hl hpc ht | stop hl hdone
  | skip hl hdone | dispatch p hl | run p hl | nextSlot o hl | ret o hl | detach hl =>
    simp only [State.setCpu, Function.update_self]
    rfl

theorem CpuMove.puttingBack {os os' : State n} {k : Fin n} {a : Act}
    (hmove : CpuMove c .call os k a os') :
    os'.puttingBack + (os.cpu k).loc.puttingBack.toNat = os.puttingBack + a.isPut.toNat := by
  have hsum : os'.puttingBack + _ = os.puttingBack + _ :=
    Greedy.sum_add_eq_of_ne (Finset.mem_univ k) fun k' hk' => by rw [hmove.device.2.1 k' hk']
  rwa [hmove.puttingBack_loc] at hsum

theorem CpuIdle.congr {k : Fin n} (h : CpuIdle s' k) (hcpu : s'.os.cpu k = s.os.cpu k)
    (hphase : s'.timer.phase k = s.timer.phase k) : CpuIdle s k := by
  unfold CpuIdle at h ⊢
  rwa [hcpu, hphase] at h

/-- A CPU becomes idle when `get_proc` returns `NULL`. -/
theorem CpuIdle.of_move {k : Fin n} {a : Act} (h : CpuIdle s' k)
    (hmove : CpuMove c g s.os k a s'.os) (hget : a ≠ .get none)
    (hret : a = .ret → s.timer.phase k = .released) : CpuIdle s k := by
  unfold CpuIdle at h ⊢
  generalize s'.os = os at hmove h
  cases hmove with
  | get b l o mlq hl hres =>
    cases o with
    | none => exact absurd rfl hget
    | some p => simp [State.setCpu, GetSite.next] at h
  | stop hl hdone | skip hl hdone | detach hl =>
    rw [hl]
    trivial
  | nextSlot o hl =>
    rw [hl]
    cases o with
    | none => trivial
    | some p => simp [State.setCpu] at h
  | ret o hl =>
    cases o with
    | none => simp [State.setCpu] at h
    | some p => simp [State.setCpu] at h
  | idle hl | free p hl hpc | put p mlq hl hpc ht hput | keep p hl hpc ht | scan b l l' mlq hl hres
  | dispatch p hl | run p hl => simp [State.setCpu] at h

/-- A process that is put back is counted for its CPU until this CPU gets one, and what is got is
gone from the queue. -/
theorem CpuMove.queued {os os' : State n} {k : Fin n} {a : Act}
    (hmove : CpuMove c .call os k a os') (hstart : AtStart os) (hstop : StopInv os) :
    (a = .get none → os'.mlq.queued = 0) ∧
      (os.mlq.queued ≤ os.puttingBack → os'.mlq.queued ≤ os'.puttingBack) := by
  have hcount := hmove.puttingBack
  cases hmove with
  | put p mlq hl hpc ht hput =>
    obtain ⟨hlt, hready⟩ := enqueueMlq_ok hput
    have hq := queued_update hlt hready
    rw [List.length_append, List.length_singleton] at hq
    rw [hl] at hcount
    simp only [CpuLoc.puttingBack, Act.isPut, Bool.toNat_true, Bool.toNat_false] at hcount
    refine ⟨by simp, fun hle => ?_⟩
    show mlq.queued ≤ _
    omega
  | get b l o mlq hl hget =>
    cases o with
    | none =>
      have hempty : mlq.queued = 0 := queued_eq_zero.mpr (queuesEmpty_of_get (hstart k b l hl) hget)
      refine ⟨fun _ => hempty, fun _ => ?_⟩
      show mlq.queued ≤ _
      rw [hempty]
      exact Nat.zero_le _
    | some p =>
      obtain ⟨i, rest, hi, hready⟩ := Grain.get_spec hget
      have hlt : i < maxPrio := by
        by_contra hno
        rw [hstop.bound i (not_lt.mp hno)] at hi
        cases hi
      have hq := queued_update hlt hready
      rw [hi, List.length_cons] at hq
      refine ⟨by simp, fun hle => ?_⟩
      show mlq.queued ≤ _
      have hone := Bool.toNat_le (os.cpu k).loc.puttingBack
      simp only [Act.isPut, Bool.toNat_false] at hcount
      omega
  | scan b l l' mlq hl hget => exact absurd hget fun hget => get_call_inl hget
  | idle hl | free p hl hpc | keep p hl hpc ht | stop hl hdone | skip hl hdone | dispatch p hl
  | run p hl | nextSlot o hl | ret o hl | detach hl =>
    rw [hl] at hcount
    exact ⟨by simp, fun hle => hle.trans (Nat.le_of_eq hcount.symm)⟩

/-- From the slot in which the loader has added all processes on, it adds none. -/
theorem not_add_of_time {time : ℕ} {a : LdAct} {φ : Barrier.Phase} (hinv : Inv c s.os)
    (hld : LdTime c time φ s.os.ld) (hmove : LdMove c s.os time a s'.os)
    (htime : c.loaderFree c.numProcesses ≤ time) : (Label.ld (n := n) time a).works = none := by
  cases a with
  | add p =>
    exfalso
    have hle := hinv.loaded_le
    generalize s'.os = os at hmove
    cases hmove with
    | add i mlq hl hadd =>
      rw [hl] at hle hld
      have hlt : time < c.loaderFree c.numProcesses := by
        rw [show time = c.addTime p from hld]
        exact addTime_lt_loaderFree c hle
      exact absurd htime (not_le.mpr hlt)
  | _ => rfl

theorem Drained.step (h : Drained c s) (hinv : Inv c s.os) (hstart : AtStart s.os)
    (hstop : StopInv s.os) (hsync : Sync s) (ht : Timer.Inv (n + 1) s.timer)
    (hld : LdTime c s.timer.time (s.timer.phase n) s.os.ld) {l : SysLabel n}
    (hst : s.exec c .call l = some s') : Drained c s' := by
  intro htime hidle
  obtain ⟨e, rfl, hnow, hos, hdev⟩ | ⟨te, rfl, hown, hos, hexec⟩ := System.exec_cases hst
  · obtain ⟨hsame, hphase⟩ := thread_timer ht hdev
    rw [hsame] at htime
    obtain ⟨k, a, rfl, hmove⟩ | ⟨time, a, rfl, hmove⟩ := moves_of_exec hos
    · obtain ⟨hnull, hkeep⟩ := hmove.queued hstart hstop
      by_cases hget : a = .get none
      · rw [hnull hget]
        exact Nat.zero_le _
      refine hkeep (h htime ?_)
      obtain ⟨k', hk'⟩ := hidle
      by_cases hkk : k' = k
      · subst hkk
        exact ⟨k', hk'.of_move hmove hget fun ha =>
          ht.phase_ret (exec_of_call hdev (by rw [ha]; rfl))⟩
      · exact ⟨k', hk'.congr (hmove.device.2.1 k' hkk) (hphase k' fun heq => hkk (Fin.ext heq))⟩
    · have heq : time = s.timer.time := by simpa [System.timeOk] using hnow
      subst heq
      have hcpu := (hmove.device n).1
      have hmlq := hmove.mlq_eq (not_add_of_time hinv hld hmove htime)
      rw [hmlq, State.puttingBack, hcpu]
      refine h htime ?_
      obtain ⟨k, hk⟩ := hidle
      exact ⟨k, hk.congr (congrFun hcpu k) (hphase k (ne_of_lt k.isLt))⟩
  · rw [hos]
    rw [Timer.time_exec hexec] at htime
    by_cases hne : te = .tick
    · subst hne
      -- only a CPU that has gone is idle at the beginning of a slot
      obtain ⟨k, hk⟩ := hidle
      have hgone : (s.os.cpu k).loc = .exited := by
        obtain ⟨-, ⟨⟨o, hl⟩, -, hrel⟩ | hl⟩ := cpu_of_tick hsync ht hst k
        · rw [CpuIdle, hos, hl] at hk
          cases o with
          | none =>
            rw [hrel] at hk
            cases hk
          | some p => exact hk.elim
        · exact hl
      have hdone : s.os.ld.Done := hstop.done.mp (hstop.stopped k (.inr hgone))
      refine h ?_ ⟨k, by rw [CpuIdle, hgone]; trivial⟩
      rcases hdone with hl | hl
      · rw [hl] at hld
        exact Nat.le_of_eq hld.symm
      · rw [hl] at hld
        exact hld
    · rw [if_neg hne] at htime
      have hphase := phase_ownStep ht hown hne hexec
      refine h htime ?_
      obtain ⟨k, hk⟩ := hidle
      exact ⟨k, hk.congr (by rw [hos]) (hphase k)⟩

end

theorem drained_of_run {tr : List (SysLabel c.numCpus)} {s : System c.numCpus}
    (h : (sysLts c .call).Run tr s) : Drained c s := by
  refine (h.history (I := fun tr s => (sysLts c .call).Run tr s ∧ Drained c s) ?_ ?_).2
  · rintro s rfl
    refine ⟨.init rfl, ?_⟩
    rintro - ⟨k, hk⟩
    exact hk.elim
  · rintro tr s l s' ⟨hrun, hs⟩ hst
    have hos := osRun_of_run hrun
    exact ⟨hrun.step hst, hs.step (inv_of_run hos) (atStart_of_run hos) (stopInv_of_run hos)
      (sync_of_run hrun) (Timer.inv_of_run (timerRun_of_run hrun)) (ldTime_of_run hrun) hst⟩

/-! ## No slower -/

/-- At the end of a slot all CPUs have run a process, or each process that is left has been run. -/
theorem busy_of_run {tr : List (SysLabel c.numCpus)} {s s' : System c.numCpus}
    (h : (sysLts c .call).Run tr s) (hst : s.exec c .call (.timer .tick) = some s')
    (htime : c.loaderFree c.numProcesses ≤ s.timer.time) : (workers c .call).Busy s := by
  have hr := reached_of_run h
  have hwait := cpu_of_tick hr.sync hr.timer hst
  by_cases hidle : ∃ k, CpuIdle s k
  · right
    intro p hp hleft
    rw [show (workers c .call).items = Finset.range c.numProcesses from rfl,
      Finset.mem_range] at hp
    have hempty : QueuesEmpty s.os.mlq := by
      have hzero : s.os.puttingBack = 0 := by
        refine Finset.sum_eq_zero fun k _ => ?_
        obtain ⟨-, ⟨⟨o, hl⟩, -⟩ | hl⟩ := hwait k
        · rw [hl]
          rfl
        · rw [hl]
          rfl
      exact queued_eq_zero.mp (Nat.le_zero.mp (hzero ▸ drained_of_run h htime hidle))
    have hadded : p < s.os.ld.added c := by
      by_contra hno
      have := (ldTime_of_run h).time_le hp (not_lt.mp hno)
      have := addTime_lt_loaderFree c hp
      omega
    have hfreed : s.os.freed p = false := by
      rw [← Bool.not_eq_true]
      intro hf
      refine hleft ?_
      show s.os.runsLeft c p = 0
      rw [State.runsLeft, todo_of_freed hadded hf]
      exact Nat.zero_sub _
    rcases hr.somewhere hadded hfreed with hq | ⟨k, hk⟩
    · exact absurd hempty hq
    · have hran : s.ran k = some p := by
        obtain ⟨-, ⟨⟨o, hl⟩, harr, -⟩ | hl⟩ := hwait k
        · rw [hl] at hk
          rw [System.ran, hl]
          exact (if_pos harr).trans hk
        · rw [hl] at hk
          cases hk
      refine Nat.le_antisymm (served_le_one hr.inv p) ?_
      calc 1 = if s.ran k = some p then 1 else 0 := (if_pos hran).symm
        _ ≤ ∑ k, if s.ran k = some p then 1 else 0 :=
          Finset.single_le_sum (f := fun k => if s.ran k = some p then 1 else 0)
            (fun _ _ => Nat.zero_le _) (Finset.mem_univ k)
  · left
    show ∑ p ∈ Finset.range c.numProcesses, s.served p = c.numCpus
    have hall : ∀ k, ∃ p < c.numProcesses, s.ran k = some p := by
      intro k
      obtain ⟨-, ⟨⟨o, hl⟩, harr, -⟩ | hl⟩ := hwait k
      · cases o with
        | none => exact absurd ⟨k, by rw [CpuIdle, hl]; exact harr⟩ hidle
        | some p =>
          have hran : s.ran k = some p := by
            rw [System.ran, hl]
            simp [harr]
          exact ⟨p, (hr.inv.todo_eq (held_of_ran hran)).1, hran⟩
      · exact absurd ⟨k, by rw [CpuIdle, hl]; trivial⟩ hidle
    rw [sum_served, Finset.sum_congr rfl fun k _ => if_pos (hall k)]
    simp

/-- When the slots since the loader has added the last process could hold all instructions, and on
every CPU all but one of the longest program, every program has been executed, whatever the
interleaving was. -/
theorem executed_by_listSchedule {tr : List (SysLabel c.numCpus)} {s : System c.numCpus}
    (h : (sysLts c .call).Run tr s) (longest : ℕ)
    (hlongest : ∀ p < c.numProcesses, c.runs p ≤ longest)
    (htime : ∑ p ∈ Finset.range c.numProcesses, c.runs p + c.numCpus * (longest - 1) ≤
      c.numCpus * (s.timer.time - c.loaderFree c.numProcesses)) :
    ∀ p < c.numProcesses, executed p (osTrace tr) = c.code p := by
  intro p hp
  have hleft := Greedy.Slotted.done_of_run (S := workers c .call) (fun tr s hrun => ⟨tr, hrun⟩)
    (c.loaderFree c.numProcesses) longest ?_
    (fun p hp => hlongest p (Finset.mem_range.mp hp)) h htime p (Finset.mem_range.mpr hp)
  · have hos := osRun_of_run h
    have hinv := inv_of_run hos
    obtain ⟨hadded, hend, -⟩ := hinv.pc_of_runsLeft hleft
    rw [(history_of_run hos).executed, hend, List.take_length]
    exact hinv.code_eq p (hadded.trans_le (s.os.ld.added_le_loaded c))
  · rintro s l s' ⟨tr, hrun⟩ hst hl htime
    rw [show (workers c .call).tick l = decide (l = .timer .tick) from rfl,
      decide_eq_true_eq] at hl
    subst hl
    exact busy_of_run hrun hst htime

theorem executed_by_listSchedule_lateProcess :
    (sysLts .lateProcess .call).Run (lateProcess 200).1 (lateProcess 200).2 ∧
    ∀ p < 3, executed p (osTrace (lateProcess 200).1) = Config.lateProcess.code p := by
  have hrun := run_lateProcess 200
  have htime : 6 + 2 * (3 - 1) ≤ 2 * ((lateProcess 200).2.timer.time - 5) := by decide +kernel
  have hwork : ∑ p ∈ Finset.range 3, Config.lateProcess.runs p = 6 := by decide
  have hfree : Config.lateProcess.loaderFree 3 = 5 := by decide
  rw [← hwork, ← hfree] at htime
  exact ⟨hrun, executed_by_listSchedule (c := .lateProcess) hrun 3 (by decide) htime⟩

end OsSim.Sched
