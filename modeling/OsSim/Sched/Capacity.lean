import OsSim.Sched.System
import Mathlib.Data.List.Perm.Subperm

/-!
# Room in the ready queues

`proc->prio` is an index of `mlq_ready_queue`, which has `MAX_PRIO` queues of
`MAX_QUEUE_SIZE` entries. `read_config` reads any number of processes with any
priorities and rejects none of them, and `add_proc` and `put_proc` use the priority
as it is.

Results:
* `enqueueMlq_fails_iff`: when an `enqueue` would leave the arrays.
* `neverOverruns_iff`: for which configurations no order of steps leads there.
* `not_overruns_of_sysRun`: with the timer neither.
-/

namespace OsSim.Sched

/-! ## What is asked for -/

/-- The index is outside `mlq_ready_queue`, or the queue is full. -/
def Fails (res : Except PutError Mlq) : Prop := res = .error .outOfBounds ∨ res = .error .full

variable {n : ℕ}

/-- The loader or a CPU is about to put a process where there is no room. -/
def Overruns (s : State n) : Prop :=
  (∃ i, s.ld = .add i ∧ Fails (addMlqProc s.mlq i (s.pcb i).prio)) ∨
    ∃ k p, (s.cpu k).loc = .top (some p) ∧ (s.pcb p).pc ≠ (s.pcb p).code.length ∧
      (s.cpu k).timeLeft = 0 ∧ Fails (putMlqProc s.mlq p (s.pcb p).prio)

namespace Config

variable (c : Config)

/-- How many of the first `m` processes have priority `prio`. -/
def sharing (m prio : ℕ) : ℕ := (List.range m).countP fun i => c.prio i == prio

/-- Every priority has a queue, and no priority more processes than its queue has entries. -/
def Fits : Prop :=
  (∀ i < c.numProcesses, c.prio i < maxPrio) ∧
    ∀ prio, c.sharing c.numProcesses prio ≤ maxQueueSize

/-- There is room for process `i` behind all processes before it. -/
def Room (i : ℕ) : Prop := c.prio i < maxPrio ∧ c.sharing i (c.prio i) < maxQueueSize

instance (i : ℕ) : Decidable (c.Room i) := inferInstanceAs (Decidable (_ ∧ _))

theorem sharing_succ (m prio : ℕ) :
    c.sharing (m + 1) prio = c.sharing m prio + if c.prio m = prio then 1 else 0 := by
  simp [sharing, List.range_succ]

theorem fits_of_room (h : ∀ i < c.numProcesses, c.Room i) : c.Fits := by
  refine ⟨fun i hi => (h i hi).1, fun prio => ?_⟩
  have hle : ∀ m ≤ c.numProcesses, c.sharing m prio ≤ maxQueueSize := by
    intro m hm
    induction m with
    | zero => exact Nat.zero_le _
    | succ m ih =>
      rw [sharing_succ]
      split_ifs with hprio
      · have := (h m hm).2
        rw [hprio] at this
        omega
      · exact ih (by omega)
  exact hle _ le_rfl

end Config

/-! ## One `enqueue` -/

/-- While nobody is in a block of `queue_lock`, a process is put on its queue, unless there is no
such queue or it is full. -/
theorem enqueueMlq_fails_iff {s : Mlq} (hl : s.locked = false) (p prio : ℕ) :
    Fails (enqueueMlq s p prio) ↔ maxPrio ≤ prio ∨ (s.ready prio).length = maxQueueSize := by
  unfold Fails enqueueMlq
  rw [Mlq.ready, ← enqueue_eq_none_iff _ p]
  simp only [hl, Bool.false_eq_true, if_false]
  split_ifs with hprio
  · simp [hprio]
  · cases (s.mlqReadyQueue prio).enqueue p <;> simp [hprio]

theorem exists_enqueueMlq {s : Mlq} (hl : s.locked = false) {p prio : ℕ}
    (h : ¬ Fails (enqueueMlq s p prio)) :
    ∃ s', enqueueMlq s p prio = .ok s' ∧ s'.locked = false := by
  unfold Fails enqueueMlq at h
  unfold enqueueMlq
  simp only [hl, Bool.false_eq_true, if_false] at h ⊢
  split_ifs at h ⊢ with hprio
  · simp at h
  · cases hq : (s.mlqReadyQueue prio).enqueue p with
    | none => simp [hq] at h
    | some q => exact ⟨s.setQueue prio q, rfl, hl⟩

/-- If another thread is in the block, nothing is put. -/
theorem not_fails_of_locked {s : Mlq} (hl : s.locked = true) (p prio : ℕ) :
    ¬ Fails (enqueueMlq s p prio) := by
  unfold Fails enqueueMlq
  simp [hl]

theorem fails_imp {s : Mlq} {p prio : ℕ} (h : Fails (enqueueMlq s p prio)) :
    maxPrio ≤ prio ∨ (s.ready prio).length = maxQueueSize := by
  cases hl : s.locked with
  | false => exact (enqueueMlq_fails_iff hl p prio).mp h
  | true => exact absurd h (not_fails_of_locked hl p prio)

/-! ## Configurations that fit -/

section

variable {c : Config} {g : Grain} {s : State n}

/-- There is room for a process that is in no queue. -/
theorem Inv.room (h : Inv c s) (hfit : c.Fits) {p : ℕ} (hp : p < c.numProcesses)
    (hout : p ∉ s.mlq.ready (c.prio p)) : (s.mlq.ready (c.prio p)).length < maxQueueSize := by
  have hadded : ∀ q ∈ s.mlq.ready (c.prio p), q < c.numProcesses ∧ c.prio q = c.prio p := by
    intro q hq
    have hin := (inside_iff.mp (h.places.queued _ q hq)).1
    refine ⟨?_, h.places.home_eq _ q hq⟩
    exact lt_of_lt_of_le hin ((LdLoc.added_le_loaded c s.ld).trans h.loaded_le)
  have hnodup : (p :: s.mlq.ready (c.prio p)).Nodup :=
    List.nodup_cons.mpr ⟨hout, h.places.nodup (c.prio p)⟩
  have hsub : p :: s.mlq.ready (c.prio p) ⊆
      (List.range c.numProcesses).filter fun i => c.prio i == c.prio p := by
    intro q hq
    rw [List.mem_filter, List.mem_range, beq_iff_eq]
    rcases List.mem_cons.mp hq with rfl | hq
    · exact ⟨hp, rfl⟩
    · exact hadded q hq
  have hle := (List.subperm_of_subset hnodup hsub).length_le
  rw [← List.countP_eq_length_filter, List.length_cons] at hle
  exact lt_of_lt_of_le hle (hfit.2 (c.prio p))

theorem Inv.not_fails (h : Inv c s) (hfit : c.Fits) {p : ℕ} (hp : p < s.ld.loaded c)
    (hout : p ∉ s.mlq.ready (c.prio p)) : ¬ Fails (enqueueMlq s.mlq p (s.pcb p).prio) := by
  intro hfail
  have hlt := lt_of_lt_of_le hp h.loaded_le
  have hroom := h.room hfit hlt hout
  rw [h.prio_eq p hp] at hfail
  obtain hprio | hfull := fails_imp hfail
  · exact absurd (hfit.1 p hlt) (not_lt.mpr hprio)
  · omega

/-- The loader adds processes that are in no queue, and a CPU puts back the one that it holds. -/
theorem Inv.not_overruns (h : Inv c s) (hfit : c.Fits) : ¬ Overruns s := by
  rintro (⟨i, hl, hfail⟩ | ⟨k, p, hl, -, -, hfail⟩)
  · refine h.not_fails hfit (by rw [hl]; exact Nat.lt_succ_self i) ?_ hfail
    intro hq
    have hin := (inside_iff.mp (h.places.queued _ i hq)).1
    rw [hl] at hin
    exact lt_irrefl i hin
  · have hk : (s.cpu k).loc.proc = some p := by rw [hl]; rfl
    have hp := (h.of_held hk).1
    exact h.not_fails hfit (lt_of_lt_of_le hp (LdLoc.added_le_loaded c s.ld))
      (h.places.apart k p hk) hfail

end

/-! ## The loader on its own -/

section

variable {c : Config} {g : Grain} {s : State c.numCpus}

/-- The loader has added the first `i` processes, and no CPU has done anything. -/
structure Alone (c : Config) (i : ℕ) (s : State n) : Prop where
  ld : s.ld = .loop i
  locked : s.mlq.locked = false
  ready : ∀ prio, (s.mlq.ready prio).length = c.sharing i prio

/-- Process `i` has been loaded, and its start time has come. -/
def State.loaded (c : Config) (i : ℕ) (s : State n) : State n :=
  { s with
    pcb := Function.update s.pcb i { code := c.code i, pc := 0, prio := c.prio i }
    ld := .add i }

/-- The loader goes on to `add_proc`, at the time that it waits for. -/
theorem Alone.load {i : ℕ} (h : Alone c i s) (hi : i < c.numProcesses) (g : Grain) :
    ∃ tr, (osLts c g).Path s tr (s.loaded c i) := by
  refine ⟨[.ld 0 .step, .ld (c.startTime i) .step],
    .cons (show (osLts c g).step s _ { s.loaded c i with ld := .test i } from ?_) (.single ?_)⟩
  · show State.exec c g s (.ld 0 .step) = _
    simp only [State.exec, State.ldStep, h.ld, if_pos hi, if_true, State.loaded]
  · show State.exec c g _ (.ld (c.startTime i) .step) = _
    simp only [State.exec, State.ldStep, lt_self_iff_false, if_false, if_true, State.loaded]

/-- It adds the process if there is room, and stands before the next one. -/
theorem Alone.next {i : ℕ} (h : Alone c i s) (hi : i < c.numProcesses) (hroom : c.Room i)
    (g : Grain) : ∃ tr s', (osLts c g).Path s tr s' ∧ Alone c (i + 1) s' := by
  obtain ⟨tr, hpath⟩ := h.load hi g
  have hprio : ((s.loaded c i).pcb i).prio = c.prio i := by simp [State.loaded]
  have hno : ¬ Fails (addMlqProc s.mlq i (c.prio i)) := by
    rw [addMlqProc, enqueueMlq_fails_iff h.locked, h.ready]
    rintro (hout | hfull)
    · exact absurd hroom.1 (not_lt.mpr hout)
    · exact absurd hroom.2 hfull.symm.not_gt
  obtain ⟨mlq, hadd, hlocked⟩ := exists_enqueueMlq h.locked hno
  have hready := (enqueueMlq_ok hadd).2
  refine ⟨tr ++ [.ld 0 (.add i), .ld 0 .nextSlot, .ld 0 .ret],
    { s.loaded c i with mlq := mlq, ld := .loop (i + 1) }, hpath.trans ?_, rfl, hlocked, ?_⟩
  · refine .cons (show (osLts c g).step _ _
        { s.loaded c i with mlq := mlq, ld := .slot .added (i + 1) } from ?_)
      (.cons (show (osLts c g).step _ _
        { s.loaded c i with mlq := mlq, ld := .inSlot .added (i + 1) } from ?_) (.single ?_))
    · show State.exec c g _ (.ld 0 (.add i)) = _
      have hadd' : addMlqProc (s.loaded c i).mlq i ((s.loaded c i).pcb i).prio = .ok mlq := by
        rw [hprio]
        exact hadd
      simp only [State.exec, State.ldStep, show (s.loaded c i).ld = .add i from rfl, hadd', if_true]
    · rfl
    · rfl
  · intro prio
    show (mlq.ready prio).length = _
    rw [hready, c.sharing_succ, ← h.ready, Function.update_apply]
    split_ifs with heq1 heq2 heq2
    · rw [List.length_append, heq1]
      rfl
    · exact absurd heq1.symm heq2
    · exact absurd heq2.symm heq1
    · rfl

theorem exists_alone (g : Grain) {i : ℕ} (hi : i ≤ c.numProcesses) (hroom : ∀ j < i, c.Room j) :
    ∃ tr s, (osLts c g).Run tr s ∧ Alone c i s := by
  induction i with
  | zero => exact ⟨[], _, .init rfl, rfl, rfl, fun prio => rfl⟩
  | succ i ih =>
    obtain ⟨tr, s, hrun, halone⟩ := ih (by omega) fun j hj => hroom j (by omega)
    obtain ⟨tr', s', hpath, halone'⟩ := halone.next (by omega) (hroom i (by omega)) g
    exact ⟨_, s', hrun.path hpath, halone'⟩

/-- The first process for which there is no room. -/
theorem exists_overrun (g : Grain) (h : ¬ c.Fits) :
    ∃ tr s, (osLts c g).Run tr s ∧ Overruns s := by
  have hex : ∃ i, i < c.numProcesses ∧ ¬ c.Room i := by
    by_contra hno
    exact h (c.fits_of_room fun i hi => by_contra fun hr => hno ⟨i, hi, hr⟩)
  obtain ⟨i, ⟨hi, hno⟩, hleast⟩ : ∃ i, (i < c.numProcesses ∧ ¬ c.Room i) ∧
      ∀ j < i, ¬ (j < c.numProcesses ∧ ¬ c.Room j) :=
    ⟨Nat.find hex, Nat.find_spec hex, fun j hj => Nat.find_min hex hj⟩
  have hroom : ∀ j < i, c.Room j := fun j hj =>
    not_not.mp fun hr => hleast j hj ⟨by omega, hr⟩
  obtain ⟨tr, s, hrun, halone⟩ := exists_alone g hi.le hroom
  obtain ⟨tr', hpath⟩ := halone.load hi g
  refine ⟨_, _, hrun.path hpath, .inl ⟨i, rfl, ?_⟩⟩
  have hprio : ((s.loaded c i).pcb i).prio = c.prio i := by simp [State.loaded]
  rw [hprio]
  show Fails (addMlqProc s.mlq i (c.prio i))
  rw [addMlqProc, enqueueMlq_fails_iff halone.locked, halone.ready]
  by_cases hout : c.prio i < maxPrio
  · -- the queue has been filled up one by one
    right
    have hge : maxQueueSize ≤ c.sharing i (c.prio i) := not_lt.mp fun hlt => hno ⟨hout, hlt⟩
    refine Nat.le_antisymm ?_ hge
    rw [← halone.ready, Mlq.ready, length_toList]
    exact Queue.size_le _
  · exact .inl (not_lt.mp hout)

end

/-! ## All orders of steps -/

/-- No order of the steps of CPUs and loader over-runs the array of queues or a queue, exactly if
the priorities are below `MAX_PRIO` and at most `MAX_QUEUE_SIZE` processes have the same one. -/
theorem neverOverruns_iff (c : Config) (g : Grain) :
    (∀ tr s, (osLts c g).Run tr s → ¬ Overruns s) ↔ c.Fits := by
  constructor
  · intro h
    by_contra hno
    obtain ⟨tr, s, hrun, hover⟩ := exists_overrun g hno
    exact h tr s hrun hover
  · exact fun hfit tr s hrun => (inv_of_run hrun).not_overruns hfit

/-- A process with priority `MAX_PRIO`, which `read_config` accepts: the loader gets to `add_proc`
with it. -/
theorem overruns_maxPrio : ∃ tr s,
    (osLts ⟨2, 1, [⟨[⟨.CALC, 0, 0, 0⟩], 0, 140⟩]⟩ .access).Run tr s ∧ Overruns s :=
  exists_overrun .access fun hfit => absurd (hfit.1 0 (by decide)) (by decide)

/-- With the timer there are fewer orders, and none of them over-runs a queue either. -/
theorem not_overruns_of_sysRun {c : Config} {g : Grain} (hfit : c.Fits)
    {tr : List (SysLabel c.numCpus)} {s : System c.numCpus} (h : (sysLts c g).Run tr s) :
    ¬ Overruns s.os :=
  (inv_of_run (osRun_of_run h)).not_overruns hfit

end OsSim.Sched
