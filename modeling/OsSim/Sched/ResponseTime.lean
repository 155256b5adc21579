import OsSim.Sched.Deadline
import OsSim.Sched.Fairness
import OsSim.Sched.TimeSlice

/-!
# How long a process waits

A CPU that comes to `get_proc` while a process waits gets one, and it comes to `get_proc` again when
`time_left` has gone down to 0 (`cpu_routine` in `src/os.c`, lines 60–116), so with atomic calls it
dispatches a process once in `time_slot` slots. A process that waits is passed over by a bounded
number of dispatches, so it waits for a bounded number of slots, the fewer the more CPUs there are.

Results:
* `ready_step`: a process leaves its queue when it is dispatched.
* `CpuMove.slotsLeft`: how many slots pass before a CPU calls `get_proc`.
* `dispatched_in_slots`: how many slots a waiting process may have to wait for.
-/

namespace OsSim.Sched

variable {n : ℕ} {c : Config} {g : Grain}

/-! ## One CPU -/

/-- So often a CPU calls `next_slot` at most before it calls `get_proc`, or stops. -/
def Cpu.slotsLeft (timeSlot : ℤ) (q : Cpu) : ℕ :=
  match q.loc with
  | .top (some _) | .inSlot (some _) | .run _ => q.timeLeft.toNat
  | .recheck (some _) => if q.timeLeft = 0 then timeSlot.toNat else q.timeLeft.toNat
  | .slot (some _) => q.timeLeft.toNat + 1
  | .recheck none | .slot none => 1
  | _ => 0

/-- The slot that CPU `k` is in, or will be in when it returns from `next_slot`. -/
def System.slotOf (s : System n) (k : Fin n) : ℕ :=
  s.timer.time + if s.timer.phase k = .arrived then 1 else 0

/-- CPU `k` gets a process. -/
def SysLabel.dispatchOn (k : Fin n) : SysLabel n → Bool
  | .thread (.cpu k' (.get (some _))) => k' == k
  | _ => false

theorem dispatchOn_self (k : Fin n) (a : Act) :
    SysLabel.dispatchOn k (.thread (.cpu k a)) = (Label.cpu k a).isDispatch := by
  cases a with
  | get o => cases o <;> simp [SysLabel.dispatchOn, Label.isDispatch]
  | _ => rfl

/-- The CPUs that have not left their loops. -/
def State.running (s : State n) : Finset (Fin n) :=
  Finset.univ.filter fun k => ¬ (s.cpu k).loc.Stopped

section

variable {s s' : State n} {k : Fin n} {a : Act}

/-- As long as a process waits, each `get_proc` returns one. -/
theorem CpuMove.get_some {o : Option ℕ} (hmove : CpuMove c .call s k (.get o) s') (h : AtStart s)
    (hwait : ¬ QueuesEmpty s.mlq) : ∃ p, o = some p := by
  cases hmove with
  | get b l o mlq hl hget =>
    cases o with
    | some p => exact ⟨p, rfl⟩
    | none =>
      refine absurd (fun i hi => ?_) hwait
      have hready : mlq.ready = s.mlq.ready := Grain.get_spec hget
      rw [← hready]
      exact queuesEmpty_of_get (h k b l hl) hget i hi

theorem slotsLeft_le {t : ℤ} {loc : CpuLoc} (hslot : 1 ≤ c.timeSlot)
    (h : SliceTime c.timeSlot loc t) :
    Cpu.slotsLeft c.timeSlot ⟨loc, t⟩ ≤ c.timeSlot.toNat + 1 := by
  unfold Cpu.slotsLeft
  cases loc with
  | top o | slot o | inSlot o =>
    cases o
    all_goals
      simp only [SliceTime] at h ⊢
      omega
  | recheck o =>
    cases o
    all_goals simp only [SliceTime] at h ⊢
    · omega
    · split_ifs
      all_goals omega
  | run p =>
    simp only [SliceTime] at h ⊢
    omega
  | getting b l | stopped | exited => exact Nat.zero_le _

/-- A call of `next_slot` brings the next `get_proc` nearer, which gives the CPU a time slice. -/
theorem CpuMove.slotsLeft (hmove : CpuMove c .call s k a s') (h : AtStart s)
    (hwait : ¬ QueuesEmpty s.mlq) (htime : SliceTime c.timeSlot (s.cpu k).loc (s.cpu k).timeLeft) :
    (if a = .nextSlot then 1 else 0) + (s'.cpu k).slotsLeft c.timeSlot ≤
      (s.cpu k).slotsLeft c.timeSlot +
        c.timeSlot.toNat * (Label.cpu k a).isDispatch.toNat := by
  have hgot := fun o (ha : a = .get o) => CpuMove.get_some (ha ▸ hmove) h hwait
  cases hmove with
  | get b l o mlq hl hget =>
    obtain ⟨p, rfl⟩ := hgot o rfl
    rw [hl] at htime
    -- the process finds no time left of the one before
    have h0 : (if b = GetSite.finished then 0 else (s.cpu k).timeLeft) = 0 := by
      cases b with
      | finished => rfl
      | idle => exact htime
      | putBack => exact htime
    have hloc : b.next (some p) = .recheck (some p) := if_neg (by simp)
    rw [setCpu_self, h0, hloc]
    simp only [Cpu.slotsLeft, if_true, Label.isDispatch, Bool.toNat_true, reduceCtorEq, if_false]
    omega
  | scan b l l' mlq hl hget => exact absurd hget fun hget => get_call_inl hget
  | nextSlot o hl =>
    rw [setCpu_self, Cpu.slotsLeft, Cpu.slotsLeft, hl]
    cases o with
    | none => simp
    | some p => simp [Nat.add_comm]
  | run p hl =>
    rw [hl] at htime
    rw [setCpu_self, Cpu.slotsLeft, Cpu.slotsLeft, hl]
    simp only [SliceTime] at htime
    simp only [reduceCtorEq, if_false]
    omega
  | dispatch p hl =>
    rw [setCpu_self, Cpu.slotsLeft, Cpu.slotsLeft, hl]
    simp only [reduceCtorEq, if_false]
    split_ifs
    all_goals omega
  | keep p hl hpc ht =>
    rw [setCpu_self, Cpu.slotsLeft, Cpu.slotsLeft, hl]
    simp [ht]
  | ret o hl =>
    rw [setCpu_self, Cpu.slotsLeft, Cpu.slotsLeft, hl]
    cases o with
    | none => simp
    | some p => simp
  | idle hl | free p hl hpc | put p mlq hl hpc ht hput | stop hl hdone | skip hl hdone
  | detach hl =>
    rw [setCpu_self, Cpu.slotsLeft, Cpu.slotsLeft, hl]
    simp

theorem CpuMove.loc_inSlot {o : Option ℕ} (hmove : CpuMove c g s k a s')
    (h : (s'.cpu k).loc = .inSlot o) : a = .nextSlot := by
  cases hmove with
  | nextSlot o hl => rfl
  | get b l o mlq hl hget =>
    rw [setCpu_self] at h
    simp only [GetSite.next] at h
    split_ifs at h
  | _ =>
    rw [setCpu_self] at h
    cases h

theorem stopped_step {e : Label n} (hst : s.exec c g e = some s') (hk : (s.cpu k).loc.Stopped) :
    (s'.cpu k).loc.Stopped := by
  obtain ⟨k', a, rfl, hmove⟩ | ⟨time, a, rfl, hmove⟩ := moves_of_exec hst
  · by_cases hkk : k = k'
    · subst hkk
      cases hmove with
      | detach hl =>
        rw [setCpu_self]
        exact .inr rfl
      | idle hl | free p hl hpc | put p mlq hl hpc ht hput | keep p hl hpc ht
      | scan b l l' mlq hl hget | get b l o mlq hl hget | stop hl hdone | skip hl hdone
      | dispatch p hl | run p hl | nextSlot o hl | ret o hl =>
        rw [hl] at hk
        rcases hk with hk | hk
        all_goals cases hk
    · rwa [hmove.device.2.1 k hkk]
  · rwa [(hmove.device n).1]

/-- A process leaves its queue when it is dispatched. -/
theorem ready_step {e : Label n} (hst : s.exec c g e = some s') {i p : ℕ}
    (hp : p ∈ s.mlq.ready i) (hno : ∀ k, e ≠ .cpu k (.get (some p))) : p ∈ s'.mlq.ready i := by
  have hput : ∀ {m : Mlq} {q prio : ℕ}, enqueueMlq s.mlq q prio = .ok m → p ∈ m.ready i := by
    intro m q prio h
    rw [(enqueueMlq_ok h).2, Function.update_apply]
    split_ifs with hi
    · rw [← hi]
      exact List.mem_append_left _ hp
    · exact hp
  obtain ⟨k, a, rfl, hmove⟩ | ⟨time, a, rfl, hmove⟩ := moves_of_exec hst
  · cases hmove with
    | put q mlq hl hpc ht h => exact hput h
    | scan b l l' mlq hl hget =>
      have hready : mlq.ready = s.mlq.ready := Grain.get_spec hget
      exact hready ▸ hp
    | get b l o mlq hl hget =>
      cases o with
      | none =>
        have hready : mlq.ready = s.mlq.ready := Grain.get_spec hget
        exact hready ▸ hp
      | some q =>
        obtain ⟨j, rest, hj, hready⟩ := Grain.get_spec hget
        show p ∈ mlq.ready i
        rw [hready, Function.update_apply]
        split_ifs with hi
        · -- another process was the first of the queue
          rw [hi, hj] at hp
          refine (List.mem_cons.mp hp).resolve_left ?_
          rintro rfl
          exact hno k rfl
        · exact hp
    | _ => exact hp
  · cases hmove with
    | add q mlq hl h => exact hput h
    | _ => exact hp

end

/-! ## The slots -/

section

variable {tr0 tr : List (SysLabel c.numCpus)} {s s' : System c.numCpus}

/-- While a process waits, a CPU that goes on gets into no further slot but by its time slice. -/
theorem slotOf_step (hrun : (sysLts c .call).Run tr0 s) (hslot : 1 ≤ c.timeSlot)
    {l : SysLabel c.numCpus} (hst : s.exec c .call l = some s') (hwait : ¬ QueuesEmpty s.os.mlq)
    {k : Fin c.numCpus} (hk : ¬ (s'.os.cpu k).loc.Stopped) :
    s'.slotOf k + (s'.os.cpu k).slotsLeft c.timeSlot ≤
      s.slotOf k + (s.os.cpu k).slotsLeft c.timeSlot +
        c.timeSlot.toNat * (l.dispatchOn k).toNat := by
  have hr := reached_of_run hrun
  have hr' := reached_of_run (Lts.Run.step (L := sysLts c .call) hrun hst)
  -- the others leave the CPU and its device alone
  have hsame : s'.os.cpu k = s.os.cpu k → s'.timer.phase k = s.timer.phase k →
      s'.timer.time = s.timer.time → s'.slotOf k + (s'.os.cpu k).slotsLeft c.timeSlot ≤
      s.slotOf k + (s.os.cpu k).slotsLeft c.timeSlot +
        c.timeSlot.toNat * (l.dispatchOn k).toNat := by
    intro hcpu hphase htime
    rw [System.slotOf, System.slotOf, hcpu, hphase, htime]
    exact Nat.le_add_right ..
  obtain ⟨e, rfl, -, hos, hdev⟩ | ⟨te, rfl, hown, hos, hexec⟩ := System.exec_cases hst
  · obtain ⟨htime, hphase⟩ := thread_timer hr.timer hdev
    obtain ⟨k', a, rfl, hmove⟩ | ⟨time, a, rfl, hmove⟩ := moves_of_exec hos
    · by_cases hkk : k' = k
      · subst hkk
        have hslice := sliceInv_of_run hslot (cpuRun_of_run k' (osRun_of_run hrun))
        have hleft := hmove.slotsLeft hr.start hwait hslice.time
        have hnext : s'.slotOf k' ≤ s.slotOf k' + if a = .nextSlot then 1 else 0 := by
          rw [System.slotOf, System.slotOf, htime]
          by_cases harr : s'.timer.phase k' = .arrived
          · rcases hr'.sync.cpu_waits hr'.timer (.inl harr) with ⟨⟨o, hl⟩, -⟩ | hl
            · rw [if_pos (hmove.loc_inSlot hl)]
              split_ifs
              all_goals omega
            · exact absurd (.inr hl) hk
          · rw [if_neg harr]
            omega
        rw [dispatchOn_self]
        omega
      · exact hsame (hmove.device.2.1 k (Ne.symm hkk))
          (hphase k fun heq => hkk (Fin.ext heq).symm) htime
    · exact hsame (congrFun (hmove.device c.numCpus).1 k) (hphase k (ne_of_lt k.isLt)) htime
  · by_cases htick : te = .tick
    · subst htick
      obtain ⟨-, ⟨-, harr, hrel⟩ | hl⟩ := cpu_of_tick hr.sync hr.timer hst k
      · rw [System.slotOf, System.slotOf, harr, hrel, hos, Timer.time_exec hexec]
        simp
      · exact absurd (.inr (hos ▸ hl)) hk
    · refine hsame (by rw [hos]) (phase_ownStep hr.timer hown htick hexec k) ?_
      rw [Timer.time_exec hexec, if_neg htick]

theorem slotOf_of_path (hrun : (sysLts c .call).Run tr0 s) (hslot : 1 ≤ c.timeSlot)
    (hpath : (sysLts c .call).Path s tr s') {i p : ℕ} (hi : i < maxPrio)
    (hp : p ∈ s.os.mlq.ready i) (hno : ∀ k, .thread (.cpu k (.get (some p))) ∉ tr) :
    p ∈ s'.os.mlq.ready i ∧ ∀ k, ¬ (s'.os.cpu k).loc.Stopped →
      s'.slotOf k + (s'.os.cpu k).slotsLeft c.timeSlot ≤
        s.slotOf k + (s.os.cpu k).slotsLeft c.timeSlot +
          c.timeSlot.toNat * tr.countP (SysLabel.dispatchOn k) := by
  induction hpath with
  | nil => exact ⟨hp, fun k _ => Nat.le_add_right ..⟩
  | @snoc tr s1 s2 l hpath hst ih =>
    obtain ⟨hp1, hle⟩ := ih fun k hmem => hno k (List.mem_append_left _ hmem)
    have hwait : ¬ QueuesEmpty s1.os.mlq := fun hempty => by
      rw [hempty i hi] at hp1
      cases hp1
    refine ⟨?_, fun k hk => ?_⟩
    · obtain ⟨e, rfl, -, hos, -⟩ | ⟨te, -, -, hos, -⟩ := System.exec_cases hst
      · refine ready_step hos hp1 fun k heq => hno k ?_
        rw [heq]
        exact List.mem_append_right _ (List.mem_singleton_self _)
      · rwa [hos]
    · have hstep := slotOf_step (hrun.path hpath) hslot hst hwait hk
      have hgo : ¬ (s1.os.cpu k).loc.Stopped := by
        intro hstop
        refine hk ?_
        obtain ⟨e, rfl, -, hos, -⟩ | ⟨te, -, -, hos, -⟩ := System.exec_cases hst
        · exact stopped_step hos hstop
        · rwa [hos]
      have := hle k hgo
      rw [List.countP_append, List.countP_singleton, Nat.mul_add]
      cases hd : SysLabel.dispatchOn k l with
      | false =>
        rw [hd] at hstep
        simp only [Bool.toNat_false, Nat.mul_zero] at hstep
        simp only [Bool.false_eq_true, if_false]
        omega
      | true =>
        rw [hd] at hstep
        simp only [Bool.toNat_true] at hstep
        simp only [if_true]
        omega

end

/-- A dispatch is one of one CPU. -/
theorem sum_dispatchOn (A : Finset (Fin n)) (tr : List (SysLabel n)) :
    ∑ k ∈ A, tr.countP (SysLabel.dispatchOn k) ≤ (osTrace tr).countP Label.isDispatch := by
  induction tr with
  | nil => simp [osTrace]
  | cons l tr ih =>
    have hone : ∑ k ∈ A, (if SysLabel.dispatchOn k l then 1 else 0) ≤
        (osTrace [l]).countP Label.isDispatch := by
      unfold SysLabel.dispatchOn
      split
      · rename_i k' p
        simp only [beq_iff_eq, Finset.sum_ite_eq]
        split_ifs
        all_goals simp [osTrace, SysLabel.os, Label.isDispatch]
      · simp
    have hsplit : osTrace ([l] ++ tr) = osTrace [l] ++ osTrace tr := List.filterMap_append
    rw [List.singleton_append] at hsplit
    simp only [List.countP_cons, Finset.sum_add_distrib, hsplit, List.countP_append]
    omega

/-- With atomic calls, a process that waits at position `pre.length` of its queue is dispatched, or
the CPUs that have not left their loops have shared the dispatches that may go before it, one in
`time_slot` slots each. -/
theorem dispatched_in_slots {tr0 tr : List (SysLabel c.numCpus)} {s s' : System c.numCpus}
    (hrun : (sysLts c .call).Run tr0 s) (hpath : (sysLts c .call).Path s tr s')
    (hn : 0 < c.numCpus) (hslot : 1 ≤ c.timeSlot) {i p : ℕ} {pre post : List ℕ}
    (hi : i < maxPrio) (hwait : s.os.mlq.ready i = pre ++ p :: post) :
    (∃ k, .thread (.cpu k (.get (some p))) ∈ tr) ∨
      0 < s'.os.running.card ∧
        s'.os.running.card * (s'.timer.time - s.timer.time) <
          s'.os.running.card * (c.timeSlot.toNat + 2) +
            c.timeSlot.toNat * s.os.mlq.bypass i pre.length := by
  by_cases hgot : ∃ k, .thread (.cpu k (.get (some p))) ∈ tr
  · exact .inl hgot
  right
  push Not at hgot
  obtain ⟨hp, hle⟩ := slotOf_of_path hrun hslot hpath hi (by rw [hwait]; simp) hgot
  have hrun' := hrun.path hpath
  refine ⟨?_, ?_⟩
  · -- the last CPU does not stop while a process waits
    by_contra hnone
    have hempty : QueuesEmpty s'.os.mlq := by
      refine settled_of_run hrun' hn fun k => .inl ?_
      by_contra hk
      exact hnone (Finset.card_pos.mpr ⟨k, Finset.mem_filter.mpr ⟨Finset.mem_univ k, hk⟩⟩)
    rw [hempty i hi] at hp
    cases hp
  · have hfew : (osTrace tr).countP Label.isDispatch < s.os.mlq.bypass i pre.length := by
      have hinv := callInv_of_run (osRun_of_run hrun)
      refine (dispatch_of_path hinv (osPath_of_path hpath) hi hwait).resolve_right ?_
      rintro ⟨tr1, k, tr2, htr, -⟩
      have hmem : .cpu k (.get (some p)) ∈ osTrace tr := by
        rw [htr]
        simp
      obtain ⟨l, hl, hos⟩ := List.mem_filterMap.mp hmem
      cases l with
      | thread e =>
        cases hos
        exact hgot k hl
      | timer te => cases hos
    have heach : ∀ k ∈ s'.os.running, s'.timer.time - s.timer.time ≤
        (c.timeSlot.toNat + 2) + c.timeSlot.toNat * tr.countP (SysLabel.dispatchOn k) := by
      intro k hk
      have hslack := hle k (Finset.mem_filter.mp hk).2
      have hleft : (s.os.cpu k).slotsLeft c.timeSlot ≤ c.timeSlot.toNat + 1 :=
        slotsLeft_le hslot (sliceInv_of_run hslot (cpuRun_of_run k (osRun_of_run hrun))).time
      have hstart : s.slotOf k ≤ s.timer.time + 1 := by
        unfold System.slotOf
        split_ifs
        all_goals omega
      have hnow : s'.timer.time ≤ s'.slotOf k := Nat.le_add_right ..
      omega
    have hsum := Finset.sum_le_sum heach
    rw [Finset.sum_const, Finset.sum_add_distrib, Finset.sum_const, ← Finset.mul_sum, smul_eq_mul,
      smul_eq_mul] at hsum
    have hall := (sum_dispatchOn s'.os.running tr).trans_lt hfew
    have hlt : c.timeSlot.toNat * ∑ k ∈ s'.os.running, tr.countP (SysLabel.dispatchOn k) <
        c.timeSlot.toNat * s.os.mlq.bypass i pre.length :=
      Nat.mul_lt_mul_of_pos_left hall (by omega)
    omega

/-- Process 2 has been put back behind three others; two slots later it is dispatched. -/
theorem dispatched_in_slots_fiveProcesses :
    (fiveProcesses 107).2.os.mlq.ready 0 = [3, 1, 4, 2] ∧
    (fiveProcessesAfter 107 46).2.timer.time = (fiveProcesses 107).2.timer.time + 2 ∧
    ((∃ k, .thread (.cpu k (.get (some 2))) ∈ (fiveProcessesAfter 107 46).1) ∨
      0 < (fiveProcessesAfter 107 46).2.os.running.card ∧
        (fiveProcessesAfter 107 46).2.os.running.card *
            ((fiveProcessesAfter 107 46).2.timer.time - (fiveProcesses 107).2.timer.time) <
          (fiveProcessesAfter 107 46).2.os.running.card * (2 + 2) +
            2 * (fiveProcesses 107).2.os.mlq.bypass 0 3) := by
  have hready : (fiveProcesses 107).2.os.mlq.ready 0 = [3, 1, 4] ++ 2 :: [] := by decide +kernel
  have htime : (fiveProcessesAfter 107 46).2.timer.time = (fiveProcesses 107).2.timer.time + 2 := by
    decide +kernel
  have hslots := dispatched_in_slots (c := .fiveProcesses) (run_fiveProcesses 107)
    (path_fiveProcessesAfter 107 46) (by decide) (by decide) (by decide) hready
  -- the two states are not to be computed again
  generalize fiveProcesses 107 = r, fiveProcessesAfter 107 46 = r' at *
  exact ⟨hready, htime, hslots⟩

end OsSim.Sched
