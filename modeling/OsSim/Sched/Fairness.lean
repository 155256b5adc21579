import OsSim.Lib.Quotas
import Mathlib.Algebra.BigOperators.Fin
import OsSim.Sched.Policy
import OsSim.Sched.Shutdown
import OsSim.Sched.Stranded

/-!
# No process starves

`get_mlq_proc` prefers low queue numbers, and every dispatch uses up one unit of the
queue's `slot`; `set_slot_for_queue` gives all units back when no queue with a process has
one left (`src/sched.c`, lines 53–126). So the ready queues of a run in which calls are
atomic are queues that share turns by quotas, `MAX_PRIO - prio` for priority `prio`, and a
process is dispatched after a bounded number of dispatches, whatever is put on the queues
in the meantime.

Results:
* `getMlqProc_turn`: an atomic call is a turn of one queue.
* `quotasPath_of_path`: paths of the threads are paths of `Quotas.lts`.
* `dispatched_within`: how many dispatches a waiting process may have to wait for.
-/

namespace OsSim.Sched

open Quotas (Refilled)

/-! ## One call -/

/-- What an atomic call of `get_mlq_proc` does. -/
inductive GetTurn (s : Mlq) : Mlq × Option ℕ → Prop
  | null : (∀ i < maxPrio, s.ready i = []) → GetTurn s (s, none)
  | turn (s1 s' : Mlq) (i p : ℕ) : i < maxPrio →
      s1 = s ∨ s1 = s.resetSlots ∧ (∀ j < maxPrio, ¬ s.Eligible j) →
      0 < s1.slot i → s1.Takes s' i p → GetTurn s (s', some p)

theorem getMlqProc_turn {s : Mlq} (hfree : s.locked = false) :
    ∃ r, getMlqProc s = some r ∧ GetTurn s r := by
  by_cases hel : ∃ i < maxPrio, s.Eligible i
  · obtain ⟨i, hi, he, hfirst⟩ := exists_least hel
    obtain ⟨k, hk, s', p, htakes, hret⟩ := returns_takes hfree hi he hfirst
    exact ⟨_, getMlqProc_of_returns (by omega) hret, .turn s s' i p hi (.inl rfl) he.2 htakes⟩
  · have hno : ∀ i < maxPrio, ¬ s.Eligible i := fun i hi he => hel ⟨i, hi, he⟩
    by_cases hwait : s.Waiting
    · obtain ⟨i, hi, hne, hfirst⟩ := exists_least hwait
      obtain ⟨k, hk, hlock⟩ := leads_lockReset_of_used (Mlq.usedUp_of_not_eligible hno) hwait
      have he : s.resetSlots.Eligible i := by
        refine ⟨hne, ?_⟩
        simp only [Mlq.resetSlots, hi, if_true]
        omega
      have hfirst' : ∀ j < i, ¬ s.resetSlots.Eligible j := fun j hj hej => hfirst j hj hej.1
      obtain ⟨k', hk', s', p, htakes, hret⟩ :=
        returns_takes (s := s.resetSlots) hfree hi he hfirst'
      have hall := (hlock.trans (leads_resetSlots hfree)).returns hret
      exact ⟨_, getMlqProc_of_returns (by omega) hall,
        .turn s.resetSlots s' i p hi (.inr ⟨rfl, hno⟩) he.2 htakes⟩
    · have hnil : ∀ i < maxPrio, s.ready i = [] := fun i hi =>
        not_not.mp fun hne => hwait ⟨i, hi, hne⟩
      obtain ⟨k, hk, hret⟩ := returns_null hnil
      exact ⟨_, getMlqProc_of_returns (by omega) hret, .null hnil⟩

/-- A call leaves the lock free. -/
theorem runGet_unlocked {fuel : ℕ} {s s' : Mlq} {l : GetLoc} {o : Option ℕ}
    (hl : s.locked = true → ∃ i, l = .reset i) (h : runGet fuel s l = some (s', o)) :
    s'.locked = false := by
  induction fuel generalizing s l with
  | zero => cases h
  | succ fuel ih =>
    have hno : ∀ {s1 : Mlq} {r : GetLoc ⊕ Option ℕ}, l.step s = some (s1, r) →
        s1.locked = true → ∃ i, r = .inl (.reset i) := by
      intro s1 r hst hlock
      obtain hr | ⟨hold, hne⟩ := GetLoc.step_locked hst hlock
      · exact hr
      · obtain ⟨i, rfl⟩ := hl hold
        exact absurd rfl (hne i)
    unfold runGet at h
    split at h
    · cases h
    · rename_i s1 l1 hst
      refine ih (fun hlock => ?_) h
      obtain ⟨i, hi⟩ := hno hst hlock
      exact ⟨i, Sum.inl.inj hi⟩
    · rename_i hst
      cases h
      rw [← Bool.not_eq_true]
      intro hlock
      obtain ⟨i, hi⟩ := hno hst hlock
      cases hi

theorem Mlq.SlotsOk.resetSlots (s : Mlq) : s.resetSlots.SlotsOk := by
  intro i hi
  simp only [Mlq.resetSlots, hi, if_true]
  omega

theorem GetTurn.slotsOk {s s' : Mlq} {o : Option ℕ} (h : GetTurn s (s', o)) (hs : s.SlotsOk) :
    s'.SlotsOk := by
  cases h with
  | null _ => exact hs
  | turn s1 _ i p hi hfrom hpos htakes =>
    have h1 : s1.SlotsOk := by
      obtain rfl | ⟨rfl, -⟩ := hfrom
      · exact hs
      · exact .resetSlots s
    exact h1.decrement hpos htakes.slot

/-! ## Queues that share turns -/

/-- `MAX_PRIO - prio`. -/
def quota (i : Fin maxPrio) : ℕ := maxPrio - i

/-- The ready queues and what is left of their slots. -/
def Mlq.quotas (s : Mlq) : Quotas.State (Fin maxPrio) ℕ where
  ready i := s.ready i
  credit i := (s.slot i).toNat

theorem Mlq.Takes.ready {s s' : Mlq} {i p : ℕ} (h : s.Takes s' i p) :
    ∃ rest, s.ready i = p :: rest ∧ s'.ready = Function.update s.ready i rest := by
  obtain ⟨rest, hhead, hrest⟩ := h.queue
  refine ⟨rest, hhead, funext fun j => ?_⟩
  rw [Function.update_apply]
  split_ifs with hj
  · exact hj ▸ hrest
  · exact congrArg Queue.toList (h.others j hj)

/-- A dispatch is a turn of one queue. -/
theorem GetTurn.step {s s' : Mlq} {p : ℕ} (h : GetTurn s (s', some p)) (hs : s.SlotsOk) :
    ∃ i : Fin maxPrio, p ∈ s.ready i ∧ Quotas.Step quota s.quotas (.take i p) s'.quotas := by
  cases h with
  | turn s1 _ i p hi hfrom hpos htakes =>
    have hready1 : s1.ready = s.ready := by
      obtain rfl | ⟨rfl, -⟩ := hfrom
      · rfl
      · rfl
    have hre : Refilled quota s.quotas s1.quotas.credit := by
      obtain rfl | ⟨rfl, hno⟩ := hfrom
      · exact .keep
      · have hfull : s.resetSlots.quotas.credit = quota := by
          funext j
          simp only [Mlq.quotas, Mlq.resetSlots, j.isLt, if_true, quota]
          omega
        rw [hfull]
        refine .refill fun j hne => ?_
        have := (hs j j.isLt).1
        have : ¬ 0 < s.slot j := fun hslot => hno j j.isLt ⟨hne, hslot⟩
        simp only [Mlq.quotas]
        omega
    obtain ⟨rest, hhead, hrest⟩ := htakes.ready
    rw [hready1] at hhead hrest
    refine ⟨⟨i, hi⟩, by rw [hhead]; exact List.mem_cons_self, ?_⟩
    have hs' : s'.quotas = ⟨Function.update s.quotas.ready ⟨i, hi⟩ rest,
        Function.update s1.quotas.credit ⟨i, hi⟩ (s1.quotas.credit ⟨i, hi⟩ - 1)⟩ := by
      unfold Mlq.quotas
      congr 1
      · funext j
        rw [hrest]
        simp [Function.update_apply, Fin.ext_iff]
      · funext j
        simp only [htakes.slot, Function.update_apply, Fin.ext_iff]
        split_ifs with hj
        · omega
        · rfl
    rw [hs']
    refine .take _ _ _ _ hhead hre ?_
    simp only [Mlq.quotas]
    omega

/-- `put_mlq_proc` and `add_mlq_proc`. -/
theorem quotas_enqueueMlq {s s' : Mlq} {p prio : ℕ} (h : enqueueMlq s p prio = .ok s') :
    ∃ hprio : prio < maxPrio, Quotas.Step quota s.quotas (.enter ⟨prio, hprio⟩ p) s'.quotas := by
  obtain ⟨hprio, hready⟩ := enqueueMlq_ok h
  have hs' : s'.quotas = ⟨Function.update s.quotas.ready ⟨prio, hprio⟩
      (s.quotas.ready ⟨prio, hprio⟩ ++ [p]), s.quotas.credit⟩ := by
    unfold Mlq.quotas
    congr 1
    · funext j
      rw [hready]
      simp [Function.update_apply, Fin.ext_iff]
    · rw [enqueueMlq_slot h]
  rw [hs']
  exact ⟨hprio, .enter _ _⟩

/-! ## The threads -/

variable {c : Config} {n : ℕ}

/-- The queue of a process. -/
def Config.queueOf (c : Config) (p : ℕ) : Fin maxPrio :=
  ⟨c.prio p % maxPrio, Nat.mod_lt _ (by decide)⟩

/-- What a step of a thread does to the queues. -/
def Label.quotas (c : Config) : Label n → Option (Quotas.Event (Fin maxPrio) ℕ)
  | .cpu _ (.put p) => some (.enter (c.queueOf p) p)
  | .cpu _ (.get (some p)) => some (.take (c.queueOf p) p)
  | .ld _ (.add p) => some (.enter (c.queueOf p) p)
  | _ => none

/-- What holds between atomic calls. -/
structure CallInv (c : Config) (s : State n) : Prop where
  inv : Inv c s
  start : AtStart s
  free : s.mlq.locked = false
  slots : s.mlq.SlotsOk

theorem queueOf_eq {p prio : ℕ} (hprio : prio < maxPrio) (h : c.prio p = prio) :
    c.queueOf p = ⟨prio, hprio⟩ := by
  apply Fin.ext
  show c.prio p % maxPrio = prio
  rw [h, Nat.mod_eq_of_lt hprio]

theorem get_call {m m' : Mlq} {l : GetLoc} {o : Option ℕ} (hl : l = .start)
    (hfree : m.locked = false) (h : Grain.call.get m l = some (m', .inr o)) :
    GetTurn m (m', o) ∧ m'.locked = false := by
  subst hl
  obtain ⟨⟨m1, o1⟩, hrun, heq⟩ := Option.map_eq_some_iff.mp h
  cases heq
  obtain ⟨r, hr, hturn⟩ := getMlqProc_turn hfree
  obtain rfl := Option.some.inj (hr.symm.trans hrun)
  exact ⟨hturn, runGet_unlocked (by simp [hfree]) hrun⟩

/-- A process that is put on a queue is put on its own. -/
theorem enqueue_step {s : State n} (h : CallInv c s) {m' : Mlq} {p : ℕ}
    (hp : p < s.ld.loaded c) (hput : enqueueMlq s.mlq p (s.pcb p).prio = .ok m') :
    (m'.locked = false ∧ m'.SlotsOk) ∧
      Quotas.Step quota s.mlq.quotas (.enter (c.queueOf p) p) m'.quotas := by
  obtain ⟨hprio, hstep⟩ := quotas_enqueueMlq hput
  refine ⟨⟨locked_of_put hput, ?_⟩, ?_⟩
  · rw [Mlq.SlotsOk, enqueueMlq_slot hput]
    exact h.slots
  · rwa [queueOf_eq hprio (h.inv.prio_eq p hp).symm]

/-- A step of a thread is a turn, puts a process on its queue, or leaves the queues as they are. -/
theorem mlq_step {s s' : State n} {e : Label n} (h : CallInv c s)
    (hst : s.exec c .call e = some s') : (s'.mlq.locked = false ∧ s'.mlq.SlotsOk) ∧
      ((∃ b, e.quotas c = some b ∧ Quotas.Step quota s.mlq.quotas b s'.mlq.quotas) ∨
        (e.quotas c = none ∧ s'.mlq.quotas = s.mlq.quotas)) := by
  obtain ⟨k, a, rfl, hmove⟩ | ⟨time, a, rfl, hmove⟩ := moves_of_exec hst
  · cases hmove with
    | put p mlq hl hpc ht hput =>
      have hheld := (h.inv.of_held (k := k) (p := p) (by rw [hl]; rfl)).1
      obtain ⟨hok, hstep⟩ :=
        enqueue_step h (hheld.trans_le (LdLoc.added_le_loaded c s.ld)) hput
      exact ⟨hok, .inl ⟨_, rfl, hstep⟩⟩
    | scan b l l' mlq hl hget => exact absurd hget fun hget => get_call_inl hget
    | get b l o mlq hl hget =>
      obtain ⟨hturn, hfree⟩ := get_call (h.start k b l hl) h.free hget
      refine ⟨⟨hfree, hturn.slotsOk h.slots⟩, ?_⟩
      cases o with
      | none =>
        cases hturn
        exact .inr ⟨rfl, rfl⟩
      | some p =>
        obtain ⟨i, hmem, hstep⟩ := hturn.step h.slots
        refine .inl ⟨_, rfl, ?_⟩
        rwa [queueOf_eq i.isLt (h.inv.places.home_eq i p hmem)]
    | _ => exact ⟨⟨h.free, h.slots⟩, .inr ⟨rfl, rfl⟩⟩
  · cases hmove with
    | add i mlq hl hadd =>
      obtain ⟨hok, hstep⟩ := enqueue_step h (by rw [hl]; exact Nat.lt_succ_self i) hadd
      exact ⟨hok, .inl ⟨_, rfl, hstep⟩⟩
    | _ => exact ⟨⟨h.free, h.slots⟩, .inr ⟨rfl, rfl⟩⟩

theorem quotas_step {s s' : State n} {e : Label n} (h : CallInv c s)
    (hst : s.exec c .call e = some s') : CallInv c s' ∧
      ((∃ b, e.quotas c = some b ∧ Quotas.Step quota s.mlq.quotas b s'.mlq.quotas) ∨
        (e.quotas c = none ∧ s'.mlq.quotas = s.mlq.quotas)) := by
  obtain ⟨⟨hfree, hslots⟩, hstep⟩ := mlq_step h hst
  exact ⟨⟨h.inv.exec hst, h.start.step hst, hfree, hslots⟩, hstep⟩

theorem callInv_of_run {tr : List (Label c.numCpus)} {s : State c.numCpus}
    (h : (osLts c .call).Run tr s) : CallInv c s := by
  refine h.invariant ?_ ?_
  · rintro s rfl
    refine ⟨inv_init c, fun k b l hl => (by cases hl), rfl, ?_⟩
    intro i hi
    simp only [State.init, Mlq.init]
    omega
  · intro s e s' hs hst
    exact (quotas_step hs hst).1

/-- Paths of the threads are paths of the queues. -/
theorem quotasPath_of_path {tr : List (Label c.numCpus)} {s s' : State c.numCpus}
    (hs : CallInv c s) (h : (osLts c .call).Path s tr s') :
    (Quotas.lts ℕ quota).Path s.mlq.quotas (tr.filterMap (Label.quotas c)) s'.mlq.quotas := by
  refine (Lts.Path.project (I := CallInv c) (fun s => s.mlq.quotas) _ ?_ h hs).2
  intro s e s' hs hst
  exact quotas_step hs hst

/-! ## The wait of a process -/

/-- `get_proc` returns a process. -/
def Label.isDispatch : Label n → Bool
  | .cpu _ (.get (some _)) => true
  | _ => false

/-- How many dispatches the process at position `k` of queue `i` may have to wait for, its own
included: all units of the slots that are left now, and of every round until its queue has had
`k + 1` turns. -/
def Mlq.bypass (s : Mlq) (i k : ℕ) : ℕ :=
  ∑ j ∈ Finset.range maxPrio, (s.slot j).toNat +
    (∑ j ∈ Finset.range maxPrio, (maxPrio - j)) *
      ((k + (maxPrio - i) - (s.slot i).toNat) / (maxPrio - i))

theorem bypass_eq (s : Mlq) (i : Fin maxPrio) (k : ℕ) :
    s.bypass i k = Quotas.bound quota s.quotas.credit i k := by
  unfold Mlq.bypass Quotas.bound
  rw [← Fin.sum_univ_eq_sum_range fun j => (s.slot j).toNat,
    ← Fin.sum_univ_eq_sum_range fun j => maxPrio - j]
  rfl

theorem countP_quotas (tr : List (Label n)) :
    (tr.filterMap (Label.quotas c)).countP Quotas.Event.isTake = tr.countP Label.isDispatch := by
  rw [List.countP_filterMap]
  congr 1
  funext e
  cases e with
  | cpu k a =>
    cases a with
    | get o => cases o <;> rfl
    | _ => rfl
  | ld time a => cases a <;> rfl

/-- A turn of the queues is a dispatch. -/
theorem dispatch_of_take {e : Label n} {i : Fin maxPrio} {p : ℕ}
    (h : e.quotas c = some (.take i p)) : ∃ k, e = .cpu k (.get (some p)) := by
  unfold Label.quotas at h
  split at h
  all_goals cases h
  exact ⟨_, rfl⟩

/-- A process that waits is dispatched before there have been `bypass` dispatches. -/
theorem dispatch_of_path {tr : List (Label c.numCpus)} {s s' : State c.numCpus}
    (hinv : CallInv c s) (hpath : (osLts c .call).Path s tr s') {i p : ℕ} {pre post : List ℕ}
    (hi : i < maxPrio) (hwait : s.mlq.ready i = pre ++ p :: post) :
    tr.countP Label.isDispatch < s.mlq.bypass i pre.length ∨
      ∃ tr1 k tr2, tr = tr1 ++ .cpu k (.get (some p)) :: tr2 ∧
        tr1.countP Label.isDispatch < s.mlq.bypass i pre.length := by
  have hq : 0 < quota ⟨i, hi⟩ := by
    simp only [quota]
    omega
  rw [show s.mlq.bypass i pre.length = _ from bypass_eq s.mlq ⟨i, hi⟩ pre.length]
  obtain hlt | ⟨tr1, tr2, htr, hlt⟩ :=
    Quotas.taken_of_path hq (quotasPath_of_path hinv hpath) ⟨post, hwait⟩
  · rw [countP_quotas] at hlt
    exact .inl hlt
  · obtain ⟨l1, l2, rfl, rfl, hl2⟩ := List.filterMap_eq_append_iff.mp htr
    obtain ⟨m1, e, m2, rfl, hm1, he, -⟩ := List.filterMap_eq_cons_iff.mp hl2
    obtain ⟨k, rfl⟩ := dispatch_of_take he
    refine .inr ⟨l1 ++ m1, k, m2, by simp, ?_⟩
    rw [← countP_quotas (c := c), List.filterMap_append,
      List.filterMap_eq_nil_iff.mpr hm1, List.append_nil]
    exact hlt

/-- With atomic calls, a process that waits at position `pre.length` of its queue is dispatched
before there have been `bypass` dispatches, in every run and whatever the other processes do. -/
theorem dispatched_within {tr0 tr : List (Label c.numCpus)} {s s' : State c.numCpus}
    (hrun : (osLts c .call).Run tr0 s) (hpath : (osLts c .call).Path s tr s') {i p : ℕ}
    {pre post : List ℕ} (hi : i < maxPrio) (hwait : s.mlq.ready i = pre ++ p :: post) :
    (tr.countP Label.isDispatch < s.mlq.bypass i pre.length ∨
      ∃ tr1 k tr2, tr = tr1 ++ .cpu k (.get (some p)) :: tr2 ∧
        tr1.countP Label.isDispatch < s.mlq.bypass i pre.length) ∧
    s.mlq.bypass i pre.length ≤ 9870 * (pre.length / (maxPrio - i) + 2) := by
  have hinv := callInv_of_run hrun
  refine ⟨dispatch_of_path hinv hpath hi hwait, ?_⟩
  have hq : 0 < quota ⟨i, hi⟩ := by
    simp only [quota]
    omega
  have hsum : ∑ j, quota j = 9870 := by decide +kernel
  rw [show s.mlq.bypass i pre.length = _ from bypass_eq s.mlq ⟨i, hi⟩ pre.length, ← hsum]
  refine Quotas.bound_le (fun j => ?_) hq pre.length
  have := hinv.slots j j.isLt
  simp only [Mlq.quotas, quota]
  omega

/-- Process 2 has been put back behind three others; it is dispatched two slots later. -/
theorem dispatched_within_fiveProcesses :
    (fiveProcesses 107).2.os.mlq.ready 0 = [3, 1, 4, 2] ∧
    (fiveProcessesAfter 107 46).2.timer.time = (fiveProcesses 107).2.timer.time + 2 ∧
    ((osTrace (fiveProcessesAfter 107 46).1).countP Label.isDispatch <
        (fiveProcesses 107).2.os.mlq.bypass 0 3 ∨ ∃ tr1 k tr2,
      osTrace (fiveProcessesAfter 107 46).1 = tr1 ++ .cpu k (.get (some 2)) :: tr2 ∧
        tr1.countP Label.isDispatch < (fiveProcesses 107).2.os.mlq.bypass 0 3) ∧
    (fiveProcesses 107).2.os.mlq.bypass 0 3 ≤ 9870 * (3 / (maxPrio - 0) + 2) := by
  have hready : (fiveProcesses 107).2.os.mlq.ready 0 = [3, 1, 4] ++ 2 :: [] := by decide +kernel
  have hrun := osRun_of_run (c := .fiveProcesses) (run_fiveProcesses 107)
  have hpath := osPath_of_path (c := .fiveProcesses) (path_fiveProcessesAfter 107 46)
  obtain ⟨hwithin, hbypass⟩ := dispatched_within (c := .fiveProcesses) hrun hpath (by decide) hready
  exact ⟨hready, by decide +kernel, hwithin, hbypass⟩

end OsSim.Sched
