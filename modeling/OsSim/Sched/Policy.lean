import OsSim.Sched.Quota

/-!
# What `get_mlq_proc` chooses

A call of `get_mlq_proc` (`src/sched.c`, lines 76–126) that nobody interrupts. The loop
changes its own index in `check_new_process`, and it starts again after it has reset the
slots. Alone, it never goes back: the queues below its index are empty or have used up
their slots (`Mlq.UsedUp`). So it passes the queues one by one, resets the slots at most
once, and its length is bounded. The contents of the queues and the slots are arbitrary.

Results:
* `leads_scan`: how far a scan gets, and in how many steps.
* `getMlqProc_policy`: the call returns, and which process it returns.
-/

namespace OsSim.Sched

/-! ## Steps of a call, counted -/

/-- `k` steps lead from `l` to `l'`, and change `s` to `s'`. -/
def Leads (k : ℕ) (s : Mlq) (l : GetLoc) (s' : Mlq) (l' : GetLoc) : Prop :=
  ∀ fuel, runGet (fuel + k) s l = runGet fuel s' l'

/-- After `k` steps the call has returned. -/
def Returns (k : ℕ) (s : Mlq) (l : GetLoc) (r : Mlq × Option ℕ) : Prop :=
  ∀ fuel, runGet (fuel + k) s l = some r

theorem Leads.refl (s : Mlq) (l : GetLoc) : Leads 0 s l s l := fun _ => rfl

section

variable {k k' : ℕ} {s s' s'' : Mlq} {l l' l'' : GetLoc} {r : Mlq × Option ℕ}

theorem Leads.one (h : l.step s = some (s', .inl l')) : Leads 1 s l s' l' := by
  intro fuel
  rw [runGet, h]

theorem Leads.trans (h : Leads k s l s' l') (h' : Leads k' s' l' s'' l'') :
    Leads (k + k') s l s'' l'' := by
  intro fuel
  rw [Nat.add_comm k k', ← Nat.add_assoc, h, h']

theorem Leads.returns (h : Leads k s l s' l') (h' : Returns k' s' l' r) :
    Returns (k + k') s l r := by
  intro fuel
  rw [Nat.add_comm k k', ← Nat.add_assoc, h, h']

theorem Returns.one {o : Option ℕ} (h : l.step s = some (s', .inr o)) :
    Returns 1 s l (s', o) := by
  intro fuel
  rw [runGet, h]

end

/-! ## One scan -/

namespace Mlq

/-- Queue `i` has a process and time left for it. -/
def Eligible (s : Mlq) (i : ℕ) : Prop := s.ready i ≠ [] ∧ 0 < s.slot i

/-- After `set_slot_for_queue`. -/
def resetSlots (s : Mlq) : Mlq :=
  { s with slot := fun i => if i < maxPrio then maxPrio - i else s.slot i }

/-- `s'` is `s` after the first process `p` of queue `i` has been taken. -/
structure Takes (s s' : Mlq) (i p : ℕ) : Prop where
  queue : ∃ rest, s.ready i = p :: rest ∧ s'.ready i = rest
  others : ∀ j, j ≠ i → s'.mlqReadyQueue j = s.mlqReadyQueue j
  slot : s'.slot = Function.update s.slot i (s.slot i - 1)

theorem usedUp_of_not_eligible {s : Mlq} {i : ℕ} (h : ∀ j < i, ¬ s.Eligible j) : s.UsedUp i :=
  fun j hj hne => not_lt.mp fun hslot => h j hj ⟨hne, hslot⟩

end Mlq

section

variable {s : Mlq} {i : ℕ} {flag : Bool}

/-- `check_new_process` finds no queue to go back to. -/
theorem leads_check (hused : s.UsedUp i) (flag : Bool) (d j : ℕ) (hd : j + d = i) :
    ∃ k ≤ 2 * d + 1, Leads k s (.checkEmpty i j flag) s (.testEmpty i flag) := by
  induction d generalizing j with
  | zero =>
    refine ⟨1, le_rfl, .one ?_⟩
    simp only [GetLoc.step]
    rw [if_neg (by omega)]
  | succ d ih =>
    obtain ⟨k, hk, hleads⟩ := ih (j + 1) (by omega)
    have hj : j < i := by omega
    by_cases hempty : (s.mlqReadyQueue j).empty
    · have h1 : Leads 1 s (.checkEmpty i j flag) s (.checkEmpty i (j + 1) flag) := by
        refine .one ?_
        simp only [GetLoc.step, hj, hempty, if_true]
      exact ⟨1 + k, by omega, h1.trans hleads⟩
    · have hslot : s.slot j ≤ 0 := hused j hj fun hnil => hempty ((ready_eq_nil_iff s j).mp hnil)
      have h1 : Leads 1 s (.checkEmpty i j flag) s (.checkSlot i j flag) := by
        refine .one ?_
        simp only [GetLoc.step, hj, hempty, if_true, if_false, Bool.false_eq_true]
      have h2 : Leads 1 s (.checkSlot i j flag) s (.checkEmpty i (j + 1) flag) := by
        refine .one ?_
        simp only [GetLoc.step, hslot, if_true]
      exact ⟨1 + 1 + k, by omega, (h1.trans h2).trans hleads⟩

theorem leads_test (hi : i < maxPrio) (hused : s.UsedUp i) (flag : Bool) :
    ∃ k ≤ 2 * i + 2, Leads k s (.loop i flag) s (.testEmpty i flag) := by
  obtain ⟨k, hk, hleads⟩ := leads_check hused flag i 0 (Nat.zero_add i)
  have h1 : Leads 1 s (.loop i flag) s (.checkEmpty i 0 flag) := by
    refine .one ?_
    simp only [GetLoc.step, hi, if_true]
  exact ⟨1 + k, by omega, h1.trans hleads⟩

/-- A queue that has used up its slot. -/
theorem leads_used (hne : s.ready i ≠ []) (hslot : s.slot i ≤ 0) (flag : Bool) :
    Leads 2 s (.testEmpty i flag) s
      (if i = maxPrio - 1 then .lockReset else .loop (i + 1) true) := by
  have hempty : ¬ (s.mlqReadyQueue i).empty = true := fun h => hne ((ready_eq_nil_iff s i).mpr h)
  have h1 : Leads 1 s (.testEmpty i flag) s (.testSlot i flag) := by
    refine .one ?_
    simp only [GetLoc.step, hempty]
    rfl
  have h2 : Leads 1 s (.testSlot i flag) s
      (if i = maxPrio - 1 then .lockReset else .loop (i + 1) true) := by
    refine .one ?_
    simp only [GetLoc.step, hslot, if_true]
    split <;> rfl
  exact h1.trans h2

theorem leads_empty (hnil : s.ready i = []) (flag : Bool) :
    Leads 1 s (.testEmpty i flag) s
      (if flag = true ∧ i = maxPrio - 1 then .lockReset else .loop (i + 1) flag) := by
  refine .one ?_
  have hempty := (ready_eq_nil_iff s i).mp hnil
  simp only [GetLoc.step, hempty, if_true]
  split <;> rfl

/-- A scan that has found no process with time left below `i` is there after a bounded number of
steps, and `flag` says whether it has found a process at all. -/
theorem leads_scan (hused : s.UsedUp i) (hi : i < maxPrio) :
    ∃ k ≤ i * i + 3 * i, ∃ flag, (flag = true ↔ ∃ j < i, s.ready j ≠ []) ∧
      Leads k s .start s (.loop i flag) := by
  induction i with
  | zero => exact ⟨0, le_rfl, false, by simp, .refl _ _⟩
  | succ i ih =>
    obtain ⟨k, hk, flag, hflag, hleads⟩ := ih (fun j hj => hused j (by omega)) (by omega)
    obtain ⟨k', hk', htest⟩ := leads_test (i := i) (by omega) (fun j hj => hused j (by omega)) flag
    have hlast : i ≠ maxPrio - 1 := by omega
    have hsq : (i + 1) * (i + 1) = i * i + 2 * i + 1 := by
      rw [Nat.succ_mul, Nat.mul_succ]
      omega
    by_cases hnil : s.ready i = []
    · have hstep := leads_empty hnil flag
      rw [if_neg fun h => hlast h.2] at hstep
      refine ⟨k + k' + 1, by omega, flag, hflag.trans ?_, (hleads.trans htest).trans hstep⟩
      constructor
      · rintro ⟨j, hj, hne⟩
        exact ⟨j, by omega, hne⟩
      · rintro ⟨j, hj, hne⟩
        rcases Nat.lt_succ_iff_lt_or_eq.mp hj with hj | rfl
        · exact ⟨j, hj, hne⟩
        · exact absurd hnil hne
    · have hstep := leads_used hnil (hused i (by omega) hnil) flag
      rw [if_neg hlast] at hstep
      exact ⟨k + k' + 2, by omega, true, by simp only [true_iff]; exact ⟨i, by omega, hnil⟩,
        (hleads.trans htest).trans hstep⟩

/-! ## How a scan ends -/

theorem leads_lockReset_of_used (hused : s.UsedUp maxPrio) (hwait : s.Waiting) :
    ∃ k ≤ 20020, Leads k s .start s .lockReset := by
  have hlast : maxPrio - 1 < maxPrio := by decide
  have hused' : s.UsedUp (maxPrio - 1) := fun j hj => hused j (by omega)
  obtain ⟨k, hk, flag, hflag, hleads⟩ := leads_scan hused' hlast
  obtain ⟨k', hk', htest⟩ := leads_test hlast hused' flag
  have hsize : (maxPrio - 1) * (maxPrio - 1) + 3 * (maxPrio - 1) = 19738 := by decide
  have hsize' : 2 * (maxPrio - 1) + 2 = 280 := by decide
  by_cases hnil : s.ready (maxPrio - 1) = []
  · -- the last queue is empty, so another one has made the scan set `flag`
    have hset : flag = true := by
      obtain ⟨j, hj, hne⟩ := hwait
      refine hflag.mpr ⟨j, ?_, hne⟩
      rcases Nat.lt_succ_iff_lt_or_eq.mp hj with hj | rfl
      · exact hj
      · exact absurd hnil hne
    have hstep := leads_empty hnil flag
    rw [if_pos ⟨hset, rfl⟩] at hstep
    exact ⟨k + k' + 1, by omega, (hleads.trans htest).trans hstep⟩
  · have hstep := leads_used hnil (hused _ hlast hnil) flag
    rw [if_pos rfl] at hstep
    exact ⟨k + k' + 2, by omega, (hleads.trans htest).trans hstep⟩

/-- The loop of `set_slot_for_queue`, from `i` on. -/
theorem leads_reset (d i : ℕ) (hd : i + d = maxPrio) (s : Mlq) :
    Leads (d + 1) s (.reset i)
      { s with
        slot := fun j => if i ≤ j ∧ j < maxPrio then maxPrio - j else s.slot j
        locked := false } .start := by
  induction d generalizing i s with
  | zero =>
    have hslot : (fun j => if i ≤ j ∧ j < maxPrio then (maxPrio - j : ℤ) else s.slot j) =
        s.slot := by
      funext j
      rw [if_neg (by omega)]
    rw [hslot]
    refine .one ?_
    simp only [GetLoc.step]
    rw [if_neg (by omega)]
    rfl
  | succ d ih =>
    have h1 : Leads 1 s (.reset i) { s with slot := Function.update s.slot i (maxPrio - i) }
        (.reset (i + 1)) := by
      refine .one ?_
      simp only [GetLoc.step]
      rw [if_pos (by omega)]
    have hslot : (fun j => if i + 1 ≤ j ∧ j < maxPrio then (maxPrio - j : ℤ)
        else Function.update s.slot i (maxPrio - i : ℤ) j) =
        fun j => if i ≤ j ∧ j < maxPrio then (maxPrio - j : ℤ) else s.slot j := by
      funext j
      rw [Function.update_apply]
      by_cases hj : j = i
      · rw [if_neg (by omega), if_pos hj, if_pos (by omega), hj]
      · rw [if_neg hj]
        exact if_congr (by omega) rfl rfl
    have hrest := ih (i + 1) (by omega) { s with slot := Function.update s.slot i (maxPrio - i) }
    simp only [hslot] at hrest
    rw [Nat.add_comm (d + 1) 1]
    exact h1.trans hrest

theorem leads_resetSlots (hfree : s.locked = false) :
    Leads 142 s .lockReset s.resetSlots .start := by
  have h1 : Leads 1 s .lockReset { s with locked := true } (.reset 0) := by
    refine .one ?_
    simp [GetLoc.step, hfree]
  have h2 := leads_reset maxPrio 0 (Nat.zero_add _) { s with locked := true }
  have hreset : ({ s with
      slot := fun j => if 0 ≤ j ∧ j < maxPrio then (maxPrio - j : ℤ) else s.slot j
      locked := false } : Mlq) = s.resetSlots := by
    simp only [Mlq.resetSlots, Nat.zero_le, true_and, ← hfree]
  rw [hreset] at h2
  exact h1.trans h2

/-- A process is found. -/
theorem returns_takes (hfree : s.locked = false) (hi : i < maxPrio) (he : s.Eligible i)
    (hfirst : ∀ j < i, ¬ s.Eligible j) :
    ∃ k ≤ 20021, ∃ s' p, s.Takes s' i p ∧ Returns k s .start (s', some p) := by
  have hused := Mlq.usedUp_of_not_eligible hfirst
  obtain ⟨k, hk, flag, -, hleads⟩ := leads_scan hused hi
  obtain ⟨k', hk', htest⟩ := leads_test hi hused flag
  have hempty : ¬ (s.mlqReadyQueue i).empty = true := fun h => he.1 ((ready_eq_nil_iff s i).mpr h)
  have h1 : Leads 1 s (.testEmpty i flag) s (.testSlot i flag) := by
    refine .one ?_
    simp only [GetLoc.step, hempty]
    rfl
  have h2 : Leads 1 s (.testSlot i flag) s (.lockDequeue i) := by
    refine .one ?_
    simp only [GetLoc.step, not_le.mpr he.2, if_false]
  have hsize : i * i + 5 * i ≤ (maxPrio - 1) * (maxPrio - 1) + 5 * (maxPrio - 1) :=
    Nat.add_le_add (Nat.mul_le_mul (by omega) (by omega)) (by omega)
  have hsize' : (maxPrio - 1) * (maxPrio - 1) + 5 * (maxPrio - 1) = 20016 := by decide
  have hdq := (s.mlqReadyQueue i).toList_dequeue
  cases hd : (s.mlqReadyQueue i).dequeue with
  | mk o q =>
    rw [hd] at hdq
    have h3 : Returns 1 s (.lockDequeue i)
        ({ s.setQueue i q with slot := Function.update s.slot i (s.slot i - 1) }, o) := by
      refine .one ?_
      simp [GetLoc.step, hfree, hd]
    cases o with
    | none =>
      have hnone : (s.mlqReadyQueue i).dequeue.1 = none := by rw [hd]
      exact absurd ((Queue.dequeue_eq_none_iff _).mp hnone) hempty
    | some p =>
      refine ⟨k + k' + 1 + 1 + 1, by omega, _, p, ⟨⟨q.toList, hdq, ?_⟩, fun j hj => ?_, rfl⟩,
        (((hleads.trans htest).trans h1).trans h2).returns h3⟩
      · exact congrArg Queue.toList (Function.update_self ..)
      · exact Function.update_of_ne hj ..

/-- No process is found. -/
theorem returns_null (hnil : ∀ j < maxPrio, s.ready j = []) :
    ∃ k ≤ 20021, Returns k s .start (s, none) := by
  have hlast : maxPrio - 1 < maxPrio := by decide
  have hused : s.UsedUp (maxPrio - 1) := fun j hj hne => absurd (hnil j (by omega)) hne
  obtain ⟨k, hk, flag, hflag, hleads⟩ := leads_scan hused hlast
  obtain ⟨k', hk', htest⟩ := leads_test hlast hused flag
  have hsize : (maxPrio - 1) * (maxPrio - 1) + 3 * (maxPrio - 1) = 19738 := by decide
  have hsize' : 2 * (maxPrio - 1) + 2 = 280 := by decide
  have hclear : ¬ flag = true := fun h => by
    obtain ⟨j, hj, hne⟩ := hflag.mp h
    exact hne (hnil j (by omega))
  have hstep := leads_empty (hnil _ hlast) flag
  rw [if_neg fun h => hclear h.1] at hstep
  have hret : Returns 1 s (.loop (maxPrio - 1 + 1) flag) (s, none) := by
    refine .one ?_
    simp only [GetLoc.step]
    rw [if_neg (by decide)]
  exact ⟨k + k' + 1 + 1, by omega, ((hleads.trans htest).trans hstep).returns hret⟩

theorem getMlqProc_of_returns {k : ℕ} {r : Mlq × Option ℕ} (hk : k ≤ 2 ^ 16)
    (h : Returns k s .start r) : getMlqProc s = some r := by
  have hr := h (2 ^ 16 - k)
  rwa [Nat.sub_add_cancel hk] at hr

end

/-! ## The policy -/

/-- What `get_mlq_proc` returns, and what it leaves. -/
structure GetPolicy (s : Mlq) (r : Mlq × Option ℕ) : Prop where
  null_iff : r.2 = none ↔ ∀ i < maxPrio, s.ready i = []
  null : r.2 = none → r.1 = s
  /-- The first queue with a process and time left for it. -/
  eligible : ∀ i < maxPrio, s.Eligible i → (∀ j < i, ¬ s.Eligible j) →
    ∃ p, r.2 = some p ∧ s.Takes r.1 i p
  /-- Otherwise the first queue with a process, after all slots have been reset. -/
  reset : (∀ i < maxPrio, ¬ s.Eligible i) →
    ∀ i < maxPrio, s.ready i ≠ [] → (∀ j < i, s.ready j = []) →
      ∃ p, r.2 = some p ∧ s.resetSlots.Takes r.1 i p

theorem exists_least {P : ℕ → Prop} {n : ℕ} (h : ∃ i < n, P i) :
    ∃ i < n, P i ∧ ∀ j < i, ¬ P j := by
  classical
  exact ⟨Nat.find h, (Nat.find_spec h).1, (Nat.find_spec h).2,
    fun j hj hP => Nat.find_min h hj ⟨hj.trans (Nat.find_spec h).1, hP⟩⟩

/-- A call that nobody interrupts returns, whatever the queues and the slots hold. -/
theorem getMlqProc_policy {s : Mlq} (hfree : s.locked = false) :
    ∃ r, getMlqProc s = some r ∧ GetPolicy s r := by
  by_cases hel : ∃ i < maxPrio, s.Eligible i
  · obtain ⟨i, hi, he, hfirst⟩ := exists_least hel
    obtain ⟨k, hk, s', p, htakes, hret⟩ := returns_takes hfree hi he hfirst
    refine ⟨(s', some p), getMlqProc_of_returns (by omega) hret, ?_, by simp, ?_, ?_⟩
    · simp only [reduceCtorEq, false_iff]
      exact fun hnil => he.1 (hnil i hi)
    · intro j hj hej hfirst'
      have hij : j = i := le_antisymm (not_lt.mp fun h => hfirst' i h he)
        (not_lt.mp fun h => hfirst j h hej)
      exact ⟨p, rfl, hij ▸ htakes⟩
    · exact fun hno => absurd he (hno i hi)
  · have hno : ∀ i < maxPrio, ¬ s.Eligible i := fun i hi he => hel ⟨i, hi, he⟩
    by_cases hwait : s.Waiting
    · obtain ⟨i, hi, hne, hfirst⟩ := exists_least hwait
      obtain ⟨k, hk, hlock⟩ := leads_lockReset_of_used (Mlq.usedUp_of_not_eligible hno) hwait
      -- after the reset the first queue with a process is eligible
      have he : s.resetSlots.Eligible i := by
        refine ⟨hne, ?_⟩
        simp only [Mlq.resetSlots, hi, if_true]
        omega
      have hfirst' : ∀ j < i, ¬ s.resetSlots.Eligible j := fun j hj hej => hfirst j hj hej.1
      obtain ⟨k', hk', s', p, htakes, hret⟩ :=
        returns_takes (s := s.resetSlots) hfree hi he hfirst'
      have hall := (hlock.trans (leads_resetSlots hfree)).returns hret
      refine ⟨(s', some p), getMlqProc_of_returns (by omega) hall, ?_, by simp, ?_, ?_⟩
      · simp only [reduceCtorEq, false_iff]
        exact fun hnil => hne (hnil i hi)
      · exact fun j hj hej => absurd hej (hno j hj)
      · intro _ j hj hnej hfirst''
        have hij : j = i := le_antisymm (not_lt.mp fun h => hne (hfirst'' i h))
          (not_lt.mp fun h => hfirst j h hnej)
        exact ⟨p, rfl, hij ▸ htakes⟩
    · have hnil : ∀ i < maxPrio, s.ready i = [] := fun i hi =>
        not_not.mp fun hne => hwait ⟨i, hi, hne⟩
      obtain ⟨k, hk, hret⟩ := returns_null hnil
      exact ⟨(s, none), getMlqProc_of_returns (by omega) hret, by simpa using hnil, fun _ => rfl,
        fun i hi he => absurd he (hno i hi), fun _ i hi hne => absurd (hnil i hi) hne⟩

/-- Process 7 waits in queue 3, which has used up its slot. -/
def oneUsedUp : Mlq where
  mlqReadyQueue := Function.update (fun _ => .init) 3
    { proc := fun _ => some 7, size := 1, size_le := by decide, isSome := fun _ _ => rfl }
  slot := Function.update Mlq.init.slot 3 0
  locked := false

/-- It is returned after the slots have been reset. -/
theorem getMlqProc_policy_oneUsedUp : ∃ s', getMlqProc oneUsedUp = some (s', some 7) ∧
    s'.slot 3 = 136 ∧ GetPolicy oneUsedUp (s', some 7) := by
  obtain ⟨⟨s', o⟩, hret, hpol⟩ := getMlqProc_policy (s := oneUsedUp) rfl
  have hother : ∀ j, j ≠ 3 → oneUsedUp.ready j = [] := by
    intro j hj
    simp [Mlq.ready, oneUsedUp, hj]
  have hno : ∀ i < maxPrio, ¬ oneUsedUp.Eligible i := by
    rintro i - ⟨hne, hslot⟩
    by_cases hi : i = 3
    · subst hi
      exact absurd hslot (by decide)
    · exact hne (hother i hi)
  obtain ⟨p, hp, htakes⟩ := hpol.reset hno 3 (by decide) (by decide)
    fun j hj => hother j (by omega)
  obtain ⟨rest, hrest, -⟩ := htakes.queue
  have h7 : oneUsedUp.resetSlots.ready 3 = [7] := by decide
  obtain ⟨rfl, -⟩ := List.cons.inj (h7.symm.trans hrest)
  have hp' : o = some 7 := hp
  subst hp'
  exact ⟨s', hret, by rw [htakes.slot]; rfl, hpol⟩

end OsSim.Sched
