import OsSim.Sched.Lockstep

/-!
# No process is stranded

A CPU stops when `get_proc` returned `NULL` and `done` is set, which it reads
later. In between the loader may finish and other CPUs may put processes back.
What makes that safe is the barrier: the loader passes a slot between its last
`add_proc` and `done = 1`, so a CPU that reads `done = 1` has looked for a process
after the last one was added; and a CPU that puts a process back looks for one
itself before it may stop.

`get_proc`, `put_proc` and `add_proc` are atomic here (`Grain.call`).

Results:
* `Settled`, `settled_of_run`: when all CPUs are about to stop, the queues are
  empty.
* `noneStranded_of_run`: when all CPUs have stopped, every process has been
  executed completely.
-/

namespace OsSim.Sched

variable {n : ℕ} {c : Config}

/-- The loader has added all its processes, and a slot has begun since. -/
def PastAdds (c : Config) (s : System n) : Prop :=
  match s.os.ld with
  | .loop i => c.numProcesses ≤ i
  | .inSlot .added i => c.numProcesses ≤ i ∧ s.timer.phase n = .released
  | .finish | .detach | .exited => True
  | _ => False

/-- The CPU has stopped, or will stop when it reads `done`. -/
def Leaving (c : Config) (s : System n) (k : Fin n) : Prop :=
  (s.os.cpu k).loc.Stopped ∨ (s.os.cpu k).loc = .recheck none ∧ PastAdds c s

def QueuesEmpty (m : Mlq) : Prop := ∀ i < maxPrio, m.ready i = []

instance (m : Mlq) : Decidable (QueuesEmpty m) :=
  inferInstanceAs (Decidable (∀ i < maxPrio, m.ready i = []))

/-- Some CPU goes on looking as long as a process waits. -/
def Settled (c : Config) (s : System n) : Prop := (∀ k, Leaving c s k) → QueuesEmpty s.os.mlq

/-- With atomic calls, a CPU in `get_proc` has not begun its scan. -/
def AtStart (s : State n) : Prop := ∀ k b l, (s.cpu k).loc = .getting b l → l = .start

theorem get_call_inl {m m' : Mlq} {l l' : GetLoc} (h : Grain.call.get m l = some (m', .inl l')) :
    False := by
  obtain ⟨r, _, heq⟩ := Option.map_eq_some_iff.mp h
  cases heq

theorem AtStart.step {s s' : State n} (h : AtStart s) {e : Label n}
    (hst : s.exec c .call e = some s') : AtStart s' := by
  obtain ⟨k, a, rfl, hmove⟩ | ⟨time, a, rfl, hmove⟩ := moves_of_exec hst
  · have hother := hmove.device.2.1
    intro k' b l hl
    by_cases hk : k' = k
    · subst hk
      cases hmove with
      | scan b l l' mlq _ hget => exact absurd hget fun hget => get_call_inl hget
      | idle _ | free p _ _ | put p _ _ _ _ =>
        simp only [State.setCpu, Function.update_self, CpuLoc.getting.injEq] at hl
        exact hl.2.symm
      | get b' l' o mlq _ _ =>
        simp only [State.setCpu, Function.update_self, GetSite.next] at hl
        split at hl
        all_goals cases hl
      | _ =>
        simp only [State.setCpu, Function.update_self] at hl
        cases hl
    · rw [hother k' hk] at hl
      exact h k' b l hl
  · rw [AtStart, (hmove.device n).1]
    exact h

theorem atStart_of_run {tr : List (Label c.numCpus)} {s : State c.numCpus}
    (h : (osLts c .call).Run tr s) : AtStart s := by
  refine h.invariant ?_ ?_
  · rintro s rfl k b l hl
    cases hl
  · intro s e s' hs hst
    exact hs.step hst

/-- An atomic `get_proc` that returns `NULL` has found all queues empty, and leaves them so. -/
theorem queuesEmpty_of_get {m m' : Mlq} {l : GetLoc} (hl : l = .start)
    (h : Grain.call.get m l = some (m', .inr none)) : QueuesEmpty m' := by
  have hready : m'.ready = m.ready := Grain.get_spec h
  obtain ⟨⟨m1, o⟩, hrun, heq⟩ := Option.map_eq_some_iff.mp h
  cases heq
  subst hl
  intro i hi
  rw [hready]
  exact runGet_none (getInv_start m) hrun i hi

/-! ## Steps -/

section

variable {s s' : System n}

/-- A CPU that does not leave settles the question. -/
theorem settled_of_not_leaving {k : Fin n} (h : ¬Leaving c s k) : Settled c s :=
  fun hall => absurd (hall k) h

theorem not_leaving_of_loc {k : Fin n} (h : ¬(s.os.cpu k).loc.Stopped)
    (h' : (s.os.cpu k).loc ≠ .recheck none) : ¬Leaving c s k := by
  rintro (hl | ⟨hl, _⟩)
  · exact h hl
  · exact h' hl

theorem pastAdds_of_done (h : s.os.ld.Done) : PastAdds c s := by
  unfold PastAdds
  rcases h with h | h
  · rw [h]
    trivial
  · rw [h]
    trivial

/-- Once the loader is done, CPUs are leaving as soon as they have found nothing. -/
theorem leaving_of_done (hstop : StopInv s.os) (hdone : s.os.done = true) {k : Fin n}
    (h : (s.os.cpu k).loc.Stopped ∨ (s.os.cpu k).loc = .recheck none) : Leaving c s k :=
  h.imp id fun hl => ⟨hl, pastAdds_of_done (hstop.done.mp hdone)⟩

/-- A step of a CPU that leaves its queues as they are, when the loader is done. -/
theorem Settled.stop (h : Settled c s) (hstop : StopInv s.os) (hdone : s.os.done = true)
    {k : Fin n} (hk : (s.os.cpu k).loc.Stopped ∨ (s.os.cpu k).loc = .recheck none)
    (hother : ∀ k', k' ≠ k → s'.os.cpu k' = s.os.cpu k') (hmlq : s'.os.mlq = s.os.mlq) :
    Settled c s' := by
  intro hall
  rw [hmlq]
  apply h
  intro k'
  apply leaving_of_done hstop hdone
  by_cases hkk : k' = k
  · rwa [hkk]
  · have hl := hall k'
    rw [Leaving, hother k' hkk] at hl
    exact hl.imp id And.left

theorem Settled.cpuMove (h : Settled c s) (hstop : StopInv s.os) (hstart : AtStart s.os)
    {k : Fin n} {a : Act} (hmove : CpuMove c .call s.os k a s'.os) : Settled c s' := by
  have hother := hmove.device.2.1
  generalize hos : s'.os = os at hmove
  have hself : ∀ {loc : CpuLoc}, (os.cpu k).loc = loc → ¬loc.Stopped → loc ≠ .recheck none →
      Settled c s' := by
    intro loc hl h1 h2
    apply settled_of_not_leaving (k := k)
    apply not_leaving_of_loc
    · rwa [hos, hl]
    · rwa [hos, hl]
  cases hmove with
  | get b l o mlq hl hget =>
    cases o with
    | none =>
      intro _
      rw [hos]
      exact queuesEmpty_of_get (hstart k b l hl) hget
    | some p =>
      refine @hself (.recheck (some p)) ?_ ?_ ?_
      · simp [State.setCpu, GetSite.next]
      · simp [CpuLoc.Stopped]
      · simp
  | stop hl hdone => exact h.stop hstop hdone (.inr hl) hother (by rw [hos]; rfl)
  | detach hl =>
    exact h.stop hstop (hstop.stopped k (.inl hl)) (.inl (.inl hl)) hother (by rw [hos]; rfl)
  | scan b l l' mlq _ hget => exact absurd hget fun hget => get_call_inl hget
  | _ =>
    apply hself
    · simp only [State.setCpu, Function.update_self]
      rfl
    · simp [CpuLoc.Stopped]
    · simp

/-- A step after which the loader is not past its last slot. -/
theorem Settled.not_pastAdds (h : Settled c s) (hpast : ¬PastAdds c s')
    (hcpu : s'.os.cpu = s.os.cpu) (hmlq : s'.os.mlq = s.os.mlq) : Settled c s' := by
  intro hall
  rw [hmlq]
  apply h
  intro k
  rcases hall k with hl | ⟨_, hp⟩
  · rw [hcpu] at hl
    exact .inl hl
  · exact absurd hp hpast

/-- A step that leaves the loader past its last slot. -/
theorem Settled.pastAdds (h : Settled c s) (hpast : PastAdds c s' → PastAdds c s)
    (hcpu : s'.os.cpu = s.os.cpu) (hmlq : s'.os.mlq = s.os.mlq) : Settled c s' := by
  intro hall
  rw [hmlq]
  apply h
  intro k
  have hl := hall k
  rw [Leaving, hcpu] at hl
  exact hl.imp id fun hl => ⟨hl.1, hpast hl.2⟩

/-- What the barrier says about the device of the loader when it calls `next_slot` or returns. -/
theorem phase_call (ht : Timer.Inv (n + 1) s.timer) {te : Timer.Event}
    (hexec : s.timer.exec te = some s'.timer) :
    (te = .nextSlot n → s'.timer.phase n = .arrived) ∧
      (te = .ret n → s.timer.phase n = .released) := by
  refine ⟨?_, ?_⟩
  · rintro rfl
    exact ht.phase_nextSlot hexec
  · rintro rfl
    exact ht.phase_ret hexec

theorem Settled.ldMove (h : Settled c s) (hstop : StopInv s.os) (ht : Timer.Inv (n + 1) s.timer)
    (hn : 0 < n) {time : ℕ} {a : LdAct} (hmove : LdMove c s.os time a s'.os)
    (hcall : ∀ te, a.timer n = some te → s.timer.exec te = some s'.timer) : Settled c s' := by
  have hcpu := (hmove.device n).1
  generalize hos : s'.os = os at hmove
  cases hmove with
  | load i hl hi | early i hl hi | ready i hl hi | retEarly i hl =>
    refine h.not_pastAdds ?_ hcpu (by rw [hos])
    simp [PastAdds, hos]
  | add i mlq hl hadd =>
    -- no CPU has stopped while the loader still adds processes
    apply settled_of_not_leaving (k := ⟨0, hn⟩)
    rintro (hk | ⟨_, hp⟩)
    · rw [hcpu] at hk
      have hdone := hstop.done.mp (hstop.stopped _ hk)
      simp [hl, LdLoc.Done] at hdone
    · simp [PastAdds, hos] at hp
  | nextSlot b i hl =>
    have hphase := (phase_call ht (hcall _ rfl)).1 rfl
    refine h.not_pastAdds ?_ hcpu (by rw [hos])
    cases b
    all_goals simp [PastAdds, hos, hphase]
  | retAdded i hl =>
    have hphase := (phase_call ht (hcall _ rfl)).2 rfl
    refine h.pastAdds ?_ hcpu (by rw [hos])
    intro hp
    simp only [PastAdds, hos] at hp
    simpa only [PastAdds, hl] using And.intro hp hphase
  | leave i hl hi =>
    refine h.pastAdds ?_ hcpu (by rw [hos])
    intro _
    simpa only [PastAdds, hl] using hi
  | finish hl | detach hl =>
    refine h.pastAdds ?_ hcpu (by rw [hos])
    intro _
    simp [PastAdds, hl]

/-- A step of the timer alone. When a slot begins, no CPU is between its search and its test of
`done`. -/
theorem Settled.timerStep (h : Settled c s) (hsync : Sync s) (ht : Timer.Inv (n + 1) s.timer)
    {te : Timer.Event} (hown : ownStep te = true) (hos : s'.os = s.os)
    (hexec : s.timer.exec te = some s'.timer) : Settled c s' := by
  intro hall
  rw [hos]
  apply h
  intro k
  have hl := hall k
  rw [Leaving, hos] at hl
  refine hl.imp id fun hl => ⟨hl.1, ?_⟩
  rcases ht.barrier_step hexec with ⟨b, hb, hst⟩ | ⟨_, heq⟩
  · cases te with
    | nextSlot d => cases hown
    | ret d => cases hown
    | detach d => cases hown
    | tick =>
      cases hb
      have hw : s.timer.dev k = .working := by
        rw [← signal_eq_working, hsync.cpu k, hl.1]
        rfl
      have hphase : s.timer.phase k = .arrived ∨ s.timer.phase k = .left := by
        generalize s'.timer.barrier = t at hst
        cases hst with
        | tick harr => exact harr k
      have hmem : (k : ℕ) ∈ s.timer.devList := ht.mem_devList.mpr (by omega)
      simp [Timer.State.phase, hmem, hw] at hphase
    | _ => cases hb
  · have hphase : s'.timer.phase n = s.timer.phase n :=
      congrArg (fun b : Barrier.State ℕ => b.phase n) heq
    have hp := hl.2
    unfold PastAdds at hp ⊢
    rwa [hos, hphase] at hp

end

theorem settled_of_run {tr : List (SysLabel c.numCpus)} {s : System c.numCpus}
    (h : (sysLts c .call).Run tr s) (hn : 0 < c.numCpus) : Settled c s := by
  refine (h.history (I := fun tr s => (sysLts c .call).Run tr s ∧ Settled c s) ?_ ?_).2
  · rintro s rfl
    refine ⟨.init rfl, ?_⟩
    intro _ i _
    rfl
  · rintro tr s l s' ⟨hrun, hs⟩ hst
    refine ⟨hrun.step hst, ?_⟩
    have ht := Timer.inv_of_run (timerRun_of_run hrun)
    have hstop := stopInv_of_run (osRun_of_run hrun)
    obtain ⟨e, rfl, _, hos, htimer⟩ | ⟨te, rfl, hown, hos, hexec⟩ := System.exec_cases hst
    · obtain ⟨k, a, rfl, hmove⟩ | ⟨time, a, rfl, hmove⟩ := moves_of_exec hos
      · exact hs.cpuMove hstop (atStart_of_run (osRun_of_run hrun)) hmove
      · apply hs.ldMove hstop ht hn hmove
        intro te hte
        rcases htimer with ⟨hnone, _⟩ | ⟨te', hte', hexec⟩
        · rw [show a.timer c.numCpus = none from hnone] at hte
          cases hte
        · rw [show a.timer c.numCpus = some te' from hte'] at hte
          cases hte
          exact hexec
    · exact hs.timerStep (sync_of_run hrun) ht hown hos hexec

/-- When all CPUs have stopped, the queues are empty and every process has been loaded and
executed completely. -/
theorem noneStranded_of_run {tr : List (SysLabel c.numCpus)} {s : System c.numCpus}
    (h : (sysLts c .call).Run tr s) (hn : 0 < c.numCpus)
    (hall : ∀ k, (s.os.cpu k).loc.Stopped) :
    (∀ i < maxPrio, s.os.mlq.ready i = []) ∧
      ∀ p < c.numProcesses, (∃ time, .ld time (.add p) ∈ osTrace tr) ∧
        (s.os.pcb p).pc = (c.code p).length ∧ executed p (osTrace tr) = c.code p := by
  have hos := osRun_of_run h
  have hinv := inv_of_run hos
  have hhist := history_of_run hos
  have hstop := stopInv_of_run hos
  have hempty : QueuesEmpty s.os.mlq := settled_of_run h hn fun k => .inl (hall k)
  refine ⟨hempty, ?_⟩
  intro p hp
  have hadded : s.os.ld.added c = c.numProcesses ∧ s.os.ld.loaded c = c.numProcesses := by
    rcases hstop.done.mp (hstop.stopped ⟨0, hn⟩ (hall _)) with hl | hl
    · rw [hl]
      exact ⟨rfl, rfl⟩
    · rw [hl]
      exact ⟨rfl, rfl⟩
  have hfreed : s.os.freed p = true := by
    by_contra hf
    have hin : (s.os.circulation c).stage p = .inside := by
      rw [inside_iff, hadded.1]
      exact ⟨hp, by simpa using hf⟩
    rcases hinv.places.somewhere p hin with hq | ⟨k, hk⟩
    · have hnil : s.os.mlq.ready (c.prio p) = [] := by
        by_cases hprio : c.prio p < maxPrio
        · exact hempty _ hprio
        · exact hstop.bound _ (Nat.not_lt.mp hprio)
      rw [show (s.os.circulation c).queue = s.os.mlq.ready from rfl, hnil] at hq
      cases hq
    · have hnone : (s.os.cpu k).loc.proc = none := by
        rcases hall k with hl | hl
        · rw [hl]
          rfl
        · rw [hl]
          rfl
      rw [show (s.os.circulation c).held k = (s.os.cpu k).loc.proc from rfl, hnone] at hk
      cases hk
  have hcode := hinv.code_eq p (by rw [hadded.2]; exact hp)
  have hpc := (hinv.freed p hfreed).2
  rw [hcode] at hpc
  refine ⟨(hhist.added p).mp (by rw [hadded.1]; exact hp), hpc, ?_⟩
  rw [hhist.executed, hcode, hpc, List.take_length]

/-- Five processes, of which three wait behind others before they are executed. -/
theorem noneStranded_fiveProcesses :
    (sysLts .fiveProcesses .call).Run (fiveProcesses 180).1 (fiveProcesses 180).2 ∧
    (∀ i < maxPrio, (fiveProcesses 180).2.os.mlq.ready i = []) ∧
    ∀ p < 5, (∃ time, .ld time (.add p) ∈ osTrace (fiveProcesses 180).1) ∧
      ((fiveProcesses 180).2.os.pcb p).pc = (Config.fiveProcesses.code p).length ∧
      executed p (osTrace (fiveProcesses 180).1) = Config.fiveProcesses.code p := by
  have hrun := run_fiveProcesses 180
  have hall : ∀ k, ((fiveProcesses 180).2.os.cpu k).loc.Stopped := by decide +kernel
  exact ⟨hrun, noneStranded_of_run (c := .fiveProcesses) hrun (by decide) hall⟩

end OsSim.Sched
