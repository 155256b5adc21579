import OsSim.Lib.Barrier
import OsSim.Timer.TimerInv

/-!
# The timer is a slot barrier

`done` is set under `event_lock` and cleared under `timer_lock`, the devices are
released one by one, and a released device may have finished its next slot while
others still wait for their release. `State.phase` reads off such a state what
each device is waiting for; under it every run of the timer is a run of the
abstract barrier.

Results:
* `barrierRun_of_run`: runs of the timer are runs of `Barrier.lts`.
* `Inv.progress`: no reachable state is stuck, and no wake-up is lost.
* `slotBarrier_of_run`: returns from `next_slot` keep up with `_time`, `_time`
  waits for all devices, and no reachable state is stuck.
-/

namespace OsSim.Timer

variable {n : ℕ} {s s' : State}

/-! ## The barrier -/

/-- What the device `d` waits for. A device that `_time++` has let go is released, although the
second `for` may not have cleared its `done` yet. -/
def State.phase (s : State) (d : ℕ) : Barrier.Phase :=
  if d ∈ s.devList then
    match s.dev d with
    | .working => .working
    | .detached => .left
    | _ => if (s.id d).done = true ∧ d ∉ s.routine.pending then .arrived else .released
  else .left

/-- The state of the barrier. -/
def State.barrier (s : State) : Barrier.State ℕ := { time := s.time, phase := s.phase }

/-- The step of the barrier that an event is. -/
def Event.barrier : Event → Option (Barrier.Event ℕ)
  | .nextSlot d => some (.arrive d)
  | .ret d => some (.resume d)
  | .detach d => some (.leave d)
  | .tick => some .tick
  | _ => none

@[simp] theorem TimerLoc.pending_signal (r : TimerLoc) (d : ℕ) :
    (r.signal d).pending = r.pending := by
  cases r with
  | asleep d' temp fsh event =>
    simp only [TimerLoc.signal]
    split
    all_goals rfl
  | loop => rfl
  | wait temp fsh event => rfl
  | release temp fsh event => rfl
  | exited => rfl

theorem phase_congr {d : ℕ} (hlist : s'.devList = s.devList) (hid : s'.id d = s.id d)
    (hdev : s'.dev d = s.dev d) (hp : d ∈ s'.routine.pending ↔ d ∈ s.routine.pending) :
    s'.phase d = s.phase d := by
  simp only [State.phase, hlist, hid, hdev, hp]

/-- A step of the thread of the device `d` changes the phase of `d` alone. -/
theorem phase_updateDev {d : ℕ} {i : TimerId} {l : DevLoc} {r : TimerLoc} {φ : Barrier.Phase}
    (hs' : s' = { s with
      id := Function.update s.id d i, routine := r, dev := Function.update s.dev d l })
    (hp : r.pending = s.routine.pending) (hφ : s'.phase d = φ) :
    s'.phase = Function.update s.phase d φ := by
  funext d'
  by_cases hdd : d' = d
  · rw [hdd, Function.update_self, hφ]
  · rw [Function.update_of_ne hdd]
    subst hs'
    apply phase_congr
    · rfl
    · exact Function.update_of_ne hdd _ _
    · exact Function.update_of_ne hdd _ _
    · simp only [hp]

/-- The second `for` has still to release only devices that wait or are gone. -/
theorem Inv.not_pending (h : Inv n s) {d : ℕ} (hw : s.dev d = .working) :
    d ∉ s.routine.pending := by
  intro hd
  have hr := h.routine
  have hdev := h.dev d
  cases hl : s.routine with
  | release temp fsh event =>
    rw [hl] at hr hd
    obtain ⟨_, hans, _, _⟩ := hr
    rcases hans d hd with hdone | hfsh
    · rw [hdev.working hw] at hdone
      cases hdone
    · rw [hdev.fsh_iff, hw] at hfsh
      cases hfsh
  | loop => simp [hl, TimerLoc.pending] at hd
  | wait temp fsh event => simp [hl, TimerLoc.pending] at hd
  | asleep d' temp fsh event => simp [hl, TimerLoc.pending] at hd
  | exited => simp [hl, TimerLoc.pending] at hd

/-- `timer_routine` goes on and has the same devices to release. -/
theorem phase_moveRoutine {l : TimerLoc} (hp : l.pending = s.routine.pending) :
    ({ s with routine := l } : State).phase = s.phase := by
  funext d
  refine phase_congr rfl rfl rfl ?_
  rw [← hp]

/-- `timer_routine` lets nobody go but in `_time++`. -/
theorem phase_timerRoutine (hst : s.timerRoutine = some s') :
    s'.time = s.time ∧ s'.phase = s.phase := by
  unfold State.timerRoutine at hst
  split at hst
  · rename_i hl
    split at hst
    · cases hst
      exact ⟨rfl, phase_moveRoutine (by rw [hl]; rfl)⟩
    · cases hst
      exact ⟨rfl, phase_moveRoutine (by rw [hl]; rfl)⟩
  · rename_i hl
    split at hst
    · cases hst
      exact ⟨rfl, phase_moveRoutine (by rw [hl]; rfl)⟩
    · cases hst
      exact ⟨rfl, phase_moveRoutine (by rw [hl]; rfl)⟩
  · cases hst
  · cases hst
  · -- the device is let go already when the second `for` comes to it
    rename_i d temp fsh event hl
    cases hst
    refine ⟨rfl, funext fun d' => ?_⟩
    by_cases hdd : d' = d
    · subst hdd
      unfold State.phase
      simp only [Function.update_self, hl, TimerLoc.pending]
      cases s.dev d'
      all_goals simp [DevLoc.signal]
    · apply phase_congr
      · rfl
      · exact Function.update_of_ne hdd _ _
      · exact Function.update_of_ne hdd _ _
      · simp [hl, TimerLoc.pending, hdd]
  · rename_i hl
    split at hst
    · cases hst
      exact ⟨rfl, phase_moveRoutine (by rw [hl]; rfl)⟩
    · cases hst
      exact ⟨rfl, phase_moveRoutine (by rw [hl]; rfl)⟩
  · cases hst

/-- A device that has answered waits with `done` set, or is gone. -/
theorem DevInv.of_answered {i : TimerId} {l : DevLoc} (h : DevInv i l) (ha : i.Answered) :
    l = .detached ∨ l.InNextSlot ∧ i.done = true := by
  rcases ha with hdone | hfsh
  · cases hl : l with
    | working => simp [h.working hl] at hdone
    | testing => exact .inr ⟨.inl rfl, hdone⟩
    | asleep => exact .inr ⟨.inr rfl, hdone⟩
    | detached => exact .inl rfl
  · exact .inl (h.fsh_iff.mp hfsh)

theorem Inv.phase_tick (h : Inv n s) (hst : s.tick = some s') :
    Barrier.Step s.barrier .tick s'.barrier := by
  have hr := h.routine
  unfold State.tick at hst
  split at hst
  · rename_i fsh event hl
    rw [hl] at hr
    obtain ⟨seen, hdev, hp⟩ := hr
    rw [List.append_nil] at hdev
    subst hdev
    cases hst
    have hwait : ∀ d ∈ s.devList, s.dev d = .detached ∨
        (s.dev d).InNextSlot ∧ (s.id d).done = true :=
      fun d hd => (h.dev d).of_answered (hp.answered d hd)
    have harr : ∀ d, s.phase d = .arrived ∨ s.phase d = .left := by
      intro d
      by_cases hd : d ∈ s.devList
      · rcases hwait d hd with hl' | ⟨hl' | hl', hdone⟩
        · simp [State.phase, hl']
        · simp [State.phase, hd, hl', hdone, hl, TimerLoc.pending]
        · simp [State.phase, hd, hl', hdone, hl, TimerLoc.pending]
      · simp [State.phase, hd]
    have heq : ({ s with time := s.time + 1, routine := .release s.devList fsh event } :
        State).phase = fun d => (s.phase d).release := by
      funext d
      by_cases hd : d ∈ s.devList
      · rcases hwait d hd with hl' | ⟨hl' | hl', hdone⟩
        · simp [State.phase, hl', hd, Barrier.Phase.release]
        · simp [State.phase, hd, hl', hdone, hl, TimerLoc.pending, Barrier.Phase.release]
        · simp [State.phase, hd, hl', hdone, hl, TimerLoc.pending, Barrier.Phase.release]
      · simp [State.phase, hd, Barrier.Phase.release]
    simp only [State.barrier, heq]
    exact .tick harr
  · cases hst

/-- A device that moves about inside `next_slot` stays in its phase. -/
theorem phase_move {d : ℕ} {l : DevLoc} (hd : (s.dev d).InNextSlot) (hl : l.InNextSlot) :
    (s.move d l).phase = s.phase := by
  funext d'
  by_cases hdd : d' = d
  · subst hdd
    simp only [State.phase, State.move, Function.update_self]
    rcases hd with hd | hd <;> rcases hl with rfl | rfl
    all_goals
      rw [hd]
      rfl
  · apply phase_congr
    · rfl
    · rfl
    · exact Function.update_of_ne hdd _ _
    · rfl

/-- Under the invariant every event is a step of the barrier, or leaves the barrier as it is. -/
theorem Inv.barrier_step (h : Inv n s) {e : Event} (hst : s.exec e = some s') :
    (∃ b, e.barrier = some b ∧ Barrier.Step s.barrier b s'.barrier) ∨
      (e.barrier = none ∧ s'.barrier = s.barrier) := by
  cases e with
  | nextSlot d =>
    obtain ⟨⟨hd, hw⟩, rfl⟩ := by simpa [State.exec] using hst
    refine .inl ⟨_, rfl, ?_⟩
    have hφ : (s.nextSlot d).phase = Function.update s.phase d .arrived := by
      apply phase_updateDev rfl
      · exact TimerLoc.pending_signal _ _
      · simp [State.phase, hd, h.not_pending hw]
    simp only [State.barrier, hφ]
    exact .arrive d (by simp [State.phase, hd, hw])
  | ret d =>
    obtain ⟨⟨ht, hdone⟩, rfl⟩ := by simpa [State.exec] using hst
    have hd : d ∈ s.devList := h.attached d (by simp [ht])
    refine .inl ⟨_, rfl, ?_⟩
    have hφ : (s.move d .working).phase = Function.update s.phase d .working := by
      apply phase_updateDev (i := s.id d) (r := s.routine)
      · rw [Function.update_eq_self]
        rfl
      · rfl
      · simp [State.phase, State.move, hd]
    simp only [State.barrier, hφ]
    exact .resume d (by simp [State.phase, hd, ht, hdone])
  | sleep d =>
    obtain ⟨⟨ht, _⟩, rfl⟩ := by simpa [State.exec] using hst
    refine .inr ⟨rfl, ?_⟩
    simp only [State.barrier, phase_move (.inl ht) (.inr rfl)]
    rfl
  | wake d =>
    obtain ⟨ht, rfl⟩ := by simpa [State.exec] using hst
    refine .inr ⟨rfl, ?_⟩
    simp only [State.barrier, phase_move (.inr ht) (.inl rfl)]
    rfl
  | detach d =>
    obtain ⟨⟨hd, hw⟩, rfl⟩ := by simpa [State.exec] using hst
    refine .inl ⟨_, rfl, ?_⟩
    have hφ : (s.detachEvent d).phase = Function.update s.phase d .left := by
      apply phase_updateDev rfl
      · exact TimerLoc.pending_signal _ _
      · simp [State.phase, hd]
    simp only [State.barrier, hφ]
    exact .leave d (by simp [State.phase, hd, hw])
  | tick => exact .inl ⟨_, rfl, h.phase_tick hst⟩
  | routine =>
    obtain ⟨ht, hφ⟩ := phase_timerRoutine hst
    exact .inr ⟨rfl, by simp only [State.barrier, ht, hφ]⟩
  | wakeTimer =>
    have hw : s.wakeTimer = some s' := hst
    unfold State.wakeTimer at hw
    split at hw
    · rename_i hl
      cases hw
      refine .inr ⟨rfl, ?_⟩
      unfold State.barrier
      congr 1
      funext d
      refine phase_congr rfl rfl rfl ?_
      rw [hl]
      rfl
    · cases hw
  | stopTimer =>
    obtain ⟨_, rfl⟩ := by simpa [State.exec] using hst
    exact .inr ⟨rfl, rfl⟩

/-- The slot of a device that calls `next_slot` is over for it, and it returns when the next one has
begun. -/
theorem Inv.phase_nextSlot (h : Inv n s) {d : ℕ} (hst : s.exec (.nextSlot d) = some s') :
    s'.phase d = .arrived := by
  rcases h.barrier_step hst with ⟨b, hb, hstep⟩ | ⟨hb, -⟩
  · cases hb
    show s'.barrier.phase d = .arrived
    generalize s'.barrier = t at hstep
    cases hstep
    exact Function.update_self ..
  · cases hb

theorem Inv.phase_ret (h : Inv n s) {d : ℕ} (hst : s.exec (.ret d) = some s') :
    s.phase d = .released := by
  rcases h.barrier_step hst with ⟨b, hb, hstep⟩ | ⟨hb, -⟩
  · cases hb
    show s.barrier.phase d = .released
    generalize s'.barrier = t at hstep
    cases hstep
    assumption
  · cases hb

/-- The timer, seen as a barrier. -/
def barrierProjection (n : ℕ) :
    Lts.Projection ((State.lts n).guard fun s _ _ => Inv n s) (Barrier.lts (· < n)) where
  state := State.barrier
  label := Event.barrier
  init s hs := by
    have hinv : Inv n s := by
      rw [show s = State.started n from hs]
      exact inv_started n
    rw [show s = State.started n from hs] at hinv ⊢
    have hφ : (State.started n).phase = fun d => if d < n then .working else .left := by
      funext d
      simp only [State.phase, hinv.mem_devList]
      rw [State.started, State.attached_eq]
      rfl
    simp only [State.barrier, hφ]
    rw [State.started, State.attached_eq]
    rfl
  step s e s' hst := hst.2.barrier_step hst.1

/-- Every run of the timer is a run of the barrier. -/
theorem barrierRun_of_run {tr : List Event} (h : (State.lts n).Run tr s) :
    (Barrier.lts (· < n)).Run (tr.filterMap Event.barrier) s.barrier := by
  apply (barrierProjection n).run
  apply h.guard_of_invariant
  · rintro s rfl
    exact inv_started n
  · intro s e s' hs hst
    exact hs.exec hst

/-! ## Runs -/

theorem count_barrier (tr : List Event) {e : Event} {b : Barrier.Event ℕ}
    (h : ∀ e', e'.barrier = some b ↔ e' = e) :
    (tr.filterMap Event.barrier).count b = tr.count e := by
  induction tr with
  | nil => rfl
  | cons e' tr ih =>
    rw [List.count_cons, List.filterMap_cons, ← ih]
    cases hb : e'.barrier with
    | none =>
      have hne : ¬e' = e := by
        rw [← h, hb]
        simp
      simp [hne]
    | some b' =>
      have hiff : e' = e ↔ b' = b := by
        rw [← h, hb, Option.some_inj]
      simp [List.count_cons, hiff]

theorem count_nextSlot (tr : List Event) (d : ℕ) :
    (tr.filterMap Event.barrier).count (.arrive d) = tr.count (.nextSlot d) := by
  apply count_barrier
  intro e'
  cases e'
  all_goals simp [Event.barrier]

theorem count_ret (tr : List Event) (d : ℕ) :
    (tr.filterMap Event.barrier).count (.resume d) = tr.count (.ret d) := by
  apply count_barrier
  intro e'
  cases e'
  all_goals simp [Event.barrier]

theorem Inv.phase_eq_left (h : Inv n s) {d : ℕ} (hd : d < n) :
    s.phase d = .left ↔ s.dev d = .detached := by
  simp only [State.phase, h.mem_devList.mpr hd, if_true]
  cases s.dev d
  all_goals simp
  all_goals split
  all_goals simp

/-- Only `_time++` changes the time. -/
theorem time_exec {e : Event} (hst : s.exec e = some s') :
    s'.time = if e = .tick then s.time + 1 else s.time := by
  cases e with
  | tick =>
    simp only [State.exec, State.tick] at hst
    split at hst
    all_goals cases hst
    rfl
  | routine => exact (phase_timerRoutine hst).1
  | wakeTimer =>
    simp only [State.exec, State.wakeTimer] at hst
    split at hst
    all_goals cases hst
    rfl
  | nextSlot d =>
    obtain ⟨_, rfl⟩ := by simpa [State.exec] using hst
    rfl
  | ret d =>
    obtain ⟨_, rfl⟩ := by simpa [State.exec] using hst
    rfl
  | sleep d =>
    obtain ⟨_, rfl⟩ := by simpa [State.exec] using hst
    rfl
  | wake d =>
    obtain ⟨_, rfl⟩ := by simpa [State.exec] using hst
    rfl
  | detach d =>
    obtain ⟨_, rfl⟩ := by simpa [State.exec] using hst
    rfl
  | stopTimer =>
    obtain ⟨_, rfl⟩ := by simpa [State.exec] using hst
    rfl

/-- Steps of a thread that is inside `next_slot` or `timer_routine`. Spurious wake-ups are not
among them, so progress does not rest on them. -/
def Event.Inside : Event → Prop
  | .ret _ | .sleep _ | .tick | .routine => True
  | _ => False

/-- A device that has not detached is at work or inside `next_slot`. -/
theorem inNextSlot_of_ne {l : DevLoc} (hw : l ≠ .working) (hd : l ≠ .detached) : l.InNextSlot := by
  cases l with
  | working => exact absurd rfl hw
  | testing => exact .inl rfl
  | asleep => exact .inr rfl
  | detached => exact absurd rfl hd

/-- The device for which the timer sleeps will find `done` cleared, and it is awake. -/
theorem Inv.progress_of_asleep (h : Inv n s) {d : ℕ} (hna : ¬(s.id d).Answered)
    (hw : s.dev d ≠ .working) : s.exec (.ret d) = some (s.move d .working) := by
  have hdone : (s.id d).done = false := by
    rw [← Bool.not_eq_true]
    exact fun hdone => hna (.inl hdone)
  have hnd : s.dev d ≠ .detached := by
    rw [Ne, ← (h.dev d).fsh_iff]
    exact fun hfsh => hna (.inr hfsh)
  have hns : s.dev d ≠ .asleep := by
    intro hsl
    rw [(h.dev d).asleep hsl] at hdone
    cases hdone
  have ht : s.dev d = .testing := (inNextSlot_of_ne hw hnd).resolve_right hns
  simp [State.exec, ht, hdone]

/-- As long as no device is at work and the threads have not all finished, some thread that is
inside `next_slot` or `timer_routine` can go on. -/
theorem Inv.progress (h : Inv n s) (hw : ∀ d < n, s.dev d ≠ .working) :
    (∃ e s', e.Inside ∧ s.exec e = some s') ∨
      (∀ d < n, s.dev d = .detached) ∧ s.routine = .exited := by
  have hr := h.routine
  cases hl : s.routine with
  | loop =>
    refine .inl ⟨.routine, ?_⟩
    simp only [State.exec, State.timerRoutine, hl]
    split
    all_goals exact ⟨_, trivial, rfl⟩
  | wait temp fsh event =>
    cases temp with
    | nil =>
      refine .inl ⟨.tick, ?_⟩
      simp only [State.exec, State.tick, hl]
      exact ⟨_, trivial, rfl⟩
    | cons d temp =>
      refine .inl ⟨.routine, ?_⟩
      simp only [State.exec, State.timerRoutine, hl]
      split
      all_goals exact ⟨_, trivial, rfl⟩
  | asleep d temp fsh event =>
    rw [hl] at hr
    obtain ⟨⟨seen, hdev, _⟩, hna⟩ := hr
    have hd : d < n := by
      rw [← h.mem_devList, hdev]
      simp
    exact .inl ⟨.ret d, _, trivial, h.progress_of_asleep hna (hw d hd)⟩
  | release temp fsh event =>
    refine .inl ⟨.routine, ?_⟩
    cases temp with
    | nil =>
      simp only [State.exec, State.timerRoutine, hl]
      split
      all_goals exact ⟨_, trivial, rfl⟩
    | cons d temp =>
      simp only [State.exec, State.timerRoutine, hl]
      exact ⟨_, trivial, rfl⟩
  | exited =>
    rw [hl] at hr
    refine .inr ⟨?_, rfl⟩
    intro d hd
    exact (h.dev d).fsh_iff.mp (hr d (h.mem_devList.mpr hd))

/-- What makes the timer a slot barrier, after the events `tr`. -/
structure SlotBarrier (n : ℕ) (tr : List Event) (s : State) : Prop where
  /-- A device that has not detached has returned from `_time` or `_time - 1` calls. -/
  returned : ∀ d < n, s.dev d ≠ .detached →
    tr.count (.ret d) = s.time ∨ tr.count (.ret d) + 1 = s.time
  /-- `_time` grows by one, when every device has called `next_slot` for the current slot or has
  detached. -/
  ticked : ∀ e s', s.exec e = some s' → s'.time ≠ s.time → s'.time = s.time + 1 ∧
    ∀ d < n, s.dev d = .detached ∨
      (s.dev d).InNextSlot ∧ tr.count (.nextSlot d) = s.time + 1
  /-- Some device is at its work, some thread inside can go on, or all threads have finished. -/
  progress : (∃ d < n, s.dev d = .working) ∨ (∃ e s', e.Inside ∧ s.exec e = some s') ∨
    (∀ d < n, s.dev d = .detached) ∧ s.routine = .exited

/-- In every run, with any number of devices, the timer is a slot barrier. -/
theorem slotBarrier_of_run {tr : List Event} (h : (State.lts n).Run tr s) : SlotBarrier n tr s where
  returned d hd hnd := by
    have hres := Barrier.resumed_eq_or (barrierRun_of_run h) (i := d)
      (by rwa [Ne, show s.barrier.phase d = s.phase d from rfl, (inv_of_run h).phase_eq_left hd])
    rwa [count_ret] at hres
  ticked e s' hst htime := by
    have hinv := inv_of_run h
    have ht := time_exec hst
    by_cases he : e = .tick
    · subst he
      rw [if_pos rfl] at ht
      refine ⟨ht, ?_⟩
      intro d hd
      have harr := Barrier.arrived_of_tick (barrierRun_of_run h) (hinv.phase_tick hst) d
      rw [show s.barrier.phase d = s.phase d from rfl, hinv.phase_eq_left hd, count_nextSlot] at harr
      rcases harr with hgone | ⟨hphase, hcount⟩
      · exact .inl hgone
      · refine .inr ⟨?_, hcount⟩
        apply inNextSlot_of_ne
        · intro hw
          simp [State.phase, hw, hinv.mem_devList.mpr hd] at hphase
        · intro hgone
          simp [State.phase, hgone] at hphase
    · rw [if_neg he] at ht
      exact absurd ht htime
  progress := by
    by_cases hw : ∃ d < n, s.dev d = .working
    · exact .inl hw
    · push Not at hw
      exact .inr ((inv_of_run h).progress hw)

/-- Device 1 calls `next_slot` again before the timer has released device 0. -/
def overlap : List Event :=
  [.routine, .routine, .nextSlot 1, .sleep 1, .routine, .nextSlot 0, .routine, .tick, .routine,
    .ret 1, .nextSlot 1, .routine, .routine, .ret 0, .detach 0, .routine, .routine]

theorem slotBarrier_overlap : ∃ s, (State.lts 2).Run overlap s ∧ s.time = 1 ∧
    s.id 1 = ⟨true, false⟩ ∧ SlotBarrier 2 overlap s := by
  obtain ⟨s, hrun, htest⟩ := Lts.exists_run_of_execAll (State.started 2) State.exec
    overlap (fun s => decide (s.time = 1 ∧ s.id 1 = ⟨true, false⟩)) (by decide)
  obtain ⟨ht, hid⟩ := of_decide_eq_true htest
  exact ⟨s, hrun, ht, hid, slotBarrier_of_run hrun⟩

end OsSim.Timer
