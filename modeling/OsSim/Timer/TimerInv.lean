import OsSim.Timer.Timer
import Mathlib.Data.List.Count
import Mathlib.Data.List.Nodup

/-!
# The invariant of the timer

How the flags of a device go with the position of its thread (`DevInv`), and
what each position of `timer_routine` says about the devices that it has passed
or has still to pass (`RoutineInv`).

Results:
* `Inv.updateDev`: what a step of one device has to show.
* `Inv.exec`, `inv_of_run`: the invariant holds in every reachable state.
-/

namespace OsSim.Timer

/-! ## The invariant -/

/-- The device has told the timer that it has done its job, or that it is gone. -/
def TimerId.Answered (i : TimerId) : Prop := i.done = true ∨ i.fsh = true

/-- The counters of `timer_routine` after it has passed the devices `seen`. -/
structure Passed (id : ℕ → TimerId) (seen : List ℕ) (fsh event : ℕ) : Prop where
  answered : ∀ d ∈ seen, (id d).Answered
  event_eq : event = seen.length
  fsh_le : fsh ≤ seen.countP fun d => (id d).fsh

/-- What a position of `timer_routine` says about the devices of the list. -/
def RoutineInv (devList : List ℕ) (id : ℕ → TimerId) : TimerLoc → Prop
  | .loop => True
  | .wait temp fsh event => ∃ seen, devList = seen ++ temp ∧ Passed id seen fsh event
  | .asleep d temp fsh event =>
    (∃ seen, devList = seen ++ d :: temp ∧ Passed id seen fsh event) ∧ ¬(id d).Answered
  | .release temp fsh event =>
    (∃ rel, devList = rel ++ temp) ∧ (∀ d ∈ temp, (id d).Answered) ∧
      event = devList.length ∧ fsh ≤ devList.countP fun d => (id d).fsh
  | .exited => ∀ d ∈ devList, (id d).fsh = true

/-- How the flags of a device go with the position of its thread. -/
structure DevInv (i : TimerId) (l : DevLoc) : Prop where
  fsh_iff : i.fsh = true ↔ l = .detached
  working : l = .working → i.done = false
  /-- No wake-up is lost: a device sleeps only as long as `done` is set. -/
  asleep : l = .asleep → i.done = true

/-- The invariant of `timer.c` with `n` devices. -/
structure Inv (n : ℕ) (s : State) : Prop where
  devList : s.devList = (List.range n).reverse
  attached : ∀ d, s.dev d ≠ .working → d ∈ s.devList
  dev : ∀ d, DevInv (s.id d) (s.dev d)
  stop : s.timerStop = true → ∀ d ∈ s.devList, s.dev d = .detached
  routine : RoutineInv s.devList s.id s.routine

theorem Inv.mem_devList {n : ℕ} {s : State} (h : Inv n s) {d : ℕ} : d ∈ s.devList ↔ d < n := by
  rw [h.devList, List.mem_reverse, List.mem_range]

theorem inv_started (n : ℕ) : Inv n (State.started n) := by
  rw [State.started, State.attached_eq]
  refine ⟨rfl, ?_, ?_, ?_, trivial⟩
  · intro d hd
    exact absurd rfl hd
  · intro d
    exact ⟨by simp [State.startTimer, State.boot], fun _ => rfl, fun h => nomatch h⟩
  · simp [State.startTimer, State.boot]

/-! ## Steps of the devices -/

/-- Some flags have been set, and none has been cleared. -/
structure Raised (id id' : ℕ → TimerId) : Prop where
  done : ∀ d, (id d).done = true → (id' d).done = true
  fsh : ∀ d, (id d).fsh = true → (id' d).fsh = true

theorem raised_update {id : ℕ → TimerId} {d : ℕ} {i : TimerId}
    (hd : (id d).done = true → i.done = true) (hf : (id d).fsh = true → i.fsh = true) :
    Raised id (Function.update id d i) := by
  refine ⟨?_, ?_⟩
  all_goals intro d' h'
  all_goals by_cases hdd : d' = d
  · subst hdd
    rw [Function.update_self]
    exact hd h'
  · rwa [Function.update_of_ne hdd]
  · subst hdd
    rw [Function.update_self]
    exact hf h'
  · rwa [Function.update_of_ne hdd]

section

variable {id id' : ℕ → TimerId} (h : Raised id id') {seen devList : List ℕ} {fsh event : ℕ}
include h

theorem Raised.answered {d : ℕ} (hd : (id d).Answered) : (id' d).Answered := by
  rcases hd with hd | hd
  · exact .inl (h.done d hd)
  · exact .inr (h.fsh d hd)

theorem Raised.countP_le : (seen.countP fun d => (id d).fsh) ≤ seen.countP fun d => (id' d).fsh := by
  apply List.countP_mono_left
  intro d _ hd
  exact h.fsh d hd

theorem Raised.passed (hp : Passed id seen fsh event) : Passed id' seen fsh event where
  answered d hd := h.answered (hp.answered d hd)
  event_eq := hp.event_eq
  fsh_le := Nat.le_trans hp.fsh_le h.countP_le

/-- A device that raises its own flags and signals the timer keeps the invariant of the timer. -/
theorem Raised.routineInv {d : ℕ} (hid : ∀ d', d' ≠ d → id' d' = id d') {r : TimerLoc}
    (hr : RoutineInv devList id r) : RoutineInv devList id' (r.signal d) := by
  cases r with
  | loop => trivial
  | wait temp fsh event =>
    obtain ⟨seen, hdev, hp⟩ := hr
    exact ⟨seen, hdev, h.passed hp⟩
  | asleep d' temp fsh event =>
    obtain ⟨⟨seen, hdev, hp⟩, hna⟩ := hr
    by_cases hd : d' = d
    · simp only [TimerLoc.signal, hd, if_true]
      exact ⟨seen, by rw [hdev, hd], h.passed hp⟩
    · simp only [TimerLoc.signal, hd, if_false]
      refine ⟨⟨seen, hdev, h.passed hp⟩, ?_⟩
      rwa [hid d' hd]
  | release temp fsh event =>
    obtain ⟨hrel, hans, hev, hf⟩ := hr
    exact ⟨hrel, fun d hd => h.answered (hans d hd), hev, Nat.le_trans hf h.countP_le⟩
  | exited =>
    intro d hd
    exact h.fsh d (hr d hd)

end

variable {n : ℕ} {s s' : State}

/-- A step of the thread of one attached device keeps what is said about each device. -/
theorem Inv.updateDev (h : Inv n s) {d : ℕ} (hd : d ∈ s.devList) {i : TimerId} {l : DevLoc}
    (hdev : DevInv i l) {r : TimerLoc} (hstop : s.timerStop = true → l = .detached)
    (hr : RoutineInv s.devList (Function.update s.id d i) r) :
    Inv n { s with
      id := Function.update s.id d i
      routine := r
      dev := Function.update s.dev d l } where
  devList := h.devList
  attached d' hd' := by
    by_cases hdd : d' = d
    · rwa [hdd]
    · apply h.attached
      simpa only [Function.update_of_ne hdd] using hd'
  dev d' := by
    by_cases hdd : d' = d
    · simpa only [hdd, Function.update_self] using hdev
    · simpa only [Function.update_of_ne hdd] using h.dev d'
  stop hs d' hd' := by
    by_cases hdd : d' = d
    · simpa only [hdd, Function.update_self] using hstop hs
    · simpa only [Function.update_of_ne hdd] using h.stop hs d' hd'
  routine := hr

theorem Inv.timerStop_of_ne (h : Inv n s) {d : ℕ} (hd : d ∈ s.devList)
    (hl : s.dev d ≠ .detached) {p : Prop} (hstop : s.timerStop = true) : p :=
  absurd (h.stop hstop d hd) hl

theorem Inv.nextSlot (h : Inv n s) {d : ℕ} (hd : d ∈ s.devList) (hw : s.dev d = .working) :
    Inv n (s.nextSlot d) := by
  have hdev := h.dev d
  rw [hw] at hdev
  apply h.updateDev hd
  · refine ⟨?_, ?_, ?_⟩
    · simpa using hdev.fsh_iff
    · simp
    · simp
  · exact h.timerStop_of_ne hd (by simp [hw])
  · refine (raised_update ?_ ?_).routineInv ?_ h.routine
    · simp
    · simp
    · intro d' hdd
      exact Function.update_of_ne hdd _ _

theorem Inv.detachEvent (h : Inv n s) {d : ℕ} (hd : d ∈ s.devList) :
    Inv n (s.detachEvent d) := by
  apply h.updateDev hd
  · refine ⟨?_, ?_, ?_⟩
    · simp
    · simp
    · simp
  · simp
  · refine (raised_update ?_ ?_).routineInv ?_ h.routine
    · simp
    · simp
    · intro d' hdd
      exact Function.update_of_ne hdd _ _

/-- A device that waits changes its position only. -/
theorem Inv.move (h : Inv n s) {d : ℕ} {l : DevLoc} (hd : (s.dev d).InNextSlot)
    (hl : l = .testing ∨ l = .working ∧ (s.id d).done = false ∨
      l = .asleep ∧ (s.id d).done = true) : Inv n (s.move d l) := by
  have hnd : s.dev d ≠ .working ∧ s.dev d ≠ .detached := by
    rcases hd with hd | hd
    · simp [hd]
    · simp [hd]
  have hmem : d ∈ s.devList := h.attached d hnd.1
  have hfsh : (s.id d).fsh = false := by
    rw [← Bool.not_eq_true, (h.dev d).fsh_iff]
    exact hnd.2
  have hdev : DevInv (s.id d) l := by
    rcases hl with rfl | ⟨rfl, hdone⟩ | ⟨rfl, hdone⟩
    · exact ⟨by simp [hfsh], by simp, by simp⟩
    · exact ⟨by simp [hfsh], by simp [hdone], by simp⟩
    · exact ⟨by simp [hfsh], by simp, by simp [hdone]⟩
  have := h.updateDev hmem hdev (r := s.routine) (h.timerStop_of_ne hmem hnd.2)
    (by rw [Function.update_eq_self]; exact h.routine)
  rwa [Function.update_eq_self] at this

/-! ## Steps of the timer -/

/-- `timer_routine` goes on without touching a device. -/
theorem Inv.goto (h : Inv n s) {r : TimerLoc} (hr : RoutineInv s.devList s.id r) :
    Inv n { s with routine := r } where
  devList := h.devList
  attached := h.attached
  dev := h.dev
  stop := h.stop
  routine := hr

theorem Passed.snoc {id : ℕ → TimerId} {seen : List ℕ} {fsh event d : ℕ}
    (hp : Passed id seen fsh event) (hd : (id d).Answered) :
    Passed id (seen ++ [d]) (if (id d).fsh then fsh + 1 else fsh) (event + 1) where
  answered d' hd' := by
    rw [List.mem_append, List.mem_singleton] at hd'
    rcases hd' with hd' | rfl
    · exact hp.answered d' hd'
    · exact hd
  event_eq := by simp [hp.event_eq]
  fsh_le := by
    rw [List.countP_append, List.countP_singleton]
    have := hp.fsh_le
    split
    all_goals omega

theorem DevInv.release {i : TimerId} {l : DevLoc} (h : DevInv i l) :
    DevInv { i with done := false } l.signal where
  fsh_iff := by
    rw [h.fsh_iff]
    cases l
    all_goals simp [DevLoc.signal]
  working _ := rfl
  asleep hl := by
    cases l
    all_goals cases hl

/-- The second `for` clears `done` of a device that waits, or of one that is gone. -/
theorem Inv.release (h : Inv n s) {d : ℕ} {temp : List ℕ} {fsh event : ℕ}
    (hl : s.routine = .release (d :: temp) fsh event) :
    Inv n { s with
      id := Function.update s.id d { s.id d with done := false }
      dev := Function.update s.dev d (s.dev d).signal
      routine := .release temp fsh event } := by
  have hr := h.routine
  rw [hl] at hr
  obtain ⟨⟨rel, hdev⟩, hans, hev, hf⟩ := hr
  have hnodup : (d :: temp).Nodup := by
    have hn : s.devList.Nodup := by
      rw [h.devList]
      exact List.nodup_reverse.mpr List.nodup_range
    rw [hdev] at hn
    exact (List.nodup_append.mp hn).2.1
  have hmem : d ∈ s.devList := by simp [hdev]
  have hd := h.dev d
  apply h.updateDev hmem
  · exact hd.release
  · intro hs
    rw [h.stop hs d hmem]
    rfl
  · refine ⟨⟨rel ++ [d], by simpa using hdev⟩, ?_, hev, ?_⟩
    · intro d' hd'
      have hne : d' ≠ d := by
        rintro rfl
        exact (List.nodup_cons.mp hnodup).1 hd'
      rw [Function.update_of_ne hne]
      exact hans d' (List.mem_cons_of_mem d hd')
    · have hfun : (fun d' => (Function.update s.id d { s.id d with done := false } d').fsh)
          = fun d' => (s.id d').fsh := by
        funext d'
        by_cases hdd : d' = d
        · rw [hdd, Function.update_self]
        · rw [Function.update_of_ne hdd]
      rw [hfun]
      exact hf

theorem Inv.timerRoutine (h : Inv n s) (hst : s.timerRoutine = some s') : Inv n s' := by
  have hr := h.routine
  unfold State.timerRoutine at hst
  split at hst
  · -- `while (!timer_stop)`
    split at hst
    all_goals rename_i hstop; cases hst
    · apply h.goto
      intro d hd
      rw [(h.dev d).fsh_iff]
      exact h.stop hstop d hd
    · apply h.goto
      exact ⟨[], rfl, by simp, rfl, by simp⟩
  · -- one device of the first `for`
    rename_i d temp fsh event hl
    rw [hl] at hr
    obtain ⟨seen, hdev, hp⟩ := hr
    split at hst
    all_goals rename_i hans; cases hst
    · apply h.goto
      refine ⟨seen ++ [d], by simpa using hdev, hp.snoc ?_⟩
      simpa [TimerId.Answered] using hans
    · apply h.goto
      refine ⟨⟨seen, hdev, hp⟩, ?_⟩
      simpa [TimerId.Answered] using hans
  · cases hst
  · cases hst
  · rename_i hl
    cases hst
    exact h.release hl
  · -- `if (fsh == event)`: every device was gone when the first `for` passed it
    rename_i fsh event hl
    rw [hl] at hr
    obtain ⟨_, _, hev, hf⟩ := hr
    split at hst
    all_goals rename_i heq; cases hst
    · apply h.goto
      apply List.countP_eq_length.mp
      have hle := List.countP_le_length (p := fun d => (s.id d).fsh) (l := s.devList)
      omega
    · exact h.goto trivial
  · cases hst

theorem Inv.tick (h : Inv n s) (hst : s.tick = some s') : Inv n s' := by
  have hr := h.routine
  unfold State.tick at hst
  split at hst
  · rename_i fsh event hl
    rw [hl] at hr
    obtain ⟨seen, hdev, hp⟩ := hr
    rw [List.append_nil] at hdev
    subst hdev
    cases hst
    exact ⟨h.devList, h.attached, h.dev, h.stop, ⟨[], rfl⟩, hp.answered, hp.event_eq, hp.fsh_le⟩
  · cases hst

theorem Inv.wakeTimer (h : Inv n s) (hst : s.wakeTimer = some s') : Inv n s' := by
  have hr := h.routine
  unfold State.wakeTimer at hst
  split at hst
  · rename_i hl
    rw [hl] at hr
    cases hst
    exact h.goto hr.1
  · cases hst

theorem Inv.exec (h : Inv n s) {e : Event} (hst : s.exec e = some s') : Inv n s' := by
  cases e with
  | nextSlot d =>
    obtain ⟨⟨hd, hw⟩, rfl⟩ := by simpa [State.exec] using hst
    exact h.nextSlot hd hw
  | ret d =>
    obtain ⟨⟨ht, hdone⟩, rfl⟩ := by simpa [State.exec] using hst
    exact h.move (.inl ht) (.inr (.inl ⟨rfl, hdone⟩))
  | sleep d =>
    obtain ⟨⟨ht, hdone⟩, rfl⟩ := by simpa [State.exec] using hst
    exact h.move (.inl ht) (.inr (.inr ⟨rfl, hdone⟩))
  | wake d =>
    obtain ⟨ht, rfl⟩ := by simpa [State.exec] using hst
    exact h.move (.inr ht) (.inl rfl)
  | detach d =>
    obtain ⟨⟨hd, _⟩, rfl⟩ := by simpa [State.exec] using hst
    exact h.detachEvent hd
  | tick => exact h.tick hst
  | routine => exact h.timerRoutine hst
  | wakeTimer => exact h.wakeTimer hst
  | stopTimer =>
    obtain ⟨hall, rfl⟩ := by simpa [State.exec] using hst
    exact ⟨h.devList, h.attached, h.dev, fun _ => hall, h.routine⟩

/-- The invariant holds in every reachable state. -/
theorem inv_of_run {tr : List Event} (h : (State.lts n).Run tr s) : Inv n s := by
  refine h.invariant ?_ ?_
  · rintro s rfl
    exact inv_started n
  · intro s e s' hs hst
    exact hs.exec hst

end OsSim.Timer
