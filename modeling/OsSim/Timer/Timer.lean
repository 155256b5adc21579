import OsSim.Lib.Lts

/-!
# The timer

`timer.c`: the devices are attached to a list, `timer_routine` waits until each
of them has done its job of the current slot, increases `_time` and lets them go
on one by one; `next_slot` is the device's side of it.

A block between `pthread_mutex_lock` and `pthread_mutex_unlock` is one step. A
thread whose predicate does not hold in `pthread_cond_wait` is asleep. It tests
the predicate again only after a signal on its condition variable or after a
spurious wake-up, which is a step of its own. A signal to nobody has no effect.

A device is named by its position in the order of the `attach_event` calls.
`_time` is a natural number; the 64-bit counter of the source wraps after `2^64`
slots.
-/

namespace OsSim.Timer

/-- `struct timer_id_t`; its locks and condition variables are in the steps. -/
structure TimerId where
  done : Bool
  fsh : Bool
  deriving DecidableEq

/-- Where the thread of a device is with respect to the timer. -/
inductive DevLoc
  /-- Outside `timer.c`, at the work of its slot. -/
  | working
  /-- In `next_slot`, before the test of `while (timer_id->done)`. -/
  | testing
  /-- In `pthread_cond_wait (&timer_id->timer_cond, ..)`. -/
  | asleep
  | detached
  deriving DecidableEq

/-- `pthread_cond_signal (&timer_id->timer_cond)`, as its device sees it. -/
def DevLoc.signal : DevLoc → DevLoc
  | .asleep => .testing
  | l => l

/-- The device has called `next_slot` and has not returned from it. -/
def DevLoc.InNextSlot (l : DevLoc) : Prop := l = .testing ∨ l = .asleep

instance (l : DevLoc) : Decidable l.InNextSlot := inferInstanceAs (Decidable (_ ∨ _))

/-- Where `timer_routine` is. `temp` is the rest of `dev_list` in one of its two loops. -/
inductive TimerLoc
  /-- At `while (!timer_stop)`. -/
  | loop
  /-- In the first `for`, before the test of `while (!temp->id.done && !temp->id.fsh)`. -/
  | wait (temp : List ℕ) (fsh event : ℕ)
  /-- In `pthread_cond_wait (&temp->id.event_cond, ..)` for the device `d`. -/
  | asleep (d : ℕ) (temp : List ℕ) (fsh event : ℕ)
  /-- In the second `for`. -/
  | release (temp : List ℕ) (fsh event : ℕ)
  | exited
  deriving DecidableEq

/-- `pthread_cond_signal (&timer_id->event_cond)` of the device `d`, as the timer sees it. -/
def TimerLoc.signal (d : ℕ) : TimerLoc → TimerLoc
  | .asleep d' temp fsh event =>
    if d' = d then .wait (d' :: temp) fsh event else .asleep d' temp fsh event
  | l => l

/-- The devices that the second `for` has still to release. -/
def TimerLoc.pending : TimerLoc → List ℕ
  | .release temp _ _ => temp
  | _ => []

/-- The variables of `timer.c` and the positions of the threads. -/
structure State where
  time : ℕ
  timerStarted : Bool
  timerStop : Bool
  devList : List ℕ
  id : ℕ → TimerId
  dev : ℕ → DevLoc
  routine : TimerLoc

namespace State

/-- The static variables before any call. -/
def boot : State where
  time := 0
  timerStarted := false
  timerStop := false
  devList := []
  id := fun _ => ⟨false, false⟩
  dev := fun _ => .working
  routine := .loop

/-- `attach_event`: the new container goes to the head of the list. -/
def attachEvent (s : State) : Option ℕ × State :=
  if s.timerStarted then (none, s)
  else
    let d := s.devList.length
    (some d, { s with devList := d :: s.devList, id := Function.update s.id d ⟨false, false⟩ })

/-- `start_timer`. -/
def startTimer (s : State) : State := { s with timerStarted := true }

/-- After `n` calls of `attach_event`. -/
def attached : ℕ → State
  | 0 => boot
  | n + 1 => (attached n).attachEvent.2

/-- `main` up to `start_timer`, with `n` devices. -/
def started (n : ℕ) : State := (attached n).startTimer

/-- `next_slot`, the block of `event_lock`. -/
def nextSlot (s : State) (d : ℕ) : State :=
  { s with
    id := Function.update s.id d { s.id d with done := true }
    routine := s.routine.signal d
    dev := Function.update s.dev d .testing }

/-- `detach_event`. -/
def detachEvent (s : State) (d : ℕ) : State :=
  { s with
    id := Function.update s.id d { s.id d with fsh := true }
    routine := s.routine.signal d
    dev := Function.update s.dev d .detached }

/-- The thread of device `d` goes to `l`. -/
def move (s : State) (d : ℕ) (l : DevLoc) : State := { s with dev := Function.update s.dev d l }

/-- One step of `timer_routine` other than `_time++`. -/
def timerRoutine (s : State) : Option State :=
  match s.routine with
  | .loop =>
    if s.timerStop then some { s with routine := .exited }
    else some { s with routine := .wait s.devList 0 0 }
  | .wait (d :: temp) fsh event =>
    if (s.id d).done || (s.id d).fsh then
      some { s with routine := .wait temp (if (s.id d).fsh then fsh + 1 else fsh) (event + 1) }
    else some { s with routine := .asleep d temp fsh event }
  | .wait [] _ _ => none
  | .asleep _ _ _ _ => none
  | .release (d :: temp) fsh event =>
    some { s with
      id := Function.update s.id d { s.id d with done := false }
      dev := Function.update s.dev d (s.dev d).signal
      routine := .release temp fsh event }
  | .release [] fsh event =>
    if fsh = event then some { s with routine := .exited } else some { s with routine := .loop }
  | .exited => none

/-- `_time++`, after the first `for`. -/
def tick (s : State) : Option State :=
  match s.routine with
  | .wait [] fsh event =>
    some { s with time := s.time + 1, routine := .release s.devList fsh event }
  | _ => none

/-- A spurious wake-up of `timer_routine`. -/
def wakeTimer (s : State) : Option State :=
  match s.routine with
  | .asleep d temp fsh event => some { s with routine := .wait (d :: temp) fsh event }
  | _ => none

end State

/-- The steps of the devices, of `timer_routine` and of `main`. -/
inductive Event
  /-- Device `d` calls `next_slot`. -/
  | nextSlot (d : ℕ)
  /-- It finds `done` cleared and returns. -/
  | ret (d : ℕ)
  /-- It finds `done` set and waits on `timer_cond`. -/
  | sleep (d : ℕ)
  | wake (d : ℕ)
  | detach (d : ℕ)
  | tick
  | routine
  | wakeTimer
  /-- `main`, having joined the threads of all devices, calls `stop_timer`. -/
  | stopTimer
  deriving DecidableEq

namespace State

/-- The state after an event, `none` where the event is not possible. -/
def exec (s : State) : Event → Option State
  | .nextSlot d => if d ∈ s.devList ∧ s.dev d = .working then some (s.nextSlot d) else none
  | .ret d =>
    if s.dev d = .testing ∧ (s.id d).done = false then some (s.move d .working) else none
  | .sleep d =>
    if s.dev d = .testing ∧ (s.id d).done = true then some (s.move d .asleep) else none
  | .wake d => if s.dev d = .asleep then some (s.move d .testing) else none
  | .detach d => if d ∈ s.devList ∧ s.dev d = .working then some (s.detachEvent d) else none
  | .tick => s.tick
  | .routine => s.timerRoutine
  | .wakeTimer => s.wakeTimer
  | .stopTimer =>
    if ∀ d ∈ s.devList, s.dev d = .detached then some { s with timerStop := true } else none

/-- The timer with `n` attached devices, from `start_timer` on. -/
def lts (n : ℕ) : Lts State Event := .ofFn (started n) exec

/-- No call of `attach_event` before `start_timer` fails, and each gives a new device. -/
theorem attached_eq (n : ℕ) : attached n = { boot with devList := (List.range n).reverse } := by
  induction n with
  | zero => rfl
  | succ n ih =>
    rw [attached, ih, List.range_succ, List.reverse_append]
    simp [attachEvent, boot]

end State

end OsSim.Timer
