import OsSim.Sched.Queue
import Mathlib.Algebra.Group.Nat.Defs
import Mathlib.Data.Int.Notation

/-!
# The multilevel queue

`sched.c` in the `MLQ_SCHED` build. `get_mlq_proc` scans the queues without the
lock and takes it only to reset the slots and to dequeue, so a call is modelled
by the positions it goes through: each step reads or writes one shared variable,
or is a block of `queue_lock`. `Grain` says how a caller sees a call: access by
access, or as one step.

Results:
* `GetLoc.step_spec`, `Grain.get_spec`: what a step of a call does to the queues.
* `getMlqProc_none`: a call that runs as one step returns `NULL` only if all
  queues are empty.
-/

namespace OsSim.Sched

/-- `MAX_PRIO`. -/
def maxPrio : ℕ := 140

/-- `mlq_ready_queue`, `slot` and `queue_lock`. Only indices below `MAX_PRIO` are in use. -/
structure Mlq where
  mlqReadyQueue : ℕ → Queue
  slot : ℕ → ℤ
  locked : Bool

namespace Mlq

/-- `init_scheduler`. -/
def init : Mlq where
  mlqReadyQueue := fun _ => .init
  slot := fun i => maxPrio - i
  locked := false

/-- The processes that wait with priority `prio`, first one first. -/
def ready (s : Mlq) (prio : ℕ) : List ℕ := (s.mlqReadyQueue prio).toList

def setQueue (s : Mlq) (prio : ℕ) (q : Queue) : Mlq :=
  { s with mlqReadyQueue := Function.update s.mlqReadyQueue prio q }

theorem ready_setQueue (s : Mlq) (prio : ℕ) (q : Queue) :
    (s.setQueue prio q).ready = Function.update s.ready prio q.toList := by
  funext i
  unfold ready setQueue
  by_cases hi : i = prio
  · subst hi
    simp
  · simp [Function.update_of_ne hi]

end Mlq

/-! ## `put_mlq_proc` and `add_mlq_proc` -/

/-- Why a process cannot be put on a queue now. -/
inductive PutError
  /-- Another thread is in a block of `queue_lock`. -/
  | locked
  /-- The index is outside `mlq_ready_queue`. -/
  | outOfBounds
  /-- The queue is full, and the simulator exits. -/
  | full
  deriving DecidableEq

/-- `enqueue(&mlq_ready_queue[proc->prio], proc)` under the lock. -/
def enqueueMlq (s : Mlq) (proc prio : ℕ) : Except PutError Mlq :=
  if s.locked then .error .locked
  else if maxPrio ≤ prio then .error .outOfBounds
  else
    match (s.mlqReadyQueue prio).enqueue proc with
    | none => .error .full
    | some q => .ok (s.setQueue prio q)

/-- `put_mlq_proc`. -/
def putMlqProc (s : Mlq) (proc prio : ℕ) : Except PutError Mlq := enqueueMlq s proc prio

/-- `add_mlq_proc`. -/
def addMlqProc (s : Mlq) (proc prio : ℕ) : Except PutError Mlq := enqueueMlq s proc prio

theorem enqueueMlq_ok {s s' : Mlq} {proc prio : ℕ} (h : enqueueMlq s proc prio = .ok s') :
    prio < maxPrio ∧ s'.ready = Function.update s.ready prio (s.ready prio ++ [proc]) := by
  unfold enqueueMlq at h
  split at h
  · cases h
  · split at h
    · cases h
    · rename_i hprio
      split at h
      · cases h
      · rename_i q hq
        cases h
        refine ⟨by omega, ?_⟩
        rw [Mlq.ready_setQueue, Queue.toList_enqueue hq]
        rfl

/-! ## `get_mlq_proc` -/

/-- Where a call of `get_mlq_proc` is. -/
inductive GetLoc
  /-- At `i < MAX_PRIO`, with the value of `flag`. -/
  | loop (i : ℕ) (flag : Bool)
  /-- In `check_new_process(i)`, at `j < i`. -/
  | checkEmpty (i j : ℕ) (flag : Bool)
  /-- In `check_new_process(i)`, at `slot[j] <= 0`. -/
  | checkSlot (i j : ℕ) (flag : Bool)
  /-- At `empty(&mlq_ready_queue[i])`. -/
  | testEmpty (i : ℕ) (flag : Bool)
  /-- At `slot[i] <= 0`. -/
  | testSlot (i : ℕ) (flag : Bool)
  /-- In `set_slot_for_queue`, before the lock. -/
  | lockReset
  /-- In `set_slot_for_queue`, at `i < MAX_PRIO` with the lock. -/
  | reset (i : ℕ)
  /-- Before the locked block of `get_mlq_proc`. -/
  | lockDequeue (i : ℕ)
  deriving DecidableEq

/-- Where a call of `get_mlq_proc` begins. -/
def GetLoc.start : GetLoc := .loop 0 false

/-- The next step of a call: it goes on from a position, or it returns; `none` if it has to wait
for the lock. -/
def GetLoc.step (s : Mlq) : GetLoc → Option (Mlq × (GetLoc ⊕ Option ℕ))
  | .loop i flag =>
    if i < maxPrio then some (s, .inl (.checkEmpty i 0 flag)) else some (s, .inr none)
  | .checkEmpty i j flag =>
    if j < i then
      if (s.mlqReadyQueue j).empty then some (s, .inl (.checkEmpty i (j + 1) flag))
      else some (s, .inl (.checkSlot i j flag))
    else some (s, .inl (.testEmpty i flag)) -- `return -2`
  | .checkSlot i j flag =>
    if s.slot j ≤ 0 then some (s, .inl (.checkEmpty i (j + 1) flag))
    else some (s, .inl (.loop j flag)) -- `return j - 1`, then `i = check; continue;` and `++i`
  | .testEmpty i flag =>
    if (s.mlqReadyQueue i).empty then
      if flag = true ∧ i = maxPrio - 1 then some (s, .inl .lockReset)
      else some (s, .inl (.loop (i + 1) flag))
    else some (s, .inl (.testSlot i flag))
  | .testSlot i _ =>
    if s.slot i ≤ 0 then
      if i = maxPrio - 1 then some (s, .inl .lockReset)
      else some (s, .inl (.loop (i + 1) true))
    else some (s, .inl (.lockDequeue i))
  | .lockReset => if s.locked then none else some ({ s with locked := true }, .inl (.reset 0))
  | .reset i =>
    if i < maxPrio then
      some ({ s with slot := Function.update s.slot i (maxPrio - i) }, .inl (.reset (i + 1)))
    else some ({ s with locked := false }, .inl (.loop 0 false)) -- `flag = 0; i = -1`
  | .lockDequeue i =>
    if s.locked then none
    else
      let (proc, q) := (s.mlqReadyQueue i).dequeue
      some ({ s.setQueue i q with slot := Function.update s.slot i (s.slot i - 1) }, .inr proc)

/-- A call that nobody interrupts, for at most `fuel` steps. -/
def runGet : ℕ → Mlq → GetLoc → Option (Mlq × Option ℕ)
  | 0, _, _ => none
  | fuel + 1, s, l =>
    match l.step s with
    | none => none
    | some (s', .inl l') => runGet fuel s' l'
    | some (s', .inr proc) => some (s', proc)

/-- `get_mlq_proc` as one step. Two scans of the queues and a reset of the slots take less than
`2 ^ 16` steps. -/
def getMlqProc (s : Mlq) : Option (Mlq × Option ℕ) := runGet (2 ^ 16) s .start

/-- How the other threads see a call of `get_mlq_proc`. -/
inductive Grain
  /-- They may come between any two accesses to shared variables. -/
  | access
  /-- The call is atomic. -/
  | call
  deriving DecidableEq

/-- A step of a call of `get_mlq_proc` that has come to `l`. -/
def Grain.get (g : Grain) (s : Mlq) (l : GetLoc) : Option (Mlq × (GetLoc ⊕ Option ℕ)) :=
  match g with
  | .access => l.step s
  | .call => (runGet (2 ^ 16) s l).map fun r => (r.1, .inr r.2)

/-! ## What a step of a call does -/

/-- A step takes the first process of one queue and returns it, or leaves all queues as they
are. -/
def GetEffect (s s' : Mlq) : GetLoc ⊕ Option ℕ → Prop
  | .inr (some p) => ∃ i rest, s.ready i = p :: rest ∧ s'.ready = Function.update s.ready i rest
  | _ => s'.ready = s.ready

theorem GetLoc.step_spec {s s' : Mlq} {l : GetLoc} {r : GetLoc ⊕ Option ℕ}
    (h : l.step s = some (s', r)) : GetEffect s s' r := by
  cases l with
  | lockDequeue i =>
    simp only [GetLoc.step] at h
    split at h
    · cases h
    · have hdq := (s.mlqReadyQueue i).toList_dequeue
      cases hd : (s.mlqReadyQueue i).dequeue with
      | mk proc q =>
        rw [hd] at h hdq
        cases h
        have hready := s.ready_setQueue i q
        cases proc with
        | none =>
          show (s.setQueue i q).ready = s.ready
          rw [hready]
          apply Function.update_eq_self_iff.mpr
          simpa [Mlq.ready] using hdq.symm
        | some p => exact ⟨i, q.toList, hdq, hready⟩
  | _ =>
    simp only [GetLoc.step] at h
    repeat' split at h
    all_goals cases h
    all_goals rfl

theorem runGet_spec {fuel : ℕ} {s s' : Mlq} {l : GetLoc} {o : Option ℕ}
    (h : runGet fuel s l = some (s', o)) : GetEffect s s' (.inr o) := by
  induction fuel generalizing s l with
  | zero => cases h
  | succ fuel ih =>
    unfold runGet at h
    split at h
    · cases h
    · rename_i s1 l1 hst
      have heq : s1.ready = s.ready := GetLoc.step_spec hst
      have := ih h
      unfold GetEffect at this ⊢
      rwa [heq] at this
    · rename_i hst
      cases h
      exact GetLoc.step_spec hst

/-- Whatever the grain, a step of a call takes the first process of one queue and returns it, or
leaves all queues as they are. -/
theorem Grain.get_spec {g : Grain} {s s' : Mlq} {l : GetLoc} {r : GetLoc ⊕ Option ℕ}
    (h : g.get s l = some (s', r)) : GetEffect s s' r := by
  cases g with
  | access => exact GetLoc.step_spec h
  | call =>
    obtain ⟨⟨s1, o⟩, hrun, heq⟩ := Option.map_eq_some_iff.mp h
    cases heq
    exact runGet_spec hrun

theorem ready_eq_nil_iff (s : Mlq) (i : ℕ) :
    s.ready i = [] ↔ (s.mlqReadyQueue i).empty = true :=
  Queue.toList_eq_nil_iff _

/-- The branches of `get_mlq_proc`, in terms of the processes that wait. -/
inductive GetMove (s : Mlq) : GetLoc → Mlq → GetLoc ⊕ Option ℕ → Prop
  | check (i : ℕ) (flag : Bool) : i < maxPrio →
      GetMove s (.loop i flag) s (.inl (.checkEmpty i 0 flag))
  | null (i : ℕ) (flag : Bool) : maxPrio ≤ i → GetMove s (.loop i flag) s (.inr none)
  | skipEmpty (i j : ℕ) (flag : Bool) : j < i → s.ready j = [] →
      GetMove s (.checkEmpty i j flag) s (.inl (.checkEmpty i (j + 1) flag))
  | look (i j : ℕ) (flag : Bool) : j < i → s.ready j ≠ [] →
      GetMove s (.checkEmpty i j flag) s (.inl (.checkSlot i j flag))
  | checked (i j : ℕ) (flag : Bool) : i ≤ j →
      GetMove s (.checkEmpty i j flag) s (.inl (.testEmpty i flag))
  | skipUsed (i j : ℕ) (flag : Bool) : s.slot j ≤ 0 →
      GetMove s (.checkSlot i j flag) s (.inl (.checkEmpty i (j + 1) flag))
  | back (i j : ℕ) (flag : Bool) : 0 < s.slot j →
      GetMove s (.checkSlot i j flag) s (.inl (.loop j flag))
  | empty (i : ℕ) (flag : Bool) : s.ready i = [] → ¬(flag = true ∧ i = maxPrio - 1) →
      GetMove s (.testEmpty i flag) s (.inl (.loop (i + 1) flag))
  | emptyLast (i : ℕ) : s.ready i = [] → i = maxPrio - 1 →
      GetMove s (.testEmpty i true) s (.inl .lockReset)
  | nonempty (i : ℕ) (flag : Bool) : s.ready i ≠ [] →
      GetMove s (.testEmpty i flag) s (.inl (.testSlot i flag))
  | used (i : ℕ) (flag : Bool) : s.slot i ≤ 0 → i ≠ maxPrio - 1 →
      GetMove s (.testSlot i flag) s (.inl (.loop (i + 1) true))
  | usedLast (i : ℕ) (flag : Bool) : s.slot i ≤ 0 → i = maxPrio - 1 →
      GetMove s (.testSlot i flag) s (.inl .lockReset)
  | found (i : ℕ) (flag : Bool) : 0 < s.slot i →
      GetMove s (.testSlot i flag) s (.inl (.lockDequeue i))
  | lock : s.locked = false → GetMove s .lockReset { s with locked := true } (.inl (.reset 0))
  | write (i : ℕ) : i < maxPrio →
      GetMove s (.reset i) { s with slot := Function.update s.slot i (maxPrio - i) }
        (.inl (.reset (i + 1)))
  | unlock (i : ℕ) : maxPrio ≤ i →
      GetMove s (.reset i) { s with locked := false } (.inl (.loop 0 false))
  | dispatch (i p : ℕ) (rest : List ℕ) (s' : Mlq) : s.locked = false → s.ready i = p :: rest →
      s'.ready = Function.update s.ready i rest →
      s'.slot = Function.update s.slot i (s.slot i - 1) →
      GetMove s (.lockDequeue i) s' (.inr (some p))
  | miss (i : ℕ) (s' : Mlq) : s.locked = false → s.ready i = [] → s'.ready = s.ready →
      s'.slot = Function.update s.slot i (s.slot i - 1) → GetMove s (.lockDequeue i) s' (.inr none)

theorem GetLoc.move_of_step {s s' : Mlq} {l : GetLoc} {r : GetLoc ⊕ Option ℕ}
    (h : l.step s = some (s', r)) : GetMove s l s' r := by
  have hspec := GetLoc.step_spec h
  cases l with
  | loop i flag =>
    simp only [GetLoc.step] at h
    split at h
    all_goals cases h
    · exact .check i flag (by assumption)
    · exact .null i flag (by omega)
  | checkEmpty i j flag =>
    simp only [GetLoc.step, ← ready_eq_nil_iff] at h
    split at h
    · split at h
      all_goals cases h
      · exact .skipEmpty i j flag (by assumption) (by assumption)
      · exact .look i j flag (by assumption) (by assumption)
    · cases h
      exact .checked i j flag (by omega)
  | checkSlot i j flag =>
    simp only [GetLoc.step] at h
    split at h
    all_goals cases h
    · exact .skipUsed i j flag (by assumption)
    · exact .back i j flag (by omega)
  | testEmpty i flag =>
    simp only [GetLoc.step, ← ready_eq_nil_iff] at h
    split at h
    · split at h
      · rename_i hlast
        obtain ⟨rfl, hi⟩ := hlast
        cases h
        exact .emptyLast i (by assumption) hi
      · cases h
        exact .empty i flag (by assumption) (by assumption)
    · cases h
      exact .nonempty i flag (by assumption)
  | testSlot i flag =>
    simp only [GetLoc.step] at h
    split at h
    · split at h
      all_goals cases h
      · exact .usedLast i flag (by assumption) (by assumption)
      · exact .used i flag (by assumption) (by assumption)
    · cases h
      exact .found i flag (by omega)
  | lockReset =>
    simp only [GetLoc.step] at h
    split at h
    all_goals cases h
    exact .lock (by simpa using ‹¬s.locked = true›)
  | reset i =>
    simp only [GetLoc.step] at h
    split at h
    all_goals cases h
    · exact .write i (by assumption)
    · exact .unlock i (by omega)
  | lockDequeue i =>
    simp only [GetLoc.step] at h
    split at h
    · cases h
    · rename_i hlock
      have hfree : s.locked = false := by simpa using hlock
      cases hd : (s.mlqReadyQueue i).dequeue with
      | mk o q =>
        rw [hd] at h
        cases h
        cases o with
        | none =>
          have hnil : s.ready i = [] := by
            rw [ready_eq_nil_iff, ← Queue.dequeue_eq_none_iff, hd]
          exact .miss i _ hfree hnil hspec rfl
        | some p =>
          have hdq := (s.mlqReadyQueue i).toList_dequeue
          rw [hd] at hdq
          exact .dispatch i p q.toList _ hfree hdq (s.ready_setQueue i q) rfl

/-! ## Calls that nobody interrupts -/

/-- As long as `flag` is not set, every queue that the scan has passed is empty. -/
def Passed (s : Mlq) (i : ℕ) (flag : Bool) : Prop := flag = false → ∀ j < i, s.ready j = []

/-- What a call that runs alone knows at each of its positions. -/
def GetInv (s : Mlq) : GetLoc → Prop
  | .loop i flag => i ≤ maxPrio ∧ (i = maxPrio → flag = false) ∧ Passed s i flag
  | .checkEmpty i _ flag => i < maxPrio ∧ Passed s i flag
  | .checkSlot i j flag => i < maxPrio ∧ j < i ∧ Passed s i flag
  | .testEmpty i flag => i < maxPrio ∧ Passed s i flag
  | .testSlot i _ => i < maxPrio ∧ s.ready i ≠ []
  | .lockReset => True
  | .reset _ => True
  | .lockDequeue i => s.ready i ≠ []

theorem getInv_step {s s' : Mlq} {l l' : GetLoc} (h : GetInv s l)
    (hst : l.step s = some (s', .inl l')) : GetInv s' l' := by
  cases l with
  | loop i flag =>
    obtain ⟨_, _, hp⟩ := h
    simp only [GetLoc.step] at hst
    split at hst
    all_goals cases hst
    exact ⟨by assumption, hp⟩
  | checkEmpty i j flag =>
    obtain ⟨hi, hp⟩ := h
    simp only [GetLoc.step] at hst
    split at hst
    · split at hst
      all_goals cases hst
      · exact ⟨hi, hp⟩
      · exact ⟨hi, by assumption, hp⟩
    · cases hst
      exact ⟨hi, hp⟩
  | checkSlot i j flag =>
    obtain ⟨hi, hj, hp⟩ := h
    simp only [GetLoc.step] at hst
    split at hst
    all_goals cases hst
    · exact ⟨hi, hp⟩
    · refine ⟨by omega, by omega, ?_⟩
      intro hflag j' hj'
      exact hp hflag j' (by omega)
  | testEmpty i flag =>
    obtain ⟨hi, hp⟩ := h
    simp only [GetLoc.step] at hst
    split at hst
    · rename_i hempty
      split at hst
      all_goals rename_i hlast; cases hst
      · trivial
      · refine ⟨hi, ?_, ?_⟩
        · intro heq
          rw [← Bool.not_eq_true]
          exact fun hflag => hlast ⟨hflag, by omega⟩
        · intro hflag j hj
          by_cases hji : j = i
          · rw [hji, ready_eq_nil_iff]
            exact hempty
          · exact hp hflag j (by omega)
    · rename_i hempty
      cases hst
      exact ⟨hi, by rwa [Ne, ready_eq_nil_iff]⟩
  | testSlot i flag =>
    obtain ⟨hi, hne⟩ := h
    simp only [GetLoc.step] at hst
    split at hst
    · split at hst
      all_goals rename_i hlast; cases hst
      · trivial
      · exact ⟨hi, by omega, fun hflag => absurd hflag (by simp)⟩
    · cases hst
      exact hne
  | lockReset =>
    simp only [GetLoc.step] at hst
    split at hst
    all_goals cases hst
    trivial
  | reset i =>
    simp only [GetLoc.step] at hst
    split at hst
    all_goals cases hst
    · trivial
    · refine ⟨Nat.zero_le _, fun _ => rfl, ?_⟩
      intro _ j hj
      exact absurd hj (Nat.not_lt_zero j)
  | lockDequeue i =>
    simp only [GetLoc.step] at hst
    split at hst
    all_goals cases hst

theorem getInv_return {s s' : Mlq} {l : GetLoc} (h : GetInv s l)
    (hst : l.step s = some (s', .inr none)) : ∀ i < maxPrio, s.ready i = [] := by
  cases l with
  | loop i flag =>
    obtain ⟨hi, hflag, hp⟩ := h
    simp only [GetLoc.step] at hst
    split at hst
    all_goals cases hst
    have heq : i = maxPrio := by omega
    subst heq
    exact hp (hflag rfl)
  | lockDequeue i =>
    simp only [GetLoc.step] at hst
    split at hst
    · cases hst
    · have hnone : (s.mlqReadyQueue i).dequeue.1 = none := by
        simp only [Option.some.injEq, Prod.mk.injEq, Sum.inr.injEq] at hst
        exact hst.2
      rw [Queue.dequeue_eq_none_iff, ← ready_eq_nil_iff] at hnone
      exact absurd hnone h
  | _ =>
    simp only [GetLoc.step] at hst
    repeat' split at hst
    all_goals cases hst

theorem runGet_none {fuel : ℕ} {s s' : Mlq} {l : GetLoc} (h : GetInv s l)
    (hrun : runGet fuel s l = some (s', none)) : ∀ i < maxPrio, s.ready i = [] := by
  induction fuel generalizing s l with
  | zero => cases hrun
  | succ fuel ih =>
    unfold runGet at hrun
    split at hrun
    · cases hrun
    · rename_i s1 l1 hst
      have heq : s1.ready = s.ready := GetLoc.step_spec hst
      rw [← heq]
      exact ih (getInv_step h hst) hrun
    · rename_i hst
      cases hrun
      exact getInv_return h hst

theorem getInv_start (s : Mlq) : GetInv s .start :=
  ⟨Nat.zero_le _, fun _ => rfl, fun _ j hj => absurd hj (Nat.not_lt_zero j)⟩

/-- An uninterrupted call of `get_mlq_proc` returns `NULL` only if all queues are empty. -/
theorem getMlqProc_none {s s' : Mlq} (h : getMlqProc s = some (s', none)) :
    ∀ i < maxPrio, s.ready i = [] :=
  runGet_none (getInv_start s) h

end OsSim.Sched
