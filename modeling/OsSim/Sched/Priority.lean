import OsSim.Lib.Arrivals
import OsSim.Lib.Lts
import OsSim.Sched.Queue

/-!
# Scheduling by priority

The scheduler without `MLQ_SCHED`: `sched.c`, lines 19–46 and 164–196, and the
second half of `dequeue` in `queue.c`. Processes that the loader adds enter
`ready_queue`, those that a CPU puts back enter `run_queue`, and `get_proc` takes
the process with the smallest `priority`, from `run_queue` only if `ready_queue`
is empty. Each call holds `queue_lock` as a whole.

A CPU calls `put_proc` with the process that it has got and `get_proc` when it has
none, and the loader adds each process once, as `cpu_routine` and `ld_routine` do.

Results:
* `dequeue_fst`, `toList_dequeue`: `dequeue` takes the first of the processes with the
  smallest priority.
* `chosen_of_run`: in every run, `get_proc` takes the best process that has never been
  dispatched, and if there is none, of those put back the best one that has waited longest.
* `firstSlice_of_run`: how many processes go before one that waits for its first time slice.
* `starved`: a process that has been put back can wait forever.
-/

namespace OsSim.Sched.Priority

open Arrivals

variable (prio : ℕ → ℕ)

/-! ## The queue -/

/-- `q->proc[i]->priority`, for an entry that is in the queue. -/
def priority (q : Queue) (i : ℕ) : ℕ := (q.proc i).elim 0 prio

/-- The first loop of `dequeue`, for `i = 1, …, n`: the value of `index`. -/
def index (q : Queue) : ℕ → ℕ
  | 0 => 0
  | n + 1 =>
    if priority prio q (n + 1) < priority prio q (index q n) then n + 1 else index q n

/-- The second loop, `k` times from `i = index` on: `q->proc[i] = q->proc[i + 1]`. -/
def shiftFrom (proc : ℕ → Option ℕ) (index : ℕ) : ℕ → ℕ → Option ℕ
  | 0 => proc
  | k + 1 =>
    Function.update (shiftFrom proc index k) (index + k) (shiftFrom proc index k (index + k + 1))

theorem size_pred_le (q : Queue) : q.size - 1 ≤ maxQueueSize :=
  Nat.le_trans (Nat.sub_le _ _) q.size_le

theorem index_le (q : Queue) (n : ℕ) : index prio q n ≤ n := by
  induction n with
  | zero => exact Nat.le_refl 0
  | succ n ih =>
    rw [index]
    split <;> omega

theorem shiftFrom_apply (proc : ℕ → Option ℕ) (index k i : ℕ) :
    shiftFrom proc index k i = if index ≤ i ∧ i < index + k then proc (i + 1) else proc i := by
  induction k generalizing i with
  | zero => rw [shiftFrom, if_neg (by omega)]
  | succ k ih =>
    rw [shiftFrom]
    by_cases hi : i = index + k
    · rw [hi, Function.update_self, ih, if_neg (by omega), if_pos (by omega)]
    · rw [Function.update_of_ne hi, ih]
      congr 1
      rw [eq_iff_iff]
      omega

/-- No entry of a queue that has lost one is missing. -/
theorem isSome_shiftFrom (q : Queue) (index : ℕ) : ∀ i < q.size - 1,
    (Function.update (shiftFrom q.proc index (q.size - 1 - index)) (q.size - 1) none i).isSome := by
  intro i hi
  rw [Function.update_of_ne (by omega), shiftFrom_apply]
  split
  · exact q.isSome (i + 1) (by omega)
  · exact q.isSome i (by omega)

/-- `dequeue`. -/
def dequeue (q : Queue) : Option ℕ × Queue :=
  if q.size = 0 then (none, q)
  else
    let index := index prio q (q.size - 1)
    (q.proc index,
      { proc := Function.update (shiftFrom q.proc index (q.size - 1 - index)) (q.size - 1) none
        size := q.size - 1
        size_le := size_pred_le q
        isSome := isSome_shiftFrom q index })

variable {prio} {q q' : Queue}

/-- No priority is smaller than that at `index`. -/
theorem priority_index_le {n i : ℕ} (hi : i ≤ n) :
    priority prio q (index prio q n) ≤ priority prio q i := by
  induction n with
  | zero => rw [Nat.le_zero.mp hi, index]
  | succ n ih =>
    rw [index]
    obtain rfl | hlt := hi.eq_or_lt
    · split <;> omega
    · have := ih (Nat.lt_succ_iff.mp hlt)
      split <;> omega

/-- Those before `index` are larger. -/
theorem priority_index_lt {n i : ℕ} (hi : i < index prio q n) :
    priority prio q (index prio q n) < priority prio q i := by
  induction n with
  | zero => exact absurd hi (Nat.not_lt_zero i)
  | succ n ih =>
    rw [index] at hi ⊢
    split at hi
    · rename_i hlt
      rw [if_pos hlt]
      exact hlt.trans_le (priority_index_le (Nat.lt_succ_iff.mp hi))
    · rename_i hlt
      rw [if_neg hlt]
      exact ih hi

/-- On the list of the processes, the first loop finds the first one of the smallest priority. -/
theorem argmin_range (q : Queue) {n : ℕ} (hn : n < q.size) :
    ((List.range (n + 1)).filterMap q.proc).argmin prio = q.proc (index prio q n) := by
  induction n with
  | zero =>
    obtain ⟨p, hp⟩ := Option.isSome_iff_exists.mp (q.isSome 0 hn)
    simp [index, hp]
  | succ n ih =>
    obtain ⟨p, hp⟩ := Option.isSome_iff_exists.mp (q.isSome (n + 1) hn)
    obtain ⟨b, hb⟩ := Option.isSome_iff_exists.mp
      (q.isSome (index prio q n) (by have := index_le prio q n; omega))
    have hlast : [n + 1].filterMap q.proc = [p] := by simp [hp]
    rw [List.range_succ, List.filterMap_append, hlast, List.argmin_concat, ih (by omega), hb]
    simp only [index, priority, hp, hb, Option.elim_some]
    split
    · exact hp.symm
    · exact hb.symm

theorem dequeue_fst (q : Queue) : (dequeue prio q).1 = q.toList.argmin prio := by
  unfold dequeue Queue.toList
  split
  · rename_i h
    simp [h]
  · rename_i h
    have hmin := @argmin_range prio q (q.size - 1) (by omega)
    rw [Nat.sub_add_cancel (by omega)] at hmin
    exact hmin.symm

/-- Leaving out the entry at `i` and moving down those behind it. -/
theorem filterMap_range_eq_erase {f : ℕ → Option ℕ} {i n p : ℕ} (hi : i ≤ n) (hp : f i = some p)
    (hne : ∀ j < i, f j ≠ some p) :
    (List.range n).filterMap (fun j => if j < i then f j else f (j + 1)) =
      ((List.range (n + 1)).filterMap f).erase p := by
  obtain ⟨m, rfl⟩ := Nat.exists_eq_add_of_le hi
  have hpre : p ∉ (List.range i).filterMap f := by
    intro hmem
    obtain ⟨j, hj, hjp⟩ := List.mem_filterMap.mp hmem
    exact hne j (List.mem_range.mp hj) hjp
  have hl : (List.range (i + m + 1)).filterMap f =
      (List.range i).filterMap f ++ p :: (List.range m).filterMap fun j => f (i + j + 1) := by
    rw [Nat.add_assoc, List.range_add, List.filterMap_append, List.filterMap_map,
      List.range_succ_eq_map, List.filterMap_cons_some (by exact hp), List.filterMap_map]
    rfl
  rw [hl, List.erase_append_right _ hpre, List.erase_cons_head, List.range_add,
    List.filterMap_append, List.filterMap_map]
  congr 1
  · apply List.filterMap_congr
    intro j hj
    exact if_pos (List.mem_range.mp hj)
  · apply List.filterMap_congr
    intro j _
    exact if_neg (Nat.not_lt.mpr (Nat.le_add_right i j))

/-- The other processes stay, in their order. -/
theorem toList_dequeue {p : ℕ} (hp : (dequeue prio q).1 = some p) :
    (dequeue prio q).2.toList = q.toList.erase p := by
  unfold dequeue at hp ⊢
  split at hp
  · cases hp
  · rename_i hne
    rw [if_neg hne]
    have hle := index_le prio q (q.size - 1)
    have hlt : ∀ j < index prio q (q.size - 1), q.proc j ≠ some p := by
      intro j hj hjp
      have hlt := priority_index_lt hj
      rw [priority, priority, hjp, show q.proc (index prio q (q.size - 1)) = some p from hp] at hlt
      exact Nat.lt_irrefl _ hlt
    have herase := filterMap_range_eq_erase hle hp hlt
    rw [Nat.sub_add_cancel (by omega)] at herase
    refine Eq.trans ?_ herase
    apply List.filterMap_congr
    intro j hj
    have hj := List.mem_range.mp hj
    dsimp only at hj ⊢
    rw [Function.update_of_ne (by omega), shiftFrom_apply]
    by_cases h : j < index prio q (q.size - 1)
    · rw [if_neg (by omega), if_pos h]
    · rw [if_pos (by omega), if_neg h]

theorem dequeue_of_none (h : (dequeue prio q).1 = none) : (dequeue prio q).2 = q := by
  unfold dequeue at h ⊢
  split at h
  · rename_i h0
    rw [if_pos h0]
  · rename_i hne
    have hle := index_le prio q (q.size - 1)
    have := q.isSome (index prio q (q.size - 1)) (by omega)
    simp only at h
    simp [h] at this

/-! ## The calls -/

/-- The queues, how many processes the loader has added, and which process each CPU has. -/
structure State (n : ℕ) where
  ready : Queue
  run : Queue
  added : ℕ
  held : Fin n → Option ℕ

inductive Call (n : ℕ)
  /-- `add_proc` of the next process. -/
  | add (proc : ℕ)
  /-- `get_proc` and what it returns. -/
  | get (k : Fin n) (ret : Option ℕ)
  | put (k : Fin n) (proc : ℕ)
  /-- A CPU frees a process that has finished. -/
  | free (k : Fin n) (proc : ℕ)

variable {n : ℕ}

/-- After `init_scheduler`. -/
def State.init (n : ℕ) : State n :=
  { ready := .init, run := .init, added := 0, held := fun _ => none }

/-- `queue_empty`. -/
def State.queueEmpty (s : State n) : Bool := s.ready.empty && s.run.empty

/-- `add_proc`; `none` is the `exit(1)` of `enqueue`. -/
def State.addProc (s : State n) (proc : ℕ) : Option (State n) :=
  (s.ready.enqueue proc).map fun q => { s with ready := q }

/-- `put_proc`. -/
def State.putProc (s : State n) (proc : ℕ) : Option (State n) :=
  (s.run.enqueue proc).map fun q => { s with run := q }

variable (prio) in
/-- `get_proc`. -/
def State.getProc (s : State n) : Option ℕ × State n :=
  if s.ready.empty then
    let (proc, q) := dequeue prio s.run
    (proc, { s with run := q })
  else
    let (proc, q) := dequeue prio s.ready
    (proc, { s with ready := q })

variable (prio) in
/-- One call by a CPU or the loader. -/
def State.exec (s : State n) : Call n → Option (State n)
  | .add proc =>
    if proc = s.added then (s.addProc proc).map fun s => { s with added := proc + 1 } else none
  | .get k ret =>
    if s.held k = none ∧ (s.getProc prio).1 = ret then
      some { (s.getProc prio).2 with held := Function.update s.held k ret }
    else none
  | .put k proc =>
    if s.held k = some proc then
      (s.putProc proc).map fun s => { s with held := Function.update s.held k none }
    else none
  | .free k proc =>
    if s.held k = some proc then some { s with held := Function.update s.held k none } else none

variable (prio n) in
/-- The calls in any order. -/
def lts : Lts (State n) (Call n) := .ofFn (.init n) (State.exec prio)

/-- What a call does to the processes in the queues. -/
inductive Move (prio : ℕ → ℕ) (s s' : State n) : Call n → Prop
  | add : s'.ready.toList = s.ready.toList ++ [s.added] → s'.run = s.run →
      s'.added = s.added + 1 → s'.held = s.held → Move prio s s' (.add s.added)
  | fresh {k p} : s.held k = none → s.ready.toList.argmin prio = some p →
      s'.ready.toList = s.ready.toList.erase p → s'.run = s.run → s'.added = s.added →
      s'.held = Function.update s.held k (some p) → Move prio s s' (.get k (some p))
  | again {k p} : s.held k = none → s.ready.toList = [] → s.run.toList.argmin prio = some p →
      s'.ready = s.ready → s'.run.toList = s.run.toList.erase p → s'.added = s.added →
      s'.held = Function.update s.held k (some p) → Move prio s s' (.get k (some p))
  | null {k} : s.held k = none → s.ready.toList = [] → s.run.toList = [] → s' = s →
      Move prio s s' (.get k none)
  | put {k p} : s.held k = some p → s'.ready = s.ready → s'.run.toList = s.run.toList ++ [p] →
      s'.added = s.added → s'.held = Function.update s.held k none → Move prio s s' (.put k p)
  | free {k p} : s.held k = some p → s'.ready = s.ready → s'.run = s.run →
      s'.added = s.added → s'.held = Function.update s.held k none → Move prio s s' (.free k p)

theorem getProc_of_ready {s : State n} (h : s.ready.toList ≠ []) :
    s.getProc prio =
      ((dequeue prio s.ready).1, { s with ready := (dequeue prio s.ready).2 }) := by
  rw [Ne, Queue.toList_eq_nil_iff] at h
  rw [State.getProc, if_neg h]

theorem getProc_of_run {s : State n} (h : s.ready.toList = []) :
    s.getProc prio = ((dequeue prio s.run).1, { s with run := (dequeue prio s.run).2 }) := by
  rw [Queue.toList_eq_nil_iff] at h
  rw [State.getProc, if_pos h]

/-- `get_proc` finds nothing exactly when `queue_empty` says so. -/
theorem getProc_eq_none_iff (s : State n) : (s.getProc prio).1 = none ↔ s.queueEmpty = true := by
  rw [State.queueEmpty, Bool.and_eq_true, ← Queue.toList_eq_nil_iff, ← Queue.toList_eq_nil_iff]
  by_cases h : s.ready.toList = []
  · rw [getProc_of_run h, dequeue_fst, List.argmin_eq_none]
    exact (and_iff_right h).symm
  · rw [getProc_of_ready h, dequeue_fst, List.argmin_eq_none]
    exact iff_of_false h fun h' => h h'.1

theorem move_of_exec {s s' : State n} {c : Call n} (h : s.exec prio c = some s') :
    Move prio s s' c := by
  cases c with
  | add proc =>
    rw [State.exec] at h
    split at h
    · rename_i heq
      simp only [State.addProc, Option.map_map, Option.map_eq_some_iff] at h
      obtain ⟨q, hq, rfl⟩ := h
      subst heq
      exact .add (Queue.toList_enqueue hq) rfl rfl rfl
    · cases h
  | get k ret =>
    rw [State.exec] at h
    split at h
    · rename_i hk
      obtain ⟨hk, rfl⟩ := hk
      cases h
      by_cases hready : s.ready.toList = []
      · rw [getProc_of_run hready]
        cases hp : (dequeue prio s.run).1 with
        | none =>
          have hrun := hp
          rw [dequeue_fst, List.argmin_eq_none] at hrun
          refine .null hk hready hrun ?_
          rw [dequeue_of_none hp]
          simp [← hk]
        | some p => exact .again hk hready (dequeue_fst _ ▸ hp) rfl (toList_dequeue hp) rfl rfl
      · rw [getProc_of_ready hready]
        cases hp : (dequeue prio s.ready).1 with
        | none =>
          rw [dequeue_fst, List.argmin_eq_none] at hp
          exact absurd hp hready
        | some p => exact .fresh hk (dequeue_fst _ ▸ hp) (toList_dequeue hp) rfl rfl rfl
    · cases h
  | put k proc =>
    rw [State.exec] at h
    split at h
    · rename_i hk
      simp only [State.putProc, Option.map_map, Option.map_eq_some_iff] at h
      obtain ⟨q, hq, rfl⟩ := h
      exact .put hk rfl (Queue.toList_enqueue hq) rfl rfl
    · cases h
  | free k proc =>
    rw [State.exec] at h
    split at h
    · rename_i hk
      cases h
      exact .free hk rfl rfl rfl rfl
    · cases h

/-! ## What the calls tell -/

/-- The process that a call dispatches. -/
def Call.dispatched : Call n → Option ℕ
  | .get _ ret => ret
  | _ => none

/-- The processes that have been dispatched, in this order. -/
def dispatched (tr : List (Call n)) : List ℕ := tr.filterMap Call.dispatched

/-- A process that has been added and not been dispatched yet. -/
def Fresh (tr : List (Call n)) (p : ℕ) : Prop := .add p ∈ tr ∧ p ∉ dispatched tr

/-- Who has been put back: `put_proc` brings a process in, and being dispatched takes it out. -/
def Call.event : Call n → Event ℕ
  | .put _ p => .enter p
  | .get _ (some p) => .leave p
  | _ => .idle

/-- `p` has the smaller priority, or the same and was added before `q`. -/
def Before (prio : ℕ → ℕ) (p q : ℕ) : Prop := prio p < prio q ∨ (prio p = prio q ∧ p < q)

instance (prio : ℕ → ℕ) (p q : ℕ) : Decidable (Before prio p q) :=
  inferInstanceAs (Decidable (_ ∨ _))

/-- What `get_proc` is to return after the calls `tr`. -/
def Chosen (prio : ℕ → ℕ) (tr : List (Call n)) : Option ℕ → Prop
  | none => (∀ q, ¬Fresh tr q) ∧ ∀ q, since (tr.map Call.event) q = none
  | some p =>
    (Fresh tr p ∧ ∀ q, Fresh tr q → q ≠ p → Before prio p q) ∨
      ((∀ q, ¬Fresh tr q) ∧ FirstBy prio (tr.map Call.event) p)

/-- What the queues and CPUs hold after the calls `tr`. -/
structure Inv (tr : List (Call n)) (s : State n) : Prop where
  added_iff : ∀ p, .add p ∈ tr ↔ p < s.added
  dispatched_lt : ∀ p ∈ dispatched tr, p < s.added
  /-- The ready queue holds the processes that have not been dispatched, in loading order. -/
  ready : s.ready.toList = (List.range s.added).filter (· ∉ dispatched tr)
  run : NewestFirst (tr.map Call.event) s.run.toList.reverse
  run_dispatched : ∀ p ∈ s.run.toList, p ∈ dispatched tr
  held_dispatched : ∀ k p, s.held k = some p → p ∈ dispatched tr ∧ p ∉ s.run.toList
  held_inj : ∀ k k' p, s.held k = some p → s.held k' = some p → k = k'

section

variable {tr : List (Call n)} {s s' : State n}

theorem dispatched_append (tr tr' : List (Call n)) :
    dispatched (tr ++ tr') = dispatched tr ++ dispatched tr' := List.filterMap_append

theorem dispatched_snoc {c : Call n} (h : c.dispatched = none) :
    dispatched (tr ++ [c]) = dispatched tr := by
  rw [dispatched_append]
  simp [dispatched, h]

theorem Inv.added_snoc (h : Inv tr s) {c : Call n} (hc : ∀ p, c ≠ .add p) (p : ℕ) :
    .add p ∈ tr ++ [c] ↔ p < s.added := by
  rw [List.mem_append, List.mem_singleton, h.added_iff]
  exact or_iff_left (hc p).symm

theorem Inv.mem_ready (h : Inv tr s) {p : ℕ} : p ∈ s.ready.toList ↔ Fresh tr p := by
  rw [h.ready, List.mem_filter, List.mem_range, Fresh, h.added_iff, decide_eq_true_iff]

theorem Inv.ready_sorted (h : Inv tr s) : s.ready.toList.Pairwise (· < ·) := by
  rw [h.ready]
  exact List.pairwise_lt_range.filter _

theorem Inv.ready_nodup (h : Inv tr s) : s.ready.toList.Nodup := h.ready_sorted.imp Nat.ne_of_lt

theorem Inv.init (n : ℕ) : Inv [] (State.init n) where
  added_iff p := by simp [State.init]
  dispatched_lt p h := by simp [dispatched] at h
  ready := rfl
  run := .nil
  run_dispatched p h := by simp [State.init] at h
  held_dispatched k p h := by cases h
  held_inj k k' p h := by cases h

/-- `get_proc` takes a process out of whichever queue it is in. -/
theorem Inv.get (h : Inv tr s) {k : Fin n} {p : ℕ}
    (hp : p ∈ s.ready.toList ∨ p ∈ s.run.toList)
    (hready : s'.ready.toList = s.ready.toList.erase p)
    (hrun : s'.run.toList = s.run.toList.erase p) (hadded : s'.added = s.added)
    (hheld : s'.held = Function.update s.held k (some p)) :
    Inv (tr ++ [.get k (some p)]) s' := by
  have hlt : p < s.added := by
    obtain hp | hp := hp
    · exact (h.added_iff p).mp (h.mem_ready.mp hp).1
    · exact h.dispatched_lt p (h.run_dispatched p hp)
  have hnot : ∀ k' q, s.held k' = some q → q ≠ p := by
    rintro k' q hq rfl
    obtain hp | hp := hp
    · exact (h.mem_ready.mp hp).2 (h.held_dispatched k' q hq).1
    · exact (h.held_dispatched k' q hq).2 hp
  have hd : dispatched (tr ++ [.get k (some p)]) = dispatched tr ++ [p] := dispatched_append ..
  have hnodup : s.run.toList.Nodup := List.nodup_reverse.mp h.run.nodup
  constructor
  · rw [hadded]
    exact h.added_snoc fun _ => nofun
  · intro q hq
    rw [hd, List.mem_append, List.mem_singleton] at hq
    rw [hadded]
    obtain hq | rfl := hq
    · exact h.dispatched_lt q hq
    · exact hlt
  · rw [hready, hadded, hd, h.ready_nodup.erase_eq_filter, h.ready,
      List.filter_filter]
    apply List.filter_congr
    intro q _
    by_cases hq : q = p <;> simp [hq]
  · rw [hrun, List.map_append]
    exact h.run.leave_reverse p
  · intro q hq
    rw [hrun] at hq
    rw [hd]
    exact List.mem_append_left _ (h.run_dispatched q (List.mem_of_mem_erase hq))
  · intro k' q hq
    rw [hheld, Function.update_apply] at hq
    rw [hd, hrun]
    split_ifs at hq
    · cases hq
      exact ⟨by simp, fun hmem => (hnodup.mem_erase_iff.mp hmem).1 rfl⟩
    · obtain ⟨hq, hq'⟩ := h.held_dispatched k' q hq
      exact ⟨List.mem_append_left _ hq, fun hmem => hq' (List.mem_of_mem_erase hmem)⟩
  · intro k' k'' q hk' hk''
    rw [hheld, Function.update_apply] at hk' hk''
    split_ifs at hk' hk'' with h' h'' h''
    · rw [h', h'']
    · cases hk'
      exact absurd rfl (hnot _ _ hk'')
    · cases hk''
      exact absurd rfl (hnot _ _ hk')
    · exact h.held_inj k' k'' q hk' hk''

/-- A CPU lets go of its process, which may enter the run queue. -/
theorem Inv.release (h : Inv tr s) {k : Fin n} {c : Call n} (hc : c.dispatched = none)
    (hadd : ∀ p, c ≠ .add p) (hready : s'.ready = s.ready) (hadded : s'.added = s.added)
    (hheld : s'.held = Function.update s.held k none)
    (hrun : NewestFirst ((tr ++ [c]).map Call.event) s'.run.toList.reverse)
    (hmem : ∀ q ∈ s'.run.toList, q ∈ s.run.toList ∨ s.held k = some q) :
    Inv (tr ++ [c]) s' := by
  have hk : ∀ k' q, s'.held k' = some q → k' ≠ k ∧ s.held k' = some q := by
    intro k' q hq
    rw [hheld, Function.update_apply] at hq
    split_ifs at hq with hne
    exact ⟨hne, hq⟩
  constructor
  · rw [hadded]
    exact h.added_snoc hadd
  · rw [dispatched_snoc hc, hadded]
    exact h.dispatched_lt
  · rw [hready, dispatched_snoc hc, hadded]
    exact h.ready
  · exact hrun
  · intro q hq
    rw [dispatched_snoc hc]
    obtain hq | hq := hmem q hq
    · exact h.run_dispatched q hq
    · exact (h.held_dispatched k q hq).1
  · intro k' q hq
    obtain ⟨hne, hq⟩ := hk k' q hq
    obtain ⟨hdq, hnq⟩ := h.held_dispatched k' q hq
    refine ⟨by rwa [dispatched_snoc hc], fun hq' => ?_⟩
    obtain hq' | hq' := hmem q hq'
    · exact hnq hq'
    · exact hne (h.held_inj k' k q hq hq')
  · intro k' k'' q hk' hk''
    exact h.held_inj k' k'' q (hk k' q hk').2 (hk k'' q hk'').2

theorem Inv.step (h : Inv tr s) {c : Call n} (hst : Move prio s s' c) : Inv (tr ++ [c]) s' := by
  cases hst with
  | add hready hrun hadded hheld =>
    have hd : dispatched (tr ++ [.add s.added]) = dispatched tr := dispatched_snoc rfl
    constructor
    · intro p
      rw [hadded, List.mem_append, h.added_iff, List.mem_singleton, Call.add.injEq]
      omega
    · intro p hp
      rw [hadded]
      exact (h.dispatched_lt p (hd ▸ hp)).trans (Nat.lt_succ_self _)
    · have hnot : s.added ∉ dispatched tr := fun hmem => Nat.lt_irrefl _ (h.dispatched_lt _ hmem)
      rw [hready, hadded, hd, List.range_succ, List.filter_append, ← h.ready]
      simp [hnot]
    · rw [hrun, List.map_append]
      exact h.run.idle
    · rw [hrun, hd]
      exact h.run_dispatched
    · rw [hrun, hd, hheld]
      exact h.held_dispatched
    · rw [hheld]
      exact h.held_inj
  | fresh hk hp hready hrun hadded hheld =>
    have hmem := List.argmin_mem hp
    have hnot : _ ∉ s.run.toList := fun hmem' =>
      (h.mem_ready.mp hmem).2 (h.run_dispatched _ hmem')
    exact h.get (.inl hmem) hready (by rw [hrun, List.erase_of_not_mem hnot]) hadded hheld
  | again hk hnil hp hready hrun hadded hheld =>
    exact h.get (.inr (List.argmin_mem hp)) (by rw [hready, hnil, List.erase_nil]) hrun hadded
      hheld
  | @null k hk hready hrun heq =>
    subst heq
    have hd : dispatched (tr ++ [.get k none]) = dispatched tr := dispatched_snoc rfl
    refine { h with
      added_iff := h.added_snoc fun _ => nofun
      dispatched_lt := hd ▸ h.dispatched_lt
      ready := hd ▸ h.ready
      run := ?_
      run_dispatched := hd ▸ h.run_dispatched
      held_dispatched := hd ▸ h.held_dispatched }
    rw [List.map_append]
    exact h.run.idle
  | @put k p hk hready hrun hadded hheld =>
    refine h.release rfl (fun _ => nofun) hready hadded hheld ?_ ?_
    · rw [hrun, List.map_append, List.reverse_append]
      exact h.run.enter (by simpa using (h.held_dispatched k p hk).2)
    · intro q hq
      rw [hrun, List.mem_append, List.mem_singleton] at hq
      obtain hq | rfl := hq
      · exact .inl hq
      · exact .inr hk
  | free hk hready hrun hadded hheld =>
    refine h.release rfl (fun _ => nofun) hready hadded hheld ?_ fun q hq => .inl (hrun ▸ hq)
    rw [hrun, List.map_append]
    exact h.run.idle

theorem inv_of_run (h : (lts prio n).Run tr s) : Inv tr s := by
  refine h.history ?_ ?_
  · rintro s rfl
    exact .init n
  · intro tr s c s' ih hst
    exact ih.step (move_of_exec hst)

/-! ## Who is dispatched -/

/-- What `get_proc` returns. -/
theorem Inv.chosen (h : Inv tr s) {k : Fin n} {ret : Option ℕ}
    (hst : Move prio s s' (.get k ret)) : Chosen prio tr ret := by
  cases hst with
  | fresh hk hp _ _ _ _ =>
    obtain ⟨hmem, hfirst⟩ := argmin_first h.ready_sorted hp
    exact .inl ⟨h.mem_ready.mp hmem, fun q hq => hfirst q (h.mem_ready.mpr hq)⟩
  | again hk hnil hp _ _ _ _ =>
    refine .inr ⟨fun q hq => ?_, h.run.firstBy hp⟩
    have := h.mem_ready.mpr hq
    simp [hnil] at this
  | null hk hready hrun _ =>
    refine ⟨fun q hq => ?_, fun q => ?_⟩
    · have := h.mem_ready.mpr hq
      simp [hready] at this
    · by_contra hne
      have := (h.run.mem_iff q).mpr (Option.ne_none_iff_exists'.mp hne)
      simp [hrun] at this

/-- In every run, `get_proc` returns the process with the smallest priority of those that have
never been dispatched, the one added first if there are several. If there is none, it returns
the process with the smallest priority of those put back, the one that has waited longest if
there are several. It returns `NULL` only if there is none either. -/
theorem chosen_of_run (h : (lts prio n).Run tr s) {k : Fin n} {ret : Option ℕ}
    (hst : (lts prio n).step s (.get k ret) s') : Chosen prio tr ret :=
  (inv_of_run h).chosen (move_of_exec hst)

/-- Both processes have been put back; the one with the smaller priority is dispatched. -/
theorem chosen_putBack : ∃ s s' : State 1,
    (lts id 1).Run [.add 0, .add 1, .get 0 (some 0), .put 0 0, .get 0 (some 1), .put 0 1] s ∧
      (lts id 1).step s (.get 0 (some 0)) s' ∧
      Chosen id [.add 0, .add 1, .get 0 (some 0), .put 0 0, .get 0 (some 1), .put (0 : Fin 1) 1]
        (some 0) := by
  obtain ⟨s', hrun, -⟩ := Lts.exists_run_of_execAll (State.init 1) (State.exec id)
    ([.add 0, .add 1, .get 0 (some 0), .put 0 0, .get 0 (some 1), .put 0 1] ++ [.get 0 (some 0)])
    (fun _ => true) (by decide)
  obtain ⟨s, hrun, hst⟩ := Lts.Run.of_snoc hrun
  exact ⟨s, s', hrun, hst, chosen_of_run hrun hst⟩

/-- While `p` waits for its first time slice, a call dispatches a process that goes before it and
that has not been dispatched either. -/
theorem Inv.before (h : Inv tr s) {p : ℕ} (hp : Fresh tr p) {k : Fin n} {ret : Option ℕ}
    (hst : Move prio s s' (.get k ret)) (hne : ret ≠ some p) :
    ∃ q, ret = some q ∧ q ∉ dispatched tr ∧ Before prio q p := by
  have hchosen := h.chosen hst
  cases ret with
  | none => exact absurd hp (hchosen.1 p)
  | some q =>
    refine ⟨q, rfl, ?_⟩
    obtain ⟨hq, hfirst⟩ | ⟨hno, _⟩ := hchosen
    · exact ⟨hq.2, hfirst p hp fun heq => hne (heq ▸ rfl)⟩
    · exact absurd hp (hno p)

/-- What the calls `tr'` dispatch while `p` waits for its first time slice, since `tr`. -/
structure Overtaking (prio : ℕ → ℕ) (tr tr' : List (Call n)) (p : ℕ) : Prop where
  nodup : (dispatched tr').Nodup
  fresh : ∀ q ∈ dispatched tr', q ∉ dispatched tr
  before : ∀ q ∈ dispatched tr', Before prio q p
  ne_null : ∀ k, .get k none ∉ tr'

variable {tr' : List (Call n)} {p : ℕ}

theorem Overtaking.get (h : Overtaking prio tr tr' p) {k : Fin n} {q : ℕ}
    (hq : q ∉ dispatched (tr ++ tr')) (hlt : Before prio q p) :
    Overtaking prio tr (tr' ++ [.get k (some q)]) p := by
  have hd : dispatched (tr' ++ [.get k (some q)]) = dispatched tr' ++ [q] := dispatched_append ..
  rw [dispatched_append, List.mem_append, not_or] at hq
  constructor
  · rw [hd]
    exact List.nodup_append'.mpr ⟨h.nodup, List.nodup_singleton q, by simpa using hq.2⟩
  · intro q' hq'
    rw [hd, List.mem_append, List.mem_singleton] at hq'
    obtain hq' | rfl := hq'
    · exact h.fresh q' hq'
    · exact hq.1
  · intro q' hq'
    rw [hd, List.mem_append, List.mem_singleton] at hq'
    obtain hq' | rfl := hq'
    · exact h.before q' hq'
    · exact hlt
  · intro k'
    simpa using h.ne_null k'

theorem Overtaking.other (h : Overtaking prio tr tr' p) {c : Call n} (hc : c.dispatched = none)
    (hget : ∀ k, c ≠ .get k none) : Overtaking prio tr (tr' ++ [c]) p where
  nodup := by
    rw [dispatched_snoc hc]
    exact h.nodup
  fresh := by
    rw [dispatched_snoc hc]
    exact h.fresh
  before := by
    rw [dispatched_snoc hc]
    exact h.before
  ne_null k := by
    rw [List.mem_append, List.mem_singleton]
    exact not_or.mpr ⟨h.ne_null k, (hget k).symm⟩

theorem overtaking_of_run (h : (lts prio n).Run (tr ++ tr') s) (hp : .add p ∈ tr)
    (hnot : p ∉ dispatched (tr ++ tr')) : Overtaking prio tr tr' p := by
  induction tr' using List.reverseRecOn generalizing s with
  | nil => exact ⟨.nil, nofun, nofun, nofun⟩
  | append_singleton tr' c ih =>
    rw [← List.append_assoc] at h hnot
    obtain ⟨s1, hrun, hst⟩ := h.of_snoc
    rw [dispatched_append, List.mem_append, not_or] at hnot
    have hover := ih hrun hnot.1
    cases c with
    | get k ret =>
      have hret : ret ≠ some p := by
        rintro rfl
        exact hnot.2 (List.mem_singleton.mpr rfl)
      obtain ⟨q, rfl, hq, hlt⟩ := (inv_of_run hrun).before
        ⟨List.mem_append_left _ hp, hnot.1⟩ (move_of_exec hst) hret
      exact hover.get hq hlt
    | add proc => exact hover.other rfl fun _ => nofun
    | put k proc => exact hover.other rfl fun _ => nofun
    | free k proc => exact hover.other rfl fun _ => nofun

/-- A process that has been added and waits for its first time slice: the processes dispatched
meanwhile are different ones, none had been dispatched before, and each has a smaller priority, or
the same and was added before. There are at most as many as there are such processes, and no
`get_proc` returns `NULL`. -/
theorem firstSlice_of_run (h : (lts prio n).Run (tr ++ tr') s) (hp : .add p ∈ tr)
    (hnot : p ∉ dispatched (tr ++ tr')) :
    Overtaking prio tr tr' p ∧
      (dispatched tr').length ≤ (List.range s.added).countP fun q => Before prio q p := by
  have hover := overtaking_of_run h hp hnot
  refine ⟨hover, ?_⟩
  rw [List.countP_eq_length_filter]
  refine (List.subperm_of_subset hover.nodup fun q hq => ?_).length_le
  rw [List.mem_filter, List.mem_range, decide_eq_true_iff]
  refine ⟨(inv_of_run h).dispatched_lt q ?_, hover.before q hq⟩
  rw [dispatched_append]
  exact List.mem_append_right _ hq

/-- Two processes of a smaller priority go before one. -/
theorem firstSlice_two :
    Overtaking (n := 1) (fun p => if p = 0 then 1 else 0) [.add 0, .add 1, .add 2]
        [.get 0 (some 1), .put 0 1, .get 0 (some 2)] 0 ∧
      2 ≤ (List.range 3).countP fun q => Before (fun p => if p = 0 then 1 else 0) q 0 := by
  obtain ⟨s, hrun, hs⟩ := Lts.exists_run_of_execAll (State.init 1)
    (State.exec fun p => if p = 0 then 1 else 0)
    ([.add 0, .add 1, .add 2] ++ [.get 0 (some 1), .put 0 1, .get 0 (some 2)])
    (fun s => s.added = 3) (by decide)
  obtain ⟨hover, hle⟩ := firstSlice_of_run hrun (p := 0) (by simp) (by decide)
  rw [of_decide_eq_true hs] at hle
  exact ⟨hover, hle⟩

/-! ## Who waits -/

theorem exec_get_of_run {k : Fin n} (hk : s.held k = none) (hready : s.ready.toList = [])
    (hp : (dequeue prio s.run).1 = some p) :
    s.exec prio (.get k (some p)) =
      some { s with
        run := (dequeue prio s.run).2
        held := Function.update s.held k (some p) } := by
  rw [State.exec, getProc_of_run hready, if_pos ⟨hk, hp⟩]

/-- A CPU whose process has the smallest priority puts it back and gets it again. -/
theorem exists_round {k : Fin n} (hk : s.held k = some p) (hready : s.ready.toList = [])
    (hlt : ∀ q ∈ s.run.toList, prio p < prio q) (hsize : s.run.toList.length < maxQueueSize) :
    ∃ s', (lts prio n).Path s [.put k p, .get k (some p)] s' ∧ s'.held k = some p ∧
      s'.ready.toList = [] ∧ s'.run.toList = s.run.toList := by
  have hnot : p ∉ s.run.toList := fun hmem => Nat.lt_irrefl _ (hlt p hmem)
  obtain ⟨q, hq⟩ := Option.ne_none_iff_exists'.mp
    (mt (enqueue_eq_none_iff s.run p).mp (Nat.ne_of_lt hsize))
  have hfst : (dequeue prio q).1 = some p := by
    rw [dequeue_fst, Queue.toList_enqueue hq, List.argmin_concat]
    cases hmin : s.run.toList.argmin prio with
    | none => rfl
    | some r => exact if_pos (hlt r (List.argmin_mem hmin))
  have hput : s.exec prio (.put k p) =
      some { s with run := q, held := Function.update s.held k none } := by
    rw [State.exec, if_pos hk, State.putProc, hq]
    rfl
  refine ⟨_, .cons hput (.single (exec_get_of_run (Function.update_self ..) hready hfst)), ?_,
    hready, ?_⟩
  · exact Function.update_self ..
  · refine (toList_dequeue hfst).trans ?_
    rw [Queue.toList_enqueue hq, List.erase_append_right _ hnot, List.erase_cons_head,
      List.append_nil]

/-- A process that has been put back can wait for any time: as long as a CPU has a process with a
smaller priority than all that wait, and none is added, this process is the only one
dispatched. -/
theorem starved {k : Fin n} (hk : s.held k = some p) (hready : s.ready.toList = [])
    (hlt : ∀ q ∈ s.run.toList, prio p < prio q) (hsize : s.run.toList.length < maxQueueSize)
    (m : ℕ) :
    ∃ s', (lts prio n).Path s (List.replicate m [.put k p, .get k (some p)]).flatten s' ∧
      s'.run.toList = s.run.toList := by
  induction m generalizing s with
  | zero => exact ⟨s, .nil, rfl⟩
  | succ m ih =>
    obtain ⟨s1, hpath, hk1, hready1, hrun1⟩ := exists_round hk hready hlt hsize
    obtain ⟨s', hpath', hrun⟩ := ih hk1 hready1 (hrun1 ▸ hlt) (hrun1 ▸ hsize)
    exact ⟨s', hpath.trans hpath', hrun.trans hrun1⟩

/-- Process 1 has been put back, and a CPU has process 0. -/
theorem starved_one : ∃ s : State 2,
    (lts id 2).Run [.add 0, .add 1, .get 0 (some 0), .get 1 (some 1), .put 1 1] s ∧
      s.run.toList = [1] ∧ ∀ m, ∃ s',
        (lts id 2).Path s (List.replicate m [.put 0 0, .get 0 (some 0)]).flatten s' ∧
          s'.run.toList = [1] := by
  obtain ⟨s, hrun, hs⟩ := Lts.exists_run_of_execAll (State.init 2) (State.exec id)
    [.add 0, .add 1, .get 0 (some 0), .get 1 (some 1), .put 1 1]
    (fun s => s.held 0 = some 0 ∧ s.ready.toList = [] ∧ s.run.toList = [1]) (by decide)
  obtain ⟨hk, hready, hrun1⟩ := of_decide_eq_true hs
  refine ⟨s, hrun, hrun1, fun m => ?_⟩
  obtain ⟨s', hpath, hrun'⟩ := starved hk hready (show ∀ q ∈ s.run.toList, id 0 < id q by simp [hrun1])
    (by simp [hrun1, maxQueueSize]) m
  exact ⟨s', hpath, hrun'.trans hrun1⟩

end

end OsSim.Sched.Priority
