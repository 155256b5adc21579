import Mathlib.Data.List.Basic
import Mathlib.Logic.Function.Basic

/-!
# Ready queues

`queue.c` in the `MLQ_SCHED` build: a queue is an array of at most
`MAX_QUEUE_SIZE` pointers and a size, `enqueue` writes behind the last entry and
`dequeue` takes the first one and shifts the others down.

A process is named by its position in the order in which the loader loads them;
a pointer is such a name, or `none` for `NULL`.

Results:
* `toList_enqueue`, `toList_dequeue`: on the list of the processes in the queue,
  `enqueue` appends and `dequeue` removes the first one.
* `enqueue_eq_none_iff`: `enqueue` fails only on a list of `MAX_QUEUE_SIZE` processes.
-/

namespace OsSim.Sched

/-- `MAX_QUEUE_SIZE`. -/
def maxQueueSize : ℕ := 10

/-- `struct queue_t`. The entries from `size` on are never read. -/
structure Queue where
  proc : ℕ → Option ℕ
  size : ℕ
  size_le : size ≤ maxQueueSize
  isSome : ∀ i < size, (proc i).isSome

namespace Queue

/-- A queue after `init_scheduler`. -/
def init : Queue where
  proc := fun _ => none
  size := 0
  size_le := Nat.zero_le _
  isSome := fun _ h => absurd h (Nat.not_lt_zero _)

/-- `empty`. -/
def empty (q : Queue) : Bool := q.size == 0

/-- `enqueue`; `none` is the `exit(1)` of a full queue. -/
def enqueue (q : Queue) (proc : ℕ) : Option Queue :=
  if h : q.size = maxQueueSize then none
  else some
    { proc := Function.update q.proc q.size (some proc)
      size := q.size + 1
      size_le := Nat.lt_of_le_of_ne q.size_le h
      isSome := by
        intro i hi
        by_cases heq : i = q.size
        · simp [heq]
        · rw [Function.update_of_ne heq]
          exact q.isSome i (by omega) }

/-- The loop of `dequeue`, up to `i < n`: `q->proc[i] = q->proc[i + 1]`. -/
def shift (proc : ℕ → Option ℕ) : ℕ → ℕ → Option ℕ
  | 0 => proc
  | n + 1 => Function.update (shift proc n) n (shift proc n (n + 1))

theorem shift_apply (proc : ℕ → Option ℕ) (n i : ℕ) :
    shift proc n i = if i < n then proc (i + 1) else proc i := by
  induction n generalizing i with
  | zero => rfl
  | succ n ih =>
    rw [shift]
    by_cases hi : i = n
    · rw [hi, Function.update_self, ih, if_neg (by omega), if_pos (by omega)]
    · rw [Function.update_of_ne hi, ih]
      congr 1
      rw [eq_iff_iff]
      omega

/-- `dequeue`. -/
def dequeue (q : Queue) : Option ℕ × Queue :=
  if h : q.size = 0 then (none, q)
  else (q.proc 0,
    { proc := Function.update (shift q.proc (q.size - 1)) (q.size - 1) none
      size := q.size - 1
      size_le := Nat.le_trans (Nat.sub_le _ _) q.size_le
      isSome := by
        intro i hi
        rw [Function.update_of_ne (by omega), shift_apply, if_pos hi]
        exact q.isSome (i + 1) (by omega) })

/-! ## The processes in a queue -/

/-- The processes in the queue, first one first. -/
def toList (q : Queue) : List ℕ := (List.range q.size).filterMap q.proc

@[simp] theorem toList_init : init.toList = [] := rfl

theorem toList_enqueue {q q' : Queue} {proc : ℕ} (h : q.enqueue proc = some q') :
    q'.toList = q.toList ++ [proc] := by
  unfold enqueue at h
  split at h
  · cases h
  · cases h
    rw [toList, List.range_succ, List.filterMap_append]
    congr 1
    · apply List.filterMap_congr
      intro i hi
      exact Function.update_of_ne (by have := List.mem_range.mp hi; omega) _ _
    · simp

/-- What `dequeue` returns, followed by what it leaves, is what was there. -/
theorem toList_dequeue (q : Queue) : q.toList = q.dequeue.1.toList ++ q.dequeue.2.toList := by
  unfold dequeue
  split
  · rfl
  · rename_i hne
    obtain ⟨n, hn⟩ := Nat.exists_eq_succ_of_ne_zero hne
    obtain ⟨p, hp⟩ := Option.isSome_iff_exists.mp (q.isSome 0 (by omega))
    have hrest : (List.range n).filterMap (Function.update (shift q.proc n) n none)
        = (List.range n).filterMap fun i => q.proc (i + 1) := by
      apply List.filterMap_congr
      intro i hi
      rw [List.mem_range] at hi
      rw [Function.update_of_ne (by omega), shift_apply, if_pos hi]
    simp only [toList, hn, Nat.succ_sub_one, hrest, hp]
    rw [List.range_succ_eq_map, List.filterMap_cons_some hp, List.filterMap_map]
    rfl

theorem toList_eq_nil_iff (q : Queue) : q.toList = [] ↔ q.empty = true := by
  unfold empty
  rw [beq_iff_eq]
  constructor
  · intro h
    have hd := q.toList_dequeue
    rw [h] at hd
    by_contra hne
    obtain ⟨p, hp⟩ := Option.isSome_iff_exists.mp (q.isSome 0 (by omega))
    simp [dequeue, hne, hp] at hd
  · intro h
    simp [toList, h]

/-- `dequeue` returns `NULL` on an empty queue only. -/
theorem dequeue_eq_none_iff (q : Queue) : q.dequeue.1 = none ↔ q.empty = true := by
  unfold dequeue empty
  rw [beq_iff_eq]
  split
  · simp [*]
  · rename_i hne
    have := q.isSome 0 (by omega)
    simp only [hne, iff_false]
    intro hn
    simp [hn] at this

end Queue

/-! ## Room in a queue -/

theorem length_toList (q : Queue) : q.toList.length = q.size := by
  rw [Queue.toList, List.length_filterMap_eq_countP, List.countP_eq_length.mpr, List.length_range]
  intro i hi
  exact q.isSome i (List.mem_range.mp hi)

theorem enqueue_eq_none_iff (q : Queue) (p : ℕ) :
    q.enqueue p = none ↔ q.toList.length = maxQueueSize := by
  unfold Queue.enqueue
  rw [length_toList]
  split <;> simp [*]

end OsSim.Sched
