import OsSim.Lib.Lts
import Mathlib.Algebra.Order.BigOperators.Group.Finset

/-!
# Workers that serve items in slots

Every item has to be served so many times. In one slot a worker serves one item at most, and an
item is served once at most; the workers take their steps in any order. If from some time on no
worker is idle in a slot unless every item that is left has been served in it, the workers are
done after the slots of a list schedule: those that the work of all items fills, and one for each
time that the longest item has to be served.

Results:
* `Slotted.need_le`: one item is served once in a slot at most.
* `Slotted.sum_need_le`: all items together are served once by each worker at most.
* `Slotted.done_of_run`: when all items have been served.
-/

namespace OsSim.Greedy

universe u v w

/-- Two sums whose terms differ at one index. -/
theorem sum_add_eq_of_ne {κ : Type u} [DecidableEq κ] {A : Finset κ} {f f' : κ → ℕ} {k : κ}
    (hk : k ∈ A) (h : ∀ j, j ≠ k → f' j = f j) : ∑ j ∈ A, f' j + f k = ∑ j ∈ A, f j + f' k := by
  have hrest : ∑ j ∈ A.erase k, f' j = ∑ j ∈ A.erase k, f j :=
    Finset.sum_congr rfl fun j hj => h j (Finset.ne_of_mem_erase hj)
  rw [← Finset.add_sum_erase A f' hk, ← Finset.add_sum_erase A f hk, hrest]
  omega

/-- What there is to show of a system `L` with an invariant `I`. -/
structure Slotted {σ : Type u} {α : Type v} (L : Lts σ α) (I : σ → Prop) (ι : Type w) where
  items : Finset ι
  workers : ℕ
  time : σ → ℕ
  tick : α → Bool
  need : ι → ℕ
  /-- How often an item has still to be served. -/
  left : σ → ι → ℕ
  /-- How often it has been served in the current slot. -/
  served : σ → ι → ℕ
  init : ∀ s, L.init s → time s = 0 ∧ ∀ i ∈ items, left s i = need i ∧ served s i = 0
  time_step : ∀ s a s', L.step s a s' → time s' = if tick a then time s + 1 else time s
  serve : ∀ s a s', I s → L.step s a s' → tick a = false → ∀ i ∈ items,
    left s' i + served s' i = left s i + served s i ∧ served s i ≤ served s' i
  next_slot : ∀ s a s', I s → L.step s a s' → tick a = true → ∀ i ∈ items,
    left s' i = left s i ∧ served s' i = 0
  served_le : ∀ s, I s → ∀ i ∈ items, served s i ≤ 1
  sum_served_le : ∀ s, I s → ∑ i ∈ items, served s i ≤ workers

variable {σ : Type u} {α : Type v} {ι : Type w} {L : Lts σ α} {I : σ → Prop}

namespace Slotted

variable (S : Slotted L I ι)

/-- How often an item has not been served before the current slot. -/
def pending (s : σ) (i : ι) : ℕ := S.left s i + S.served s i

variable {S} {s s' : σ} {a : α} {tr : List α} {i : ι}

/-- The end of a slot is what lowers it. -/
theorem pending_step (hI : I s) (hst : L.step s a s') (hi : i ∈ S.items) :
    S.pending s' i + (if S.tick a then S.served s i else 0) = S.pending s i := by
  unfold pending
  cases htick : S.tick a with
  | false => exact (S.serve s a s' hI hst htick i hi).1
  | true =>
    obtain ⟨hleft, hserved⟩ := S.next_slot s a s' hI hst htick i hi
    rw [hleft, hserved]
    rfl

theorem sum_pending_step (hI : I s) (hst : L.step s a s') :
    ∑ i ∈ S.items, S.pending s' i + (if S.tick a then ∑ i ∈ S.items, S.served s i else 0) =
      ∑ i ∈ S.items, S.pending s i := by
  rw [← Finset.sum_congr rfl fun i hi => S.pending_step hI hst hi, Finset.sum_add_distrib]
  split <;> simp

theorem left_le (hI : I s) (hst : L.step s a s') (hi : i ∈ S.items) :
    S.left s' i ≤ S.left s i := by
  cases htick : S.tick a with
  | false =>
    have := S.serve s a s' hI hst htick i hi
    omega
  | true => exact (S.next_slot s a s' hI hst htick i hi).1.le

theorem pending_init (h : L.init s) (hi : i ∈ S.items) : S.pending s i = S.need i := by
  obtain ⟨hleft, hserved⟩ := (S.init s h).2 i hi
  rw [pending, hleft, hserved, Nat.add_zero]

/-! ## No faster -/

variable (hI : ∀ tr s, L.Run tr s → I s)
include hI

/-- What every step from a reached state keeps. -/
theorem history {J : σ → Prop} (h0 : ∀ s, L.init s → J s)
    (hstep : ∀ s a s', I s → J s → L.step s a s' → J s') (h : L.Run tr s) : J s := by
  refine (h.history (I := fun tr s => L.Run tr s ∧ J s) (fun s hs => ⟨.init hs, h0 s hs⟩) ?_).2
  rintro tr s a s' ⟨hrun, hJ⟩ hst
  exact ⟨hrun.step hst, hstep s a s' (hI tr s hrun) hJ hst⟩

/-- An item that is not served before the slot `start`: it takes as many slots from there on as it
has been served. -/
theorem need_le {start : ℕ} (hi : i ∈ S.items)
    (hstart : ∀ s, I s → S.served s i ≠ 0 → start ≤ S.time s) (h : L.Run tr s) :
    S.pending s i = S.need i ∨ S.need i + start ≤ S.pending s i + S.time s := by
  refine history hI (J := fun s => S.pending s i = S.need i ∨
    S.need i + start ≤ S.pending s i + S.time s) (fun s h0 => .inl (S.pending_init h0 hi)) ?_ h
  intro s a s' hs hJ hst
  have hpending := S.pending_step hs hst hi
  have htime := S.time_step s a s' hst
  cases htick : S.tick a with
  | false =>
    simp only [htick, if_false, Bool.false_eq_true] at hpending htime
    omega
  | true =>
    simp only [htick, if_true] at hpending htime
    have hone := S.served_le s hs i hi
    by_cases hserved : S.served s i = 0
    · omega
    · have := hstart s hs hserved
      omega

/-- All items together: no worker serves more than one of them in a slot. -/
theorem sum_need_le (h : L.Run tr s) :
    ∑ i ∈ S.items, S.need i ≤ ∑ i ∈ S.items, S.pending s i + S.workers * S.time s := by
  refine history hI (J := fun s => ∑ i ∈ S.items, S.need i ≤
    ∑ i ∈ S.items, S.pending s i + S.workers * S.time s) ?_ ?_ h
  · intro s h0
    rw [(S.init s h0).1, Finset.sum_congr rfl fun i hi => (S.pending_init h0 hi).symm]
    exact Nat.le_add_right ..
  · intro s a s' hs hJ hst
    have hsum := S.sum_pending_step hs hst
    have htime := S.time_step s a s' hst
    have hworkers := S.sum_served_le s hs
    split_ifs at hsum htime
    · rw [htime, Nat.mul_succ]
      omega
    · rw [htime]
      omega

/-! ## No slower -/

/-- At the end of a slot every worker has served an item, or every item that is left has been
served. -/
def Busy (S : Slotted L I ι) (s : σ) : Prop :=
  ∑ i ∈ S.items, S.served s i = S.workers ∨ ∀ i ∈ S.items, S.left s i ≠ 0 → S.served s i = 1

/-- Of the slots from `start` on, `idle` have seen an idle worker; all items that are left have
been served in them, and all workers in the others. -/
def Accounted (S : Slotted L I ι) (start : ℕ) (s : σ) : Prop :=
  ∃ idle ≤ S.time s - start,
    ∑ i ∈ S.items, S.pending s i + S.workers * (S.time s - start - idle) ≤
      ∑ i ∈ S.items, S.need i ∧
    ∀ i ∈ S.items, S.left s i ≠ 0 → idle + S.pending s i ≤ S.need i

omit hI in
theorem Accounted.step {start : ℕ} (h : S.Accounted start s) (hs : I s) (hst : L.step s a s')
    (hbusy : S.tick a = true → start ≤ S.time s → S.Busy s) : S.Accounted start s' := by
  obtain ⟨idle, hidle, hsum, hleft⟩ := h
  have hsums := S.sum_pending_step hs hst
  have htime := S.time_step s a s' hst
  -- an item that is left has been left before
  have hitem : ∀ i ∈ S.items, S.left s' i ≠ 0 → idle + S.pending s i ≤ S.need i := fun i hi hl =>
    hleft i hi fun h0 => hl (Nat.le_zero.mp (h0 ▸ S.left_le hs hst hi))
  by_cases htick : S.tick a = true
  · rw [if_pos htick] at hsums htime
    by_cases hearly : S.time s < start
    · refine ⟨idle, by omega, ?_, fun i hi hl => ?_⟩
      · rw [show S.time s' - start - idle = S.time s - start - idle by omega]
        omega
      · have := hitem i hi hl
        have := S.pending_step hs hst hi
        omega
    rcases hbusy htick (not_lt.mp hearly) with hfull | hall
    · -- all workers have served an item
      refine ⟨idle, by omega, ?_, fun i hi hl => ?_⟩
      · rw [show S.time s' - start - idle = S.time s - start - idle + 1 by omega, Nat.mul_succ]
        omega
      · have := hitem i hi hl
        have := S.pending_step hs hst hi
        omega
    · -- all items that are left have been served
      refine ⟨idle + 1, by omega, ?_, fun i hi hl => ?_⟩
      · rw [show S.time s' - start - (idle + 1) = S.time s - start - idle by omega]
        omega
      · have hone := hall i hi fun h0 => hl (Nat.le_zero.mp (h0 ▸ S.left_le hs hst hi))
        have := hitem i hi hl
        have hpending := S.pending_step hs hst hi
        rw [if_pos htick] at hpending
        omega
  · rw [if_neg htick] at hsums htime
    refine ⟨idle, by omega, ?_, fun i hi hl => ?_⟩
    · rw [htime]
      omega
    · have := hitem i hi hl
      have := S.pending_step hs hst hi
      omega

theorem accounted_of_run {start : ℕ}
    (hbusy : ∀ s a s', I s → L.step s a s' → S.tick a = true → start ≤ S.time s → S.Busy s)
    (h : L.Run tr s) : S.Accounted start s := by
  refine history hI (J := S.Accounted start) ?_
    (fun s a s' hs hJ hst => hJ.step hs hst (hbusy s a s' hs hst)) h
  intro s h0
  have hneed := fun i hi => S.pending_init (i := i) h0 hi
  refine ⟨0, Nat.zero_le _, ?_, fun i hi _ => by rw [hneed i hi, Nat.zero_add]⟩
  rw [Finset.sum_congr rfl hneed, (S.init s h0).1, Nat.zero_sub]
  exact Nat.le_refl _

/-- All items have been served when the slots from `start` on could hold their work and, for every
worker, all but one time of the longest item. -/
theorem done_of_run (start longest : ℕ)
    (hbusy : ∀ s a s', I s → L.step s a s' → S.tick a = true → start ≤ S.time s → S.Busy s)
    (hlongest : ∀ i ∈ S.items, S.need i ≤ longest) (h : L.Run tr s)
    (htime : ∑ i ∈ S.items, S.need i + S.workers * (longest - 1) ≤
      S.workers * (S.time s - start)) : ∀ i ∈ S.items, S.left s i = 0 := by
  obtain ⟨idle, hidle, hsum, hleft⟩ := accounted_of_run hI hbusy h
  intro i hi
  by_contra hl
  have hone : S.left s i ≤ S.pending s i := Nat.le_add_right ..
  have hpending : S.pending s i ≤ ∑ i ∈ S.items, S.pending s i :=
    Finset.single_le_sum (f := S.pending s) (fun _ _ => Nat.zero_le _) hi
  have hitem := hleft i hi hl
  have hlong := hlongest i hi
  have hslots : S.workers * (S.time s - start) =
      S.workers * (S.time s - start - idle) + S.workers * idle := by
    rw [← Nat.mul_add, Nat.sub_add_cancel hidle]
  have hidles : S.workers * idle ≤ S.workers * (longest - 1) :=
    Nat.mul_le_mul_left _ (by omega)
  omega

end Slotted

end OsSim.Greedy
