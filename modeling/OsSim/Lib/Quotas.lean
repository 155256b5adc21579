import OsSim.Lib.Lts
import Mathlib.Algebra.BigOperators.Group.Finset.Piecewise
import Mathlib.Algebra.Order.BigOperators.Group.Finset
import Mathlib.Data.Fintype.Basic

/-!
# Queues that share turns by quotas

Every queue has a credit. A turn takes the first item of a queue with credit left and uses
one unit of it; when all queues that are not empty have used theirs up, the credits are
first set back to the quotas. Which of the queues with credit has the turn is left open.

Results:
* `Step.waits`: a step takes the waiting item, or lowers the number of turns that it may
  still have to wait for.
* `taken_of_path`: an item is taken within `bound` turns.
* `bound_le`: the bound in terms of the position and the quotas alone.
-/

namespace OsSim.Quotas

variable {ι α : Type*}

/-- The waiting items, first one first, and what is left of the quotas. -/
structure State (ι α : Type*) where
  ready : ι → List α
  credit : ι → ℕ

inductive Event (ι α : Type*)
  | enter (i : ι) (a : α)
  /-- A turn of queue `i`. -/
  | take (i : ι) (a : α)

namespace Event

def isTake : Event ι α → Bool
  | .enter _ _ => false
  | .take _ _ => true

end Event

/-- The credits that a turn finds. -/
inductive Refilled (quota : ι → ℕ) (s : State ι α) : (ι → ℕ) → Prop
  | keep : Refilled quota s s.credit
  | refill : (∀ i, s.ready i ≠ [] → s.credit i = 0) → Refilled quota s quota

variable [DecidableEq ι]

inductive Step (quota : ι → ℕ) (s : State ι α) : Event ι α → State ι α → Prop
  | enter (i : ι) (a : α) :
      Step quota s (.enter i a) ⟨Function.update s.ready i (s.ready i ++ [a]), s.credit⟩
  | take (i : ι) (a : α) (rest : List α) (credit : ι → ℕ) : s.ready i = a :: rest →
      Refilled quota s credit → 0 < credit i →
      Step quota s (.take i a)
        ⟨Function.update s.ready i rest, Function.update credit i (credit i - 1)⟩

/-- Empty queues with full credit, and then any items and any turns. -/
def lts (α : Type*) (quota : ι → ℕ) : Lts (State ι α) (Event ι α) where
  init s := s = ⟨fun _ => [], quota⟩
  step := Step quota

/-! ## The bound -/

/-- How often the credits are set back before the item at position `k` of queue `i` is taken. -/
def rounds (quota credit : ι → ℕ) (i : ι) (k : ℕ) : ℕ := (k + quota i - credit i) / quota i

section

variable {quota : ι → ℕ} {s s' : State ι α} {e : Event ι α} {i : ι} {k : ℕ}

variable [Fintype ι]

/-- How many turns the item at position `k` of queue `i` may have to wait for, its own included. -/
def bound (quota credit : ι → ℕ) (i : ι) (k : ℕ) : ℕ :=
  ∑ j, credit j + (∑ j, quota j) * rounds quota credit i k

omit [DecidableEq ι] in
/-- Setting the credits back does not raise the bound. -/
theorem Refilled.bound_le {credit : ι → ℕ} (h : Refilled quota s credit) (hne : s.ready i ≠ [])
    (hq : 0 < quota i) : bound quota credit i k ≤ bound quota s.credit i k := by
  cases h with
  | keep => exact le_rfl
  | refill hused =>
    have h0 : s.credit i = 0 := hused i hne
    have hfull : rounds quota quota i k = k / quota i := by
      rw [rounds, Nat.add_sub_cancel]
    have hempty : rounds quota s.credit i k = k / quota i + 1 := by
      rw [rounds, h0, Nat.sub_zero, Nat.add_div_right _ hq]
    calc bound quota quota i k
        = (∑ j, quota j) * (k / quota i + 1) := by
          rw [bound, hfull, Nat.mul_succ, Nat.add_comm]
      _ ≤ bound quota s.credit i k := by
          rw [bound, hempty]
          exact Nat.le_add_left _ _

/-- A turn uses one unit of credit. -/
theorem sum_update_pred {credit : ι → ℕ} (hpos : 0 < credit i) :
    ∑ j, Function.update credit i (credit i - 1) j + 1 = ∑ j, credit j := by
  rw [Finset.sum_update_of_mem (Finset.mem_univ i), ← Finset.add_sum_erase _ _ (Finset.mem_univ i),
    Finset.sdiff_singleton_eq_erase]
  omega

omit [DecidableEq ι] in
theorem bound_pos (credit : ι → ℕ) (k : ℕ) (hq : 0 < quota i) : 0 < bound quota credit i k := by
  have hle : ∀ f : ι → ℕ, f i ≤ ∑ j, f j := fun f =>
    Finset.single_le_sum (fun _ _ => Nat.zero_le _) (Finset.mem_univ i)
  unfold bound
  by_cases hc : credit i = 0
  · have hrounds : 0 < rounds quota credit i k := Nat.div_pos (by omega) hq
    exact Nat.add_pos_right _ (Nat.mul_pos (by have := hle quota; omega) hrounds)
  · have := hle credit
    omega

/-- The bound after a turn of another queue. -/
theorem bound_take_other {credit : ι → ℕ} {j : ι} (hj : j ≠ i) (hpos : 0 < credit j) :
    bound quota (Function.update credit j (credit j - 1)) i k + 1 = bound quota credit i k := by
  have hsum := sum_update_pred hpos
  unfold bound rounds
  rw [Function.update_of_ne hj.symm]
  omega

/-- The bound after a turn of the queue itself: the item has moved up. -/
theorem bound_take_self {credit : ι → ℕ} (hpos : 0 < credit i) :
    bound quota (Function.update credit i (credit i - 1)) i k + 1 =
      bound quota credit i (k + 1) := by
  have hsum := sum_update_pred hpos
  unfold bound rounds
  rw [Function.update_self]
  have hsame : k + quota i - (credit i - 1) = k + 1 + quota i - credit i := by omega
  rw [hsame]
  omega

/-! ## Waiting -/

/-- An item waits at position `pre.length` of queue `i`. -/
def Waits (s : State ι α) (i : ι) (pre : List α) (a : α) : Prop :=
  ∃ post, s.ready i = pre ++ a :: post

/-- A step takes the waiting item, or brings it nearer. -/
theorem Step.waits {pre : List α} {a : α} (hq : 0 < quota i) (h : Step quota s e s')
    (hwait : Waits s i pre a) :
    (e = .take i a ∧ pre = []) ∨
      ∃ pre', Waits s' i pre' a ∧
        [e].countP Event.isTake + bound quota s'.credit i pre'.length ≤
          bound quota s.credit i pre.length := by
  obtain ⟨post, hready⟩ := hwait
  cases h with
  | enter j b =>
    refine .inr ⟨pre, ?_, (Nat.zero_add _).le⟩
    by_cases hj : j = i
    · subst hj
      exact ⟨post ++ [b], by simp [hready]⟩
    · exact ⟨post, by simpa [Function.update_of_ne (Ne.symm hj)] using hready⟩
  | take j b rest credit hhead hre hpos =>
    have hle : ∀ k, bound quota credit i k ≤ bound quota s.credit i k :=
      fun k => hre.bound_le (by rw [hready]; simp) hq
    by_cases hj : j = i
    · subst hj
      cases pre with
      | nil =>
        -- it is the first of its queue
        obtain ⟨rfl, -⟩ := List.cons.inj (hready.symm.trans hhead)
        exact .inl ⟨rfl, rfl⟩
      | cons b' pre =>
        obtain ⟨-, hrest⟩ := List.cons.inj (hready.symm.trans hhead)
        refine .inr ⟨pre, ⟨post, by simp [← hrest]⟩, ?_⟩
        have := hle (pre.length + 1)
        rw [← bound_take_self hpos] at this
        simp only [List.countP_singleton, Event.isTake, if_true, List.length_cons]
        omega
    · refine .inr ⟨pre, ⟨post, ?_⟩, ?_⟩
      · simpa [Function.update_of_ne (Ne.symm hj)] using hready
      · have := hle pre.length
        rw [← bound_take_other hj hpos] at this
        simp only [List.countP_singleton, Event.isTake, if_true]
        omega

/-! ## Runs -/

/-- Along a path the item waits, nearer by the turns that there have been, or has been taken. -/
theorem waits_of_path {pre : List α} {a : α} {tr : List (Event ι α)} (hq : 0 < quota i)
    (h : (lts α quota).Path s tr s') (hwait : Waits s i pre a) :
    (∃ pre', Waits s' i pre' a ∧
      tr.countP Event.isTake + bound quota s'.credit i pre'.length ≤
        bound quota s.credit i pre.length) ∨
    ∃ tr1 tr2, tr = tr1 ++ .take i a :: tr2 ∧
      tr1.countP Event.isTake < bound quota s.credit i pre.length := by
  induction h with
  | nil => exact .inl ⟨pre, hwait, (Nat.zero_add _).le⟩
  | @snoc tr s1 s2 e _ hst ih =>
    obtain ⟨pre1, hwait1, hbound⟩ | ⟨tr1, tr2, rfl, htaken⟩ := ih
    · obtain ⟨rfl, rfl⟩ | ⟨pre2, hwait2, hbound2⟩ := Step.waits hq hst hwait1
      · have := bound_pos s1.credit ([] : List α).length hq
        exact .inr ⟨tr, [], rfl, by omega⟩
      · refine .inl ⟨pre2, hwait2, ?_⟩
        rw [List.countP_append]
        omega
    · exact .inr ⟨tr1, tr2 ++ [e], by simp, htaken⟩

/-- A waiting item is taken within `bound` turns. -/
theorem taken_of_path {pre : List α} {a : α} {tr : List (Event ι α)} (hq : 0 < quota i)
    (h : (lts α quota).Path s tr s') (hwait : Waits s i pre a) :
    tr.countP Event.isTake < bound quota s.credit i pre.length ∨
    ∃ tr1 tr2, tr = tr1 ++ .take i a :: tr2 ∧
      tr1.countP Event.isTake < bound quota s.credit i pre.length := by
  obtain ⟨pre', -, hle⟩ | htaken := waits_of_path hq h hwait
  · have := bound_pos s'.credit pre'.length hq
    exact .inl (by omega)
  · exact .inr htaken

omit [DecidableEq ι] in
/-- What the credits of the others can add to the wait. -/
theorem bound_le {credit : ι → ℕ} (hw : ∀ j, credit j ≤ quota j) (hq : 0 < quota i) (k : ℕ) :
    bound quota credit i k ≤ (∑ j, quota j) * (k / quota i + 2) := by
  have hsum : ∑ j, credit j ≤ ∑ j, quota j := Finset.sum_le_sum fun j _ => hw j
  have hrounds : rounds quota credit i k ≤ k / quota i + 1 := by
    rw [← Nat.add_div_right _ hq]
    exact Nat.div_le_div_right (Nat.sub_le _ _)
  calc bound quota credit i k
      ≤ (∑ j, quota j) + (∑ j, quota j) * (k / quota i + 1) :=
        Nat.add_le_add hsum (Nat.mul_le_mul_left _ hrounds)
    _ = (∑ j, quota j) * (k / quota i + 2) := by
        rw [Nat.mul_succ _ (k / quota i + 1), Nat.add_comm]

end

end OsSim.Quotas
