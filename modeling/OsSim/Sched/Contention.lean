import OsSim.Lib.Lts
import OsSim.Sched.Mlq
import Mathlib.Data.Fintype.Basic

/-!
# Callers that compete for the queues

Any number of threads call `get_proc`, `put_proc` and `add_proc`. A call of
`get_mlq_proc` tests a queue and its slot without the lock, and then dequeues with
the lock, without a second test.

Results:
* `contended_of_run`: as long as the tests still hold when the lock is taken, and no
  queue that a scan has passed gets work that the scan overlooks, a call returns
  `NULL` only if all queues were empty at some moment, a slot is used only for a
  process, and no slot becomes negative.
* `not_contended_twoDequeues`: two calls that have passed the tests of one queue with
  one process.
-/

namespace OsSim.Sched

/-! ## The callers -/

/-- Shared queues, and where each caller is in `get_mlq_proc`, if it is there. -/
structure Contention (κ : Type*) where
  mlq : Mlq
  call : κ → Option GetLoc
  /-- All queues have been empty at some moment since the caller's last call began. -/
  sawEmpty : κ → Bool

/-- What a caller does in `get_mlq_proc`. -/
inductive GetAct
  /-- A test, or a write of `set_slot_for_queue`. -/
  | step
  /-- The lock of `set_slot_for_queue`. -/
  | reset
  /-- Process `proc` is dequeued from queue `i` and returned. -/
  | dispatch (i proc : ℕ)
  /-- `dequeue` on queue `i` returns `NULL`. -/
  | miss (i : ℕ)
  /-- The scan is over, and the call returns `NULL`. -/
  | null
  deriving DecidableEq

inductive CallEvent (κ : Type*)
  | put (proc prio : ℕ)
  | add (proc prio : ℕ)
  /-- A call of `get_proc` begins. -/
  | call (k : κ)
  | get (k : κ) (a : GetAct)
  deriving DecidableEq

/-- No process waits. -/
def Mlq.allEmpty (s : Mlq) : Bool := (List.range maxPrio).all fun i => (s.mlqReadyQueue i).empty

theorem Mlq.allEmpty_iff (s : Mlq) : s.allEmpty = true ↔ ∀ i < maxPrio, s.ready i = [] := by
  simp [Mlq.allEmpty, ready_eq_nil_iff]

/-- What a step of a call looks like. -/
def GetLoc.act (l : GetLoc) : GetLoc ⊕ Option ℕ → GetAct
  | .inl _ => if l = .lockReset then .reset else .step
  | .inr o =>
    match l, o with
    | .lockDequeue i, some p => .dispatch i p
    | .lockDequeue i, none => .miss i
    | _, _ => .null

namespace Contention

variable {κ : Type*} [DecidableEq κ]

def init (κ : Type*) : Contention κ where
  mlq := .init
  call := fun _ => none
  sawEmpty := fun _ => false

/-- The queues change. -/
def setMlq (s : Contention κ) (mlq : Mlq) : Contention κ :=
  { s with mlq := mlq, sawEmpty := fun k => s.sawEmpty k || mlq.allEmpty }

def setCall (s : Contention κ) (k : κ) (l : Option GetLoc) : Contention κ :=
  { s with call := Function.update s.call k l }

/-- The state after an event, `none` where it is not possible. -/
def exec (s : Contention κ) : CallEvent κ → Option (Contention κ)
  | .put proc prio =>
    match putMlqProc s.mlq proc prio with
    | .error _ => none
    | .ok mlq => some (s.setMlq mlq)
  | .add proc prio =>
    match addMlqProc s.mlq proc prio with
    | .error _ => none
    | .ok mlq => some (s.setMlq mlq)
  | .call k =>
    match s.call k with
    | some _ => none
    | none => some { s.setCall k (some .start) with
        sawEmpty := Function.update s.sawEmpty k s.mlq.allEmpty }
  | .get k a =>
    match s.call k with
    | none => none
    | some l =>
      match l.step s.mlq with
      | none => none
      | some (mlq, r) =>
        if l.act r = a then some ((s.setMlq mlq).setCall k r.getLeft?) else none

/-- The callers `κ`, from `init_scheduler` on. -/
def lts (κ : Type*) [DecidableEq κ] : Lts (Contention κ) (CallEvent κ) := .ofFn (init κ) exec

/-- What an event can be. -/
inductive Move (s : Contention κ) : CallEvent κ → Contention κ → Prop
  | put (e : CallEvent κ) (proc prio : ℕ) (mlq : Mlq) : e = .put proc prio ∨ e = .add proc prio →
      enqueueMlq s.mlq proc prio = .ok mlq → Move s e (s.setMlq mlq)
  | call (k : κ) : s.call k = none → Move s (.call k)
      { s.setCall k (some .start) with sawEmpty := Function.update s.sawEmpty k s.mlq.allEmpty }
  | get (k : κ) (l : GetLoc) (mlq : Mlq) (r : GetLoc ⊕ Option ℕ) : s.call k = some l →
      l.step s.mlq = some (mlq, r) →
      Move s (.get k (l.act r)) ((s.setMlq mlq).setCall k r.getLeft?)

theorem move_of_exec {s s' : Contention κ} {e : CallEvent κ} (h : s.exec e = some s') :
    Move s e s' := by
  cases e with
  | put proc prio =>
    simp only [exec] at h
    split at h
    · cases h
    · rename_i mlq hput
      cases h
      exact .put _ proc prio mlq (.inl rfl) hput
  | add proc prio =>
    simp only [exec] at h
    split at h
    · cases h
    · rename_i mlq hadd
      cases h
      exact .put _ proc prio mlq (.inr rfl) hadd
  | call k =>
    simp only [exec] at h
    split at h
    · cases h
    · rename_i hk
      cases h
      exact .call k hk
  | get k a =>
    simp only [exec] at h
    split at h
    · cases h
    · rename_i l hk
      split at h
      · cases h
      · rename_i mlq r hst
        split at h
        · rename_i ha
          cases h
          cases ha
          exact .get k l mlq r hk hst
        · cases h

end Contention

/-! ## What a scan overlooks -/

/-- A scan with `flag = 0` at this position will not take notice of a process in queue `j`: it has
passed the queue, and the quota of the queue is used up or `check_new_process` will not come to it
again. -/
def GetLoc.Overlooks (slot : ℕ → ℤ) (j : ℕ) : GetLoc → Prop
  | .loop i false => j < i ∧ (slot j ≤ 0 ∨ maxPrio ≤ i)
  | .checkEmpty i j' false | .checkSlot i j' false =>
    j < i ∧ (slot j ≤ 0 ∨ maxPrio ≤ i + 1 ∧ j < j')
  | .testEmpty i false => j < i ∧ (slot j ≤ 0 ∨ maxPrio ≤ i + 1)
  | _ => False

instance (slot : ℕ → ℤ) (j : ℕ) : DecidablePred (GetLoc.Overlooks slot j)
  | .loop _ false | .checkEmpty _ _ false | .checkSlot _ _ false | .testEmpty _ false =>
    inferInstanceAs (Decidable (_ ∧ _))
  | .loop _ true | .checkEmpty _ _ true | .checkSlot _ _ true | .testEmpty _ true | .testSlot _ _
  | .lockReset | .reset _ | .lockDequeue _ => inferInstanceAs (Decidable False)

/-- The index of the queue that a position refers to is in `mlq_ready_queue`, and a scan that comes
to its end has `flag = 0`. -/
def GetLoc.InBounds : GetLoc → Prop
  | .loop i flag => i ≤ maxPrio ∧ (i = maxPrio → flag = false)
  | .checkEmpty i j _ => i < maxPrio ∧ j ≤ i
  | .checkSlot i j _ => i < maxPrio ∧ j < i
  | .testEmpty i _ | .testSlot i _ | .lockDequeue i => i < maxPrio
  | .lockReset | .reset _ => True

theorem GetMove.inBounds {s s' : Mlq} {l l' : GetLoc} (h : GetMove s l s' (.inl l'))
    (hl : l.InBounds) : l'.InBounds := by
  cases h with
  | empty i flag hempty hlast =>
    simp only [GetLoc.InBounds] at *
    refine ⟨hl, ?_⟩
    intro hi
    rw [← Bool.not_eq_true]
    exact fun hflag => hlast ⟨hflag, by omega⟩
  | unlock i hi => exact ⟨Nat.zero_le _, fun _ => rfl⟩
  | _ =>
    simp only [GetLoc.InBounds] at *
    try omega

/-- The quotas are within their bounds. -/
def Mlq.SlotsOk (s : Mlq) : Prop := ∀ i < maxPrio, 0 ≤ s.slot i ∧ s.slot i ≤ maxPrio - i

/-- Going on, a scan overlooks only what it has already overlooked, or what it finds empty. -/
theorem GetMove.overlooks {s s' : Mlq} {l l' : GetLoc} (h : GetMove s l s' (.inl l'))
    (hl : l.InBounds) {j : ℕ} (hj : s.ready j ≠ []) (ho : l'.Overlooks s'.slot j) :
    l.Overlooks s.slot j := by
  cases h with
  | check i flag hi =>
    cases flag with
    | true => exact ho
    | false => exact ⟨ho.1, ho.2.imp id fun h => by omega⟩
  | skipEmpty i j' flag hj' hempty =>
    cases flag with
    | true => exact ho
    | false =>
      have hne : j ≠ j' := by
        rintro rfl
        exact hj hempty
      exact ⟨ho.1, ho.2.imp id fun h => ⟨h.1, by omega⟩⟩
  | look i j' flag hj' hne =>
    cases flag with
    | true => exact ho
    | false => exact ho
  | checked i j' flag hi =>
    cases flag with
    | true => exact ho
    | false => exact ⟨ho.1, ho.2.imp id fun h => ⟨h, by have := ho.1; omega⟩⟩
  | skipUsed i j' flag hslot =>
    cases flag with
    | true => exact ho
    | false =>
      refine ⟨ho.1, ?_⟩
      rcases ho.2 with hs | ⟨hi, hjj⟩
      · exact .inl hs
      · by_cases heq : j = j'
        · rw [heq]
          exact .inl hslot
        · exact .inr ⟨hi, by omega⟩
  | back i j' flag hslot =>
    cases flag with
    | true => exact ho
    | false =>
      simp only [GetLoc.InBounds] at hl
      refine ⟨by have := ho.1; omega, ?_⟩
      rcases ho.2 with hs | hi
      · exact .inl hs
      · omega
  | empty i flag hempty hlast =>
    cases flag with
    | true => exact ho
    | false =>
      have hne : j ≠ i := by
        rintro rfl
        exact hj hempty
      exact ⟨by have := ho.1; omega, ho.2⟩
  | unlock i hi => exact absurd ho.1 (Nat.not_lt_zero j)
  | _ => exact absurd ho not_false

/-- A scan that has come to its end has overlooked every process that waits. -/
theorem overlooks_of_end {i j : ℕ} {flag : Bool} {slot : ℕ → ℤ} (hl : (GetLoc.loop i flag).InBounds)
    (hi : maxPrio ≤ i) (hj : j < maxPrio) : (GetLoc.loop i flag).Overlooks slot j := by
  obtain rfl := hl.2 (Nat.le_antisymm hl.1 hi)
  exact ⟨by omega, .inr hi⟩

theorem GetLoc.Overlooks.mono {slot slot' : ℕ → ℤ} {j : ℕ} {l : GetLoc}
    (h : l.Overlooks slot' j) (hs : slot' j ≤ 0 → slot j ≤ 0) : l.Overlooks slot j := by
  unfold GetLoc.Overlooks at h ⊢
  split
  all_goals simp only at h
  all_goals exact ⟨h.1, h.2.imp hs id⟩

/-- Before it dequeues, a call leaves the queues as they are, and raises quotas only. -/
theorem GetMove.raises {s s' : Mlq} {l l' : GetLoc} (h : GetMove s l s' (.inl l'))
    (hs : s.SlotsOk) : s'.ready = s.ready ∧ s'.SlotsOk ∧ ∀ i < maxPrio, s.slot i ≤ s'.slot i := by
  cases h with
  | write i hi =>
    refine ⟨rfl, ?_, ?_⟩
    · intro j hj
      simp only
      by_cases hji : j = i
      · subst hji
        rw [Function.update_self]
        omega
      · rw [Function.update_of_ne hji]
        exact hs j hj
    · intro j hj
      simp only
      by_cases hji : j = i
      · subst hji
        rw [Function.update_self]
        exact (hs j hj).2
      · rw [Function.update_of_ne hji]
  | _ => exact ⟨rfl, hs, fun _ _ => Int.le_refl _⟩

theorem Mlq.SlotsOk.decrement {s s' : Mlq} (h : s.SlotsOk) {i : ℕ} (hi : 0 < s.slot i)
    (hs : s'.slot = Function.update s.slot i (s.slot i - 1)) : s'.SlotsOk := by
  intro j hj
  rw [hs]
  have := h j hj
  by_cases hji : j = i
  · subst hji
    rw [Function.update_self]
    omega
  · rwa [Function.update_of_ne hji]

theorem enqueueMlq_slot {s s' : Mlq} {proc prio : ℕ} (h : enqueueMlq s proc prio = .ok s') :
    s'.slot = s.slot := by
  unfold enqueueMlq at h
  repeat' split at h
  all_goals cases h
  rfl

/-! ## Runs -/

namespace Contention

variable {κ : Type*}

/-- Caller `k` is not in a scan that overlooks queue `j`, or has seen all queues empty. -/
def Notices (s : Contention κ) (slot : ℕ → ℤ) (j : ℕ) (k : κ) : Prop :=
  ∀ l ∈ s.call k, s.sawEmpty k = false → ¬l.Overlooks slot j

/-- The other callers do not disturb a call. When it takes the lock to dequeue, its tests still
hold; and a queue gets a process, or loses its quota while a process waits, only where no other
scan overlooks that. -/
def Undisturbed (s : Contention κ) : CallEvent κ → Prop
  | .put _ prio | .add _ prio => ∀ k, s.Notices s.mlq.slot prio k
  | .get k (.dispatch i _) | .get k (.miss i) =>
    (s.mlq.ready i ≠ [] ∧ 0 < s.mlq.slot i) ∧
      (2 ≤ (s.mlq.ready i).length → ∀ k' ≠ k,
        s.Notices (Function.update s.mlq.slot i (s.mlq.slot i - 1)) i k')
  | _ => True

instance (s : Contention κ) (slot : ℕ → ℤ) (j : ℕ) : DecidablePred (s.Notices slot j) :=
  fun k => inferInstanceAs (Decidable (∀ l ∈ s.call k, s.sawEmpty k = false → ¬l.Overlooks slot j))

instance [Fintype κ] [DecidableEq κ] (s : Contention κ) : DecidablePred s.Undisturbed
  | .put _ prio | .add _ prio => inferInstanceAs (Decidable (∀ k, s.Notices s.mlq.slot prio k))
  | .get k (.dispatch i _) | .get k (.miss i) => inferInstanceAs (Decidable ((_ ∧ _) ∧
    (_ → ∀ k' ≠ k, s.Notices (Function.update s.mlq.slot i (s.mlq.slot i - 1)) i k')))
  | .call _ | .get _ .step | .get _ .reset | .get _ .null => inferInstanceAs (Decidable True)

/-- The invariant of undisturbed runs. -/
structure Inv (s : Contention κ) : Prop where
  slots : s.mlq.SlotsOk
  bounds : ∀ k l, s.call k = some l → l.InBounds
  sawEmpty : s.mlq.allEmpty = true → ∀ k, s.call k ≠ none → s.sawEmpty k = true
  notices : ∀ k, ∀ j < maxPrio, s.mlq.ready j ≠ [] → s.Notices s.mlq.slot j k

/-- A step of the queues is seen by all callers that stay where they are. -/
theorem Inv.setMlq {s : Contention κ} (h : Inv s) {mlq : Mlq} (hs : mlq.SlotsOk)
    (hnotices : ∀ k, ∀ j < maxPrio, mlq.ready j ≠ [] → s.Notices mlq.slot j k) :
    Inv (s.setMlq mlq) where
  slots := hs
  bounds := h.bounds
  sawEmpty hall k _ := by
    show (s.sawEmpty k || mlq.allEmpty) = true
    rw [show mlq.allEmpty = true from hall, Bool.or_true]
  notices k j hj hne l hl hsaw := by
    simp only [Contention.setMlq, Bool.or_eq_false_iff] at hsaw
    exact hnotices k j hj hne l hl hsaw.1

variable [DecidableEq κ]

/-- A call goes on, or returns. -/
theorem Inv.setCall {s : Contention κ} (h : Inv s) {k : κ} {o : Option GetLoc}
    (hk : s.call k ≠ none) (hb : ∀ l, o = some l → l.InBounds)
    (hn : ∀ l, o = some l → s.sawEmpty k = false →
      ∀ j < maxPrio, s.mlq.ready j ≠ [] → ¬l.Overlooks s.mlq.slot j) : Inv (s.setCall k o) := by
  have hcall : ∀ k' l, (s.setCall k o).call k' = some l →
      k' = k ∧ o = some l ∨ k' ≠ k ∧ s.call k' = some l := by
    intro k' l hl
    by_cases hkk : k' = k
    · subst hkk
      exact .inl ⟨rfl, by simpa [Contention.setCall] using hl⟩
    · exact .inr ⟨hkk, by simpa [Contention.setCall, Function.update_of_ne hkk] using hl⟩
  refine ⟨h.slots, ?_, ?_, ?_⟩
  · intro k' l hl
    rcases hcall k' l hl with ⟨_, ho⟩ | ⟨_, hl⟩
    · exact hb l ho
    · exact h.bounds k' l hl
  · intro hall k' hk'
    obtain ⟨l, hl⟩ := Option.ne_none_iff_exists'.mp hk'
    rcases hcall k' l hl with ⟨rfl, _⟩ | ⟨_, hl⟩
    · exact h.sawEmpty hall _ hk
    · exact h.sawEmpty hall k' (by simp [hl])
  · intro k' j hj hne l hl hsaw
    rcases hcall k' l hl with ⟨rfl, ho⟩ | ⟨_, hl⟩
    · exact hn l ho hsaw j hj hne
    · exact h.notices k' j hj hne l hl hsaw

theorem Inv.step {s s' : Contention κ} {e : CallEvent κ} (h : Inv s) (hu : s.Undisturbed e)
    (hmove : Move s e s') : Inv s' := by
  cases hmove with
  | put e proc prio mlq he hput =>
    obtain ⟨hprio, hready⟩ := enqueueMlq_ok hput
    have hslot := enqueueMlq_slot hput
    have hnot : ∀ k, s.Notices s.mlq.slot prio k := by
      rcases he with rfl | rfl
      · exact hu
      · exact hu
    apply h.setMlq
    · rw [Mlq.SlotsOk, hslot]
      exact h.slots
    · intro k j hj hne
      rw [hslot]
      by_cases hjp : j = prio
      · rw [hjp]
        exact hnot k
      · rw [hready, Function.update_of_ne hjp] at hne
        exact h.notices k j hj hne
  | call k hk =>
    refine ⟨h.slots, ?_, ?_, ?_⟩
    · intro k' l hl
      by_cases hkk : k' = k
      · subst hkk
        obtain rfl : GetLoc.start = l := by simpa [Contention.setCall] using hl
        exact ⟨Nat.zero_le _, fun _ => rfl⟩
      · exact h.bounds k' l (by simpa [Contention.setCall, Function.update_of_ne hkk] using hl)
    · intro hall k' hk'
      have hall' : s.mlq.allEmpty = true := hall
      by_cases hkk : k' = k
      · simp [hkk, hall']
      · simp only [Function.update_of_ne hkk]
        exact h.sawEmpty hall k' (by simpa [Contention.setCall, Function.update_of_ne hkk] using hk')
    · intro k' j hj hne l hl hsaw
      by_cases hkk : k' = k
      · subst hkk
        obtain rfl : GetLoc.start = l := by simpa [Contention.setCall] using hl
        exact fun ho => absurd ho.1 (Nat.not_lt_zero j)
      · refine h.notices k' j hj hne l ?_ ?_
        · simpa [Contention.setCall, Function.update_of_ne hkk] using hl
        · simpa only [Function.update_of_ne hkk] using hsaw
  | get k l mlq r hk hst =>
    have hgm := GetLoc.move_of_step hst
    have hcall : (s.setMlq mlq).call k ≠ none := by
      rw [show (s.setMlq mlq).call k = s.call k from rfl, hk]
      simp
    cases r with
    | inl l' =>
      obtain ⟨hready, hslots, hle⟩ := hgm.raises h.slots
      refine (h.setMlq hslots ?_).setCall hcall ?_ ?_
      · intro k' j hj hne l1 hl1 hsaw ho
        rw [hready] at hne
        refine h.notices k' j hj hne l1 hl1 hsaw (ho.mono ?_)
        have := hle j hj
        omega
      · rintro l1 hl1
        cases hl1
        exact hgm.inBounds (h.bounds k l hk)
      · rintro l1 hl1 hsaw j hj hne ho
        cases hl1
        have hne' : s.mlq.ready j ≠ [] := by rwa [← hready]
        simp only [Contention.setMlq, Bool.or_eq_false_iff] at hsaw
        exact h.notices k j hj hne' l hk hsaw.1 (hgm.overlooks (h.bounds k l hk) hne' ho)
    | inr o =>
      refine Inv.setCall ?_ hcall (by simp) (by simp)
      cases hgm with
      | null i flag hi =>
        exact h.setMlq h.slots fun k' j hj hne => h.notices k' j hj hne
      | miss i _ hfree hnil hready hslot => exact absurd hnil hu.1.1
      | dispatch i p rest _ hfree hhead hready hslot =>
        obtain ⟨⟨_, hpos⟩, hother⟩ := hu
        refine h.setMlq ?_ ?_
        · exact h.slots.decrement hpos hslot
        · intro k' j hj hne l1 hl1 hsaw ho
          by_cases hji : j = i
          · subst hji
            rw [hready, Function.update_self] at hne
            rw [hslot] at ho
            by_cases hkk : k' = k
            · subst hkk
              rw [hk] at hl1
              cases hl1
              exact ho
            · refine hother ?_ k' hkk l1 hl1 hsaw ho
              rw [hhead, List.length_cons]
              have := List.length_pos_of_ne_nil hne
              omega
          · rw [hready, Function.update_of_ne hji] at hne
            refine h.notices k' j hj hne l1 hl1 hsaw (ho.mono ?_)
            rw [hslot, Function.update_of_ne hji]
            exact id

omit [DecidableEq κ] in
theorem inv_init : Inv (init κ) where
  slots i hi := by
    simp only [init, Mlq.init]
    omega
  bounds k l hl := by cases hl
  sawEmpty _ k hk := absurd rfl hk
  notices k j _ _ l hl := by cases hl

/-- `get_proc` keeps what it promises at this step. -/
structure Contended (s : Contention κ) (e : CallEvent κ) (s' : Contention κ) : Prop where
  /-- A call returns `NULL` only if all queues have been empty at some moment since it began. -/
  null : ∀ k, (e = .get k .null ∨ ∃ i, e = .get k (.miss i)) → s.sawEmpty k = true
  /-- A quota is used only for a process from its queue. -/
  used : ∀ i < maxPrio, s'.mlq.slot i < s.mlq.slot i →
    s'.mlq.slot i = s.mlq.slot i - 1 ∧ ∃ k p, e = .get k (.dispatch i p)
  slots : ∀ i < maxPrio, 0 ≤ s'.mlq.slot i

theorem Inv.contended {s s' : Contention κ} {e : CallEvent κ} (h : Inv s) (hu : s.Undisturbed e)
    (hmove : Move s e s') : Contended s e s' := by
  have hslots := (h.step hu hmove).slots
  refine ⟨?_, ?_, fun i hi => (hslots i hi).1⟩
  · intro k he
    cases hmove with
    | put e proc prio mlq hput =>
      rcases hput with rfl | rfl
      all_goals simp at he
    | call k hk => simp at he
    | get k1 l mlq r hk hst =>
      have hgm := GetLoc.move_of_step hst
      cases r with
      | inl l' =>
        simp only [GetLoc.act] at he
        split at he
        all_goals simp at he
      | inr o =>
        cases hgm with
        | null i flag hi =>
          obtain rfl : k1 = k := by simpa [GetLoc.act] using he
          by_contra hsaw
          have hsaw' : s.sawEmpty k1 = false := by simpa using hsaw
          have hall : s.mlq.allEmpty = true := by
            rw [Mlq.allEmpty_iff]
            intro j hj
            by_contra hne
            exact h.notices k1 j hj hne _ hk hsaw' (overlooks_of_end (h.bounds k1 _ hk) hi hj)
          exact hsaw (h.sawEmpty hall k1 (by simp [hk]))
        | miss i _ hfree hnil hready hslot => exact absurd hnil hu.1.1
        | dispatch i p rest _ hfree hhead hready hslot => simp [GetLoc.act] at he
  · intro i hi hlt
    cases hmove with
    | put e proc prio mlq he hput =>
      rw [show (s.setMlq mlq).mlq.slot = s.mlq.slot from enqueueMlq_slot hput] at hlt
      exact absurd hlt (Int.lt_irrefl _)
    | call k hk => exact absurd hlt (Int.lt_irrefl _)
    | get k l mlq r hk hst =>
      have hgm := GetLoc.move_of_step hst
      cases r with
      | inl l' => exact absurd ((hgm.raises h.slots).2.2 i hi) (by exact Int.not_le.mpr hlt)
      | inr o =>
        cases hgm with
        | null i' flag hi' => exact absurd hlt (Int.lt_irrefl _)
        | miss i' _ hfree hnil hready hslot => exact absurd hnil hu.1.1
        | dispatch i' p rest _ hfree hhead hready hslot =>
          have hslot' : ((s.setMlq mlq).setCall k none).mlq.slot =
            Function.update s.mlq.slot i' (s.mlq.slot i' - 1) := hslot
          by_cases hii : i = i'
          · subst hii
            refine ⟨?_, k, p, rfl⟩
            exact (congrFun hslot' i).trans (Function.update_self ..)
          · have heq := (congrFun hslot' i).trans (Function.update_of_ne hii ..)
            exact absurd heq (Int.ne_of_lt hlt)

/-- In every run whose steps are undisturbed, `get_proc` keeps its promises. -/
theorem contended_of_run {tr : List (CallEvent κ)} {s : Contention κ}
    (h : ((lts κ).guard fun s e _ => s.Undisturbed e).Run tr s) :
    ((lts κ).guard Contended).Run tr s := by
  refine (h.history (I := fun tr s => ((lts κ).guard Contended).Run tr s ∧ Inv s) ?_ ?_).1
  · rintro s rfl
    exact ⟨.init rfl, inv_init⟩
  · rintro tr s e s' ⟨hrun, hinv⟩ ⟨hst, hu⟩
    have hmove := move_of_exec hst
    exact ⟨Lts.Run.step hrun ⟨hst, hinv.contended hu hmove⟩, hinv.step hu hmove⟩

/-- Two callers pass the tests of a queue before either of them takes a process from it. -/
def overlapping (k k' : κ) : List (CallEvent κ) :=
  [.add 0 0, .add 1 0, .call k, .get k .step, .get k .step, .get k .step, .get k .step,
    .call k', .get k' .step, .get k' .step, .get k' .step, .get k' .step,
    .get k (.dispatch 0 0), .get k' (.dispatch 0 1)]

/-- There are two processes, and the slot is large enough for both. -/
theorem contended_overlapping : ∃ s, ((lts (Fin 2)).guard Contended).Run (overlapping 0 1) s ∧
    s.mlq.slot 0 = 138 := by
  obtain ⟨s, hrun, htest⟩ := Lts.exists_guarded_run_of_execAll (init (Fin 2)) exec Undisturbed
    (overlapping 0 1) (fun s => decide (s.mlq.slot 0 = 138)) (by decide +kernel)
  exact ⟨s, contended_of_run hrun, of_decide_eq_true htest⟩

/-- A process in queue 0 and one in queue 1, and two callers that find queue 0 non-empty; one of
them takes its process. -/
def twoDequeues (k k' : κ) : List (CallEvent κ) :=
  [.add 0 0, .add 1 1, .call k, .get k .step, .get k .step, .get k .step, .get k .step,
    .call k', .get k' .step, .get k' .step, .get k' .step, .get k' .step, .get k (.dispatch 0 0)]

/-- The other one returns `NULL` while process 1 waits, and uses up a quota of queue 0. -/
theorem not_contended_twoDequeues : ∃ s s', (lts (Fin 2)).Run (twoDequeues 0 1) s ∧
    (lts (Fin 2)).step s (.get 1 (.miss 0)) s' ∧ s.mlq.ready 1 = [1] ∧
    s'.mlq.slot 0 = s.mlq.slot 0 - 1 ∧ ¬Contended s (.get 1 (.miss 0)) s' := by
  obtain ⟨s, hrun, htest⟩ := Lts.exists_run_of_execAll (init (Fin 2)) exec (twoDequeues 0 1)
    (fun s => decide (s.sawEmpty 1 = false ∧ s.mlq.ready 1 = [1] ∧
      (s.exec (.get 1 (.miss 0))).any fun s' => s'.mlq.slot 0 = s.mlq.slot 0 - 1))
    (by decide +kernel)
  obtain ⟨hsaw, hready, hnext⟩ := of_decide_eq_true htest
  obtain ⟨s', hst, hslot⟩ := (Option.any_eq_true _ _).mp hnext
  refine ⟨s, s', hrun, hst, hready, of_decide_eq_true hslot, ?_⟩
  intro h
  have := h.null 1 (.inr ⟨0, rfl⟩)
  rw [hsaw] at this
  cases this

end Contention

end OsSim.Sched
