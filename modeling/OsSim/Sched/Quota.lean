import OsSim.Sched.Contention

/-!
# Quotas

Calls of `get_proc`, `put_proc` and `add_proc` one after the other. A scan goes on
past queues only that are empty or have used up their quota, so it comes to
`set_slot_for_queue` only when all of them have, and to `dequeue` only with a
process and a quota.

Results:
* `ScanInv`, `GetMove.scanInv`: what a scan that nobody interrupts knows.
* `path_of_runGet`: a call that nobody interrupts, step by step.
* `quotaKept_of_run`: a quota is what is left of `MAX_PRIO - prio` after the
  processes dispatched since the last reset, and the quotas are reset only when all
  waiting queues have used them up.
-/

namespace OsSim.Sched

/-! ## A scan -/

/-- The queues below `i` are empty or have used up their quota. -/
def Mlq.UsedUp (s : Mlq) (i : ℕ) : Prop := ∀ j < i, s.ready j ≠ [] → s.slot j ≤ 0

def Mlq.Waiting (s : Mlq) : Prop := ∃ j < maxPrio, s.ready j ≠ []

/-- What a scan that nobody interrupts knows at each of its positions. -/
def ScanInv (s : Mlq) : GetLoc → Prop
  | .loop i flag | .checkEmpty i _ flag | .checkSlot i _ flag | .testEmpty i flag =>
    s.UsedUp i ∧ (flag = true → s.Waiting)
  | .testSlot i _ => s.UsedUp i ∧ s.ready i ≠ []
  | .lockReset => s.UsedUp maxPrio ∧ s.Waiting
  | .reset i => ∀ j < i, j < maxPrio → s.slot j = maxPrio - j
  | .lockDequeue i => s.ready i ≠ [] ∧ 0 < s.slot i

theorem Mlq.UsedUp.succ {s : Mlq} {i : ℕ} (h : s.UsedUp i) (hi : s.ready i ≠ [] → s.slot i ≤ 0) :
    s.UsedUp (i + 1) := by
  intro j hj hne
  rcases Nat.lt_succ_iff_lt_or_eq.mp hj with hj | rfl
  · exact h j hj hne
  · exact hi hne

theorem GetMove.scanInv {s s' : Mlq} {l l' : GetLoc} (h : GetMove s l s' (.inl l'))
    (hl : l.InBounds) (hs : ScanInv s l) : ScanInv s' l' := by
  cases h with
  | check i flag | skipEmpty i j flag | look i j flag | checked i j flag | skipUsed i j flag =>
    exact hs
  | back i j flag hslot => exact ⟨fun j' hj' => hs.1 j' (by have := hl.2; omega), hs.2⟩
  | empty i flag hempty => exact ⟨hs.1.succ fun hne => absurd hempty hne, hs.2⟩
  | emptyLast i hempty hi =>
    have hused := hs.1.succ fun hne => absurd hempty hne
    rw [hi] at hused
    exact ⟨hused, hs.2 rfl⟩
  | nonempty i flag hne => exact ⟨hs.1, hne⟩
  | used i flag hslot hi => exact ⟨hs.1.succ fun _ => hslot, fun _ => ⟨i, hl, hs.2⟩⟩
  | usedLast i flag hslot hi =>
    have hused := hs.1.succ fun _ => hslot
    rw [hi] at hused
    exact ⟨hused, i, hl, hs.2⟩
  | found i flag hslot => exact ⟨hs.2, hslot⟩
  | lock hfree => exact fun j hj => absurd hj (Nat.not_lt_zero j)
  | write i hi =>
    intro j hj hmax
    show Function.update s.slot i (maxPrio - i) j = maxPrio - j
    by_cases hji : j = i
    · rw [hji, Function.update_self]
    · rw [Function.update_of_ne hji]
      exact hs j (by omega) hmax
  | unlock i hi => exact ⟨fun j hj => absurd hj (Nat.not_lt_zero j), fun h => by cases h⟩

/-! ## Processes dispatched since the last reset -/

namespace CallEvent

variable {κ : Type*}

/-- A call comes to `set_slot_for_queue`. -/
def isReset : CallEvent κ → Bool
  | .get _ .reset => true
  | _ => false

/-- A process is dispatched from queue `i`. -/
def dispatches (i : ℕ) : CallEvent κ → Bool
  | .get _ (.dispatch j _) => j == i
  | _ => false

end CallEvent

section

variable {κ : Type*}

/-- How many processes have been dispatched from queue `i` since the last reset. -/
def sinceReset (i : ℕ) (tr : List (CallEvent κ)) : ℕ :=
  tr.foldl (fun n e => if e.isReset then 0 else if e.dispatches i then n + 1 else n) 0

theorem sinceReset_snoc (i : ℕ) (tr : List (CallEvent κ)) (e : CallEvent κ) :
    sinceReset i (tr ++ [e]) = if e.isReset then 0 else if e.dispatches i then sinceReset i tr + 1
      else sinceReset i tr := by
  simp [sinceReset]

/-- Without a reset, the processes dispatched add up. -/
theorem sinceReset_append {i : ℕ} {tr tr' : List (CallEvent κ)} (h : ∀ e ∈ tr', e.isReset = false) :
    sinceReset i (tr ++ tr') = sinceReset i tr + tr'.countP (CallEvent.dispatches i) := by
  induction tr' using List.reverseRecOn with
  | nil => simp
  | append_singleton tr' e ih =>
    rw [← List.append_assoc, sinceReset_snoc, ih fun e he => h e (by simp [he]),
      h e (by simp), List.countP_append, List.countP_singleton]
    split
    · contradiction
    · split
      all_goals omega

end

/-! ## Runs -/

/-- What a call does, in at most `fuel` steps. -/
def getActs : ℕ → Mlq → GetLoc → List GetAct
  | 0, _, _ => []
  | fuel + 1, s, l =>
    match l.step s with
    | none => []
    | some (s', .inl l') => l.act (.inl l') :: getActs fuel s' l'
    | some (_, .inr o) => [l.act (.inr o)]

namespace Contention

variable {κ : Type*}

/-- A call begins when no other is in progress. -/
def Atomic (s : Contention κ) : CallEvent κ → Prop
  | .put _ _ | .add _ _ | .call _ => ∀ k, s.call k = none
  | .get _ _ => True

instance [Fintype κ] (s : Contention κ) : DecidablePred s.Atomic
  | .put _ _ | .add _ _ | .call _ => inferInstanceAs (Decidable (∀ k, s.call k = none))
  | .get _ _ => inferInstanceAs (Decidable True)

/-- The calls come one after the other. -/
structure QuotaInv (s : Contention κ) : Prop where
  alone : ∀ k k' l l', s.call k = some l → s.call k' = some l' → k = k'
  bounds : ∀ k l, s.call k = some l → l.InBounds
  slots : s.mlq.SlotsOk
  scan : ∀ k l, s.call k = some l → ScanInv s.mlq l

theorem quotaInv_init : QuotaInv (init κ) where
  alone k k' l l' hl := by cases hl
  bounds k l hl := by cases hl
  slots i hi := by
    simp only [init, Mlq.init]
    omega
  scan k l hl := by cases hl

/-- Between calls only the bounds of the quotas matter. -/
theorem QuotaInv.of_idle {s : Contention κ} (hs : s.mlq.SlotsOk) (hk : ∀ k, s.call k = none) :
    QuotaInv s where
  alone k k' l l' hl := by
    rw [hk] at hl
    cases hl
  bounds k l hl := by
    rw [hk] at hl
    cases hl
  slots := hs
  scan k l hl := by
    rw [hk] at hl
    cases hl

theorem QuotaInv.other {s : Contention κ} (h : QuotaInv s) {k : κ} {l : GetLoc}
    (hk : s.call k = some l) (k' : κ) (hkk : k' ≠ k) : s.call k' = none := by
  cases hl : s.call k' with
  | none => rfl
  | some l' => exact absurd (h.alone k' k l' l hl hk) hkk

variable [DecidableEq κ]

/-- Only caller `k` is in a call. -/
theorem QuotaInv.of_alone {s : Contention κ} {k : κ} {o : Option GetLoc} (hs : s.mlq.SlotsOk)
    (hk : ∀ k' ≠ k, s.call k' = none) (hl : ∀ l, o = some l → l.InBounds ∧ ScanInv s.mlq l) :
    QuotaInv (s.setCall k o) := by
  have hcall : ∀ k' l, (s.setCall k o).call k' = some l → k' = k ∧ o = some l := by
    intro k' l hl
    by_cases hkk : k' = k
    · subst hkk
      exact ⟨rfl, by simpa [setCall] using hl⟩
    · simp only [setCall, Function.update_of_ne hkk, hk k' hkk] at hl
      cases hl
  refine ⟨?_, ?_, hs, ?_⟩
  · intro k1 k2 l1 l2 h1 h2
    rw [(hcall k1 l1 h1).1, (hcall k2 l2 h2).1]
  · intro k1 l1 h1
    exact (hl l1 (hcall k1 l1 h1).2).1
  · intro k1 l1 h1
    exact (hl l1 (hcall k1 l1 h1).2).2

theorem QuotaInv.step {s s' : Contention κ} {e : CallEvent κ} (h : QuotaInv s) (ha : s.Atomic e)
    (hmove : Move s e s') : QuotaInv s' := by
  cases hmove with
  | put e proc prio mlq he hput =>
    have hidle : ∀ k, s.call k = none := by
      rcases he with rfl | rfl
      · exact ha
      · exact ha
    refine .of_idle ?_ hidle
    rw [Mlq.SlotsOk, show (s.setMlq mlq).mlq.slot = s.mlq.slot from enqueueMlq_slot hput]
    exact h.slots
  | call k hk =>
    refine QuotaInv.of_alone (s := { s with
      sawEmpty := Function.update s.sawEmpty k s.mlq.allEmpty }) h.slots (fun k' _ => ha k') ?_
    rintro l hl
    cases hl
    exact ⟨⟨Nat.zero_le _, fun _ => rfl⟩, fun j hj => absurd hj (Nat.not_lt_zero j), by simp⟩
  | get k l mlq r hk hst =>
    have hgm := GetLoc.move_of_step hst
    cases r with
    | inl l' =>
      refine QuotaInv.of_alone (hgm.raises h.slots).2.1 (h.other hk) ?_
      rintro l1 hl1
      cases hl1
      exact ⟨hgm.inBounds (h.bounds k l hk), hgm.scanInv (h.bounds k l hk) (h.scan k l hk)⟩
    | inr o =>
      refine QuotaInv.of_alone ?_ (h.other hk) (by simp)
      cases hgm with
      | null i flag hi => exact h.slots
      | miss i _ hfree hnil => exact absurd hnil (h.scan k _ hk).1
      | dispatch i p rest _ hfree hhead hready hslot =>
        exact h.slots.decrement (h.scan k _ hk).2 hslot

/-- A call that returns is a path of its caller. -/
theorem path_of_runGet {fuel : ℕ} {s : Contention κ} {k : κ} {l : GetLoc} {mlq : Mlq}
    {o : Option ℕ} (hk : s.call k = some l) (h : runGet fuel s.mlq l = some (mlq, o)) :
    ∃ s', ((lts κ).guard fun s e _ => s.Atomic e).Path s
      ((getActs fuel s.mlq l).map (.get k)) s' ∧
      s'.mlq = mlq ∧ s'.call = Function.update s.call k none := by
  induction fuel generalizing s l with
  | zero => cases h
  | succ fuel ih =>
    unfold runGet at h
    split at h
    · cases h
    · rename_i mlq1 l1 hst
      have hstep : ((lts κ).guard fun s e _ => s.Atomic e).step s (.get k (l.act (.inl l1)))
          ((s.setMlq mlq1).setCall k l1) := ⟨by simp [lts, Lts.ofFn, exec, hk, hst], trivial⟩
      obtain ⟨s', hpath, hmlq, hcall⟩ :=
        ih (s := (s.setMlq mlq1).setCall k l1) (by simp [setCall]) h
      refine ⟨s', ?_, hmlq, ?_⟩
      · simp only [getActs, hst, List.map_cons]
        exact .cons hstep hpath
      · rw [hcall]
        exact Function.update_idem ..
    · rename_i mlq1 o1 hst
      cases h
      have hstep : ((lts κ).guard fun s e _ => s.Atomic e).step s (.get k (l.act (.inr o)))
          ((s.setMlq mlq).setCall k none) := ⟨by simp [lts, Lts.ofFn, exec, hk, hst], trivial⟩
      refine ⟨(s.setMlq mlq).setCall k none, ?_, rfl, rfl⟩
      simp only [getActs, hst, List.map_cons, List.map_nil]
      exact .single hstep

/-! ## The quotas and the history -/

/-- What is missing from a quota has been used since the last reset. While the quotas are being
reset, this holds of those that have been set already. -/
structure Account (tr : List (CallEvent κ)) (s : Contention κ) : Prop where
  used : ∀ i < maxPrio, (∀ k j, s.call k = some (.reset j) → i < j) →
    maxPrio - i - s.mlq.slot i = sinceReset i tr
  reset : ∀ k j, s.call k = some (.reset j) → ∀ i, sinceReset i tr = 0

omit [DecidableEq κ] in
/-- A step other than a reset or a dispatch, of a caller that is then not in
`set_slot_for_queue`. -/
theorem Account.congr {tr : List (CallEvent κ)} {s s' : Contention κ} {e : CallEvent κ}
    (h : Account tr s) (he : e.isReset = false) (hd : ∀ i, e.dispatches i = false)
    (hslot : s'.mlq.slot = s.mlq.slot) (hk : ∀ k j, s.call k = some (.reset j) → maxPrio ≤ j)
    (hk' : ∀ k j, s'.call k ≠ some (.reset j)) : Account (tr ++ [e]) s' where
  used i hi _ := by
    rw [hslot, sinceReset_snoc, he, hd]
    exact h.used i hi fun k j hkj => Nat.lt_of_lt_of_le hi (hk k j hkj)
  reset k j hkj := absurd hkj (hk' k j)

theorem Account.step {tr : List (CallEvent κ)} {s s' : Contention κ} {e : CallEvent κ}
    (h : Account tr s) (hinv : QuotaInv s) (ha : s.Atomic e) (hmove : Move s e s') :
    Account (tr ++ [e]) s' := by
  cases hmove with
  | put e proc prio mlq he hput =>
    have hidle : ∀ k, s.call k = none := by
      rcases he with rfl | rfl
      · exact ha
      · exact ha
    refine h.congr ?_ ?_ (enqueueMlq_slot hput) ?_ ?_
    · rcases he with rfl | rfl
      all_goals rfl
    · rcases he with rfl | rfl
      all_goals exact fun _ => rfl
    · simp [hidle]
    · intro k j
      simp [setMlq, hidle]
  | call k hk =>
    refine h.congr rfl (fun _ => rfl) rfl ?_ ?_
    · intro k' j hkj
      rw [ha k'] at hkj
      cases hkj
    · intro k' j
      by_cases hkk : k' = k
      · simp [setCall, hkk, GetLoc.start]
      · simp [setCall, Function.update_of_ne hkk, show s.call k' = none from ha k']
  | get k l mlq r hk hst =>
    have hgm := GetLoc.move_of_step hst
    have hother := hinv.other hk
    have hcall : ∀ o k' j, ((s.setMlq mlq).setCall k o).call k' = some (.reset j) →
        k' = k ∧ o = some (.reset j) := by
      intro o k' j hkj
      by_cases hkk : k' = k
      · subst hkk
        exact ⟨rfl, by simpa [setCall] using hkj⟩
      · simp [setCall, Function.update_of_ne hkk, setMlq, hother k' hkk] at hkj
    have hreset : ∀ k' j, s.call k' = some (.reset j) → l = .reset j := by
      intro k' j hkj
      obtain rfl := hinv.alone k' k _ _ hkj hk
      rw [hk] at hkj
      exact Option.some.inj hkj
    cases hgm with
    | lock hfree =>
      refine ⟨?_, ?_⟩
      · intro i hi hnot
        exact absurd (hnot k 0 (by simp [setCall])) (Nat.not_lt_zero i)
      · intro k' j hkj i
        rw [sinceReset_snoc]
        rfl
    | write i hi =>
      have hzero := h.reset k i hk
      refine ⟨?_, ?_⟩
      · intro i' hi' hnot
        rw [sinceReset_snoc]
        have hlt := hnot k (i + 1) (by simp [setCall])
        show maxPrio - i' - Function.update s.mlq.slot i (maxPrio - i) i' = (sinceReset i' tr : ℤ)
        by_cases hii : i' = i
        · rw [hii, Function.update_self, hzero]
          omega
        · rw [Function.update_of_ne hii]
          apply h.used i' hi'
          intro k' j hkj
          cases hreset k' j hkj
          omega
      · intro k' j hkj i'
        rw [sinceReset_snoc]
        exact hzero i'
    | unlock i hi =>
      refine h.congr rfl (fun _ => rfl) rfl ?_ ?_
      · intro k' j hkj
        cases hreset k' j hkj
        exact hi
      · intro k' j hkj
        cases (hcall _ k' j hkj).2
    | dispatch i p rest _ hfree hhead hready hslot =>
      refine ⟨?_, ?_⟩
      · intro i' hi' _
        rw [sinceReset_snoc]
        have hused := h.used i' hi' fun k' j hkj => by cases hreset k' j hkj
        show maxPrio - i' - mlq.slot i' = (if (i == i') = true then sinceReset i' tr + 1
          else sinceReset i' tr : ℕ)
        rw [hslot]
        by_cases hii : i' = i
        · subst hii
          rw [Function.update_self]
          simp only [beq_self_eq_true, if_true]
          omega
        · rw [Function.update_of_ne hii, if_neg (by simpa using Ne.symm hii)]
          exact hused
      · intro k' j hkj
        cases (hcall _ k' j hkj).2
    | miss i _ hfree hnil => exact absurd hnil (hinv.scan k _ hk).1
    | _ =>
      refine h.congr rfl (fun _ => rfl) rfl ?_ ?_
      · intro k' j hkj
        cases hreset k' j hkj
      · intro k' j hkj
        cases (hcall _ k' j hkj).2

theorem account_of_run {tr : List (CallEvent κ)} {s : Contention κ}
    (h : ((lts κ).guard fun s e _ => s.Atomic e).Run tr s) : QuotaInv s ∧ Account tr s := by
  refine h.history (I := fun tr s => QuotaInv s ∧ Account tr s) ?_ ?_
  · rintro s rfl
    refine ⟨quotaInv_init, ?_, nofun⟩
    intro i hi _
    simp [init, Mlq.init, sinceReset]
  · rintro tr s e s' ⟨hinv, hacc⟩ ⟨hst, ha⟩
    have hmove := move_of_exec hst
    exact ⟨hinv.step ha hmove, hacc.step hinv ha hmove⟩

/-- A call that comes to `set_slot_for_queue` has found every queue empty or used up, and one of
them not empty. -/
theorem QuotaInv.of_reset {s s' : Contention κ} (h : QuotaInv s) {k : κ}
    (hst : (lts κ).step s (.get k .reset) s') :
    s.call k = some .lockReset ∧ s.mlq.Waiting ∧
      ∀ i < maxPrio, s.mlq.ready i ≠ [] → s.mlq.slot i = 0 := by
  have hmove := move_of_exec hst
  generalize he : CallEvent.get k GetAct.reset = e at hmove
  cases hmove with
  | put e proc prio mlq hp =>
    rcases hp with rfl | rfl
    all_goals cases he
  | call k' => cases he
  | get k' l mlq r hk hst =>
    simp only [CallEvent.get.injEq] at he
    obtain ⟨rfl, hact⟩ := he
    have hl : l = .lockReset := by
      unfold GetLoc.act at hact
      split at hact
      · split at hact
        · assumption
        · cases hact
      · split at hact
        all_goals cases hact
    subst hl
    obtain ⟨hused, hwait⟩ := h.scan k _ hk
    refine ⟨hk, hwait, ?_⟩
    intro i hi hne
    exact Int.le_antisymm (hused i hi hne) (h.slots i hi).1

/-- A quota grows only in `set_slot_for_queue`. -/
theorem QuotaInv.of_grows {s s' : Contention κ} {e : CallEvent κ} (h : QuotaInv s)
    (hst : (lts κ).step s e s') {i : ℕ} (hlt : s.mlq.slot i < s'.mlq.slot i) :
    ∃ k j, s.call k = some (.reset j) := by
  have hmove := move_of_exec hst
  cases hmove with
  | put e proc prio mlq he hput =>
    rw [show (s.setMlq mlq).mlq.slot = s.mlq.slot from enqueueMlq_slot hput] at hlt
    exact absurd hlt (Int.lt_irrefl _)
  | call k => exact absurd hlt (Int.lt_irrefl _)
  | get k l mlq r hk hstep =>
    cases GetLoc.move_of_step hstep with
    | write j => exact ⟨k, j, hk⟩
    | miss j _ hfree hnil => exact absurd hnil (h.scan k _ hk).1
    | dispatch j p rest _ hfree hhead hready hslot =>
      have hle : mlq.slot i ≤ s.mlq.slot i := by
        rw [hslot]
        by_cases hij : i = j
        · rw [hij, Function.update_self]
          omega
        · rw [Function.update_of_ne hij]
      exact absurd hlt (Int.not_lt.mpr hle)
    | _ => exact absurd hlt (Int.lt_irrefl _)

/-- The quotas are kept, after the steps `tr`. -/
structure QuotaKept (tr : List (CallEvent κ)) (s : Contention κ) : Prop where
  slots : ∀ i < maxPrio, 0 ≤ s.mlq.slot i ∧ s.mlq.slot i ≤ maxPrio - i
  /-- What is missing from a quota has been used since the last reset. -/
  used : (∀ k j, s.call k ≠ some (.reset j)) →
    ∀ i < maxPrio, maxPrio - i - s.mlq.slot i = sinceReset i tr
  /-- Between two resets no priority is dispatched more often than its quota. -/
  atMost : ∀ i < maxPrio, (sinceReset i tr : ℤ) ≤ maxPrio - i
  /-- The quotas are reset only when some queue is not empty, and all those have used them up. -/
  reset : ∀ k s', (lts κ).step s (.get k .reset) s' →
    s.mlq.Waiting ∧ ∀ i < maxPrio, s.mlq.ready i ≠ [] → s.mlq.slot i = 0
  grows : ∀ e s', (lts κ).step s e s' → ∀ i < maxPrio, s.mlq.slot i < s'.mlq.slot i →
    ∃ k j, s.call k = some (.reset j)
  /-- A queue that waits at the next reset has been dispatched as often as its quota said at any
  moment before. -/
  exact : ∀ tr1 tr2 s1, tr = tr1 ++ tr2 → ((lts κ).guard fun s e _ => s.Atomic e).Run tr1 s1 →
    (∀ k, s1.call k = none) → (∀ e ∈ tr2, e.isReset = false) →
    (∃ k s', (lts κ).step s (.get k .reset) s') →
    ∀ i < maxPrio, s.mlq.ready i ≠ [] → (tr2.countP (CallEvent.dispatches i) : ℤ) = s1.mlq.slot i

/-- In every run of calls that come one after the other, the quotas are kept. -/
theorem quotaKept_of_run {tr : List (CallEvent κ)} {s : Contention κ}
    (h : ((lts κ).guard fun s e _ => s.Atomic e).Run tr s) : QuotaKept tr s where
  slots := (account_of_run h).1.slots
  used hk i hi := (account_of_run h).2.used i hi fun k j hkj => absurd hkj (hk k j)
  atMost i hi := by
    obtain ⟨hinv, hacc⟩ := account_of_run h
    by_cases hreset : ∃ k j, s.call k = some (.reset j)
    · obtain ⟨k, j, hkj⟩ := hreset
      rw [hacc.reset k j hkj]
      omega
    · have hused := hacc.used i hi fun k j hkj => absurd ⟨k, j, hkj⟩ hreset
      have := (hinv.slots i hi).1
      omega
  reset k s' hst := ((account_of_run h).1.of_reset hst).2
  grows e s' hst i _ hlt := (account_of_run h).1.of_grows hst hlt
  exact tr1 tr2 s1 htr h1 hidle hnot hnext i hi hne := by
    obtain ⟨hinv, hacc⟩ := account_of_run h
    obtain ⟨k, s', hst⟩ := hnext
    obtain ⟨hk, _, hzero⟩ := hinv.of_reset hst
    have hused := hacc.used i hi fun k' j hkj => by
      obtain rfl := hinv.alone k' k _ _ hkj hk
      rw [hk] at hkj
      cases hkj
    have hused1 := (account_of_run h1).2.used i hi fun k' j hkj => by
      rw [hidle] at hkj
      cases hkj
    rw [hzero i hi hne, htr, sinceReset_append hnot] at hused
    omega

/-- Two processes in the queue whose quota is one, and a call of `k`. -/
def lowest (k : κ) : List (CallEvent κ) := [.add 0 139, .add 1 139, .call k]

/-- The first call takes one of them; the second one resets the quotas, and takes the other. -/
theorem quotaKept_lowest : ∃ tr s, ((lts (Fin 2)).guard fun s e _ => s.Atomic e).Run tr s ∧
    .get 1 .reset ∈ tr ∧ s.mlq.slot 139 = 0 ∧ QuotaKept tr s := by
  obtain ⟨s1, hrun1, htest⟩ := Lts.exists_guarded_run_of_execAll (init (Fin 2)) exec Atomic
    (lowest 0) (fun s => decide (s.call 0 = some .start ∧ s.call 1 = none ∧
      (runGet (2 ^ 14) s.mlq .start).any fun r =>
        .reset ∈ getActs (2 ^ 15) r.1 .start &&
          (runGet (2 ^ 15) r.1 .start).any fun r' => r'.1.slot 139 = 0)) (by decide +kernel)
  obtain ⟨hcall0, hcall1, htest⟩ := of_decide_eq_true htest
  obtain ⟨⟨m2, o2⟩, hget2, htest⟩ := (Option.any_eq_true _ _).mp htest
  obtain ⟨hreset, htest⟩ := (Bool.and_eq_true _ _).mp htest
  obtain ⟨⟨m4, o4⟩, hget4, hslot⟩ := (Option.any_eq_true _ _).mp htest
  obtain ⟨s2, hpath2, rfl, hcall2⟩ := path_of_runGet hcall0 hget2
  have hidle : ∀ k, s2.call k = none := by
    rw [hcall2]
    exact Fin.forall_fin_two.mpr ⟨Function.update_self .., hcall1⟩
  obtain ⟨s3, hstep3, hmlq3, hcall3⟩ : ∃ s3,
      ((lts (Fin 2)).guard fun s e _ => s.Atomic e).step s2 (.call 1) s3 ∧ s3.mlq = s2.mlq ∧
        s3.call 1 = some .start :=
    ⟨{ s2.setCall 1 (some .start) with
        sawEmpty := Function.update s2.sawEmpty 1 s2.mlq.allEmpty },
      ⟨by simp [lts, Lts.ofFn, exec, hidle], hidle⟩, rfl, by simp [setCall]⟩
  rw [← hmlq3] at hreset hget4
  obtain ⟨s4, hpath4, rfl, -⟩ := path_of_runGet hcall3 hget4
  have hrun := ((hrun1.path hpath2).step hstep3).path hpath4
  refine ⟨_, s4, hrun, ?_, of_decide_eq_true hslot, quotaKept_of_run hrun⟩
  exact List.mem_append_right _ (List.mem_map_of_mem (of_decide_eq_true hreset))

end Contention

end OsSim.Sched
