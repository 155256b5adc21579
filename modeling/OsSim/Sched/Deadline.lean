import Mathlib.Algebra.Order.BigOperators.Group.Finset
import OsSim.Lib.Deadline
import OsSim.Sched.Stranded

/-!
# When all programs have been executed

CPUs, loader and timer together (`src/os.c`, `src/sched.c`, `src/timer.c`), with atomic
calls of the queues. In a slot the loader adds a process if its time has come, and a CPU
that comes to `get_proc` gets a process if one waits, so from the last start time on no
slot passes in which nothing is done, as long as something is left to do. What is left is
counted by `State.todo`, so the number of slots has a bound that the configuration gives,
for any number of CPUs and any interleaving.

Results:
* `todo_step`: adding, running and freeing a process are what lowers the work.
* `due_step`, `due_begin`: a slot that begins with work left does not end without any done.
* `executed_by_deadline`: after so many slots every program has been executed.
-/

namespace OsSim.Sched

variable {n : ℕ} {c : Config} {g : Grain}

/-! ## What is left to do -/

/-- The process that a CPU holds between `run` and the test of its `pc`. -/
def CpuLoc.afterRun : CpuLoc → Option ℕ
  | .slot o | .inSlot o | .top o => o
  | _ => none

/-- The process has been run to its end and will be freed next. -/
def RanOut (s : State n) (p : ℕ) : Prop :=
  (s.pcb p).pc = (s.pcb p).code.length ∧ ∃ k, (s.cpu k).loc.afterRun = some p

instance (s : State n) (p : ℕ) : Decidable (RanOut s p) := inferInstanceAs (Decidable (_ ∧ _))

/-- At most so many more times will process `p` be added, run or freed: a process without
instructions is run once, too. -/
def State.todo (c : Config) (s : State n) (p : ℕ) : ℕ :=
  if s.ld.added c ≤ p then max (c.code p).length 1 + 2
  else if s.freed p = true then 0
  else if RanOut s p then 1
  else max ((s.pcb p).code.length - (s.pcb p).pc) 1 + 1

/-- The same for all processes. -/
def State.work (c : Config) (s : State n) : ℕ := ∑ p ∈ Finset.range c.numProcesses, s.todo c p

/-- The process that a step adds, runs or frees. -/
def Label.works : Label n → Option ℕ
  | .cpu _ (.free p) => some p
  | .cpu _ (.run p _) => some p
  | .ld _ (.add p) => some p
  | _ => none

section

variable {s s' : State n} {p : ℕ}

/-- A step of CPU `k` that does not touch the process. -/
theorem ranOut_congr {k : Fin n} (hpcb : s'.pcb p = s.pcb p)
    (hother : ∀ k', k' ≠ k → s'.cpu k' = s.cpu k')
    (hk : (s.pcb p).pc = (s.pcb p).code.length →
      ((s'.cpu k).loc.afterRun = some p ↔ (s.cpu k).loc.afterRun = some p)) :
    RanOut s' p ↔ RanOut s p := by
  rw [RanOut, RanOut, hpcb]
  refine and_congr_right fun hpc => exists_congr fun k' => ?_
  by_cases hkk : k' = k
  · rw [hkk]
    exact hk hpc
  · rw [hother k' hkk]

theorem todo_congr (hadded : s'.ld.added c ≤ p ↔ s.ld.added c ≤ p)
    (hfreed : s'.freed p = s.freed p) (hpcb : s'.pcb p = s.pcb p)
    (hran : RanOut s' p ↔ RanOut s p) : s'.todo c p = s.todo c p := by
  simp only [State.todo, hadded, hfreed, hpcb, hran]

theorem proc_of_afterRun {l : CpuLoc} (h : l.afterRun = some p) : l.proc = some p := by
  cases l with
  | slot o | inSlot o | top o => exact h
  | getting b l | recheck o | run q | stopped | exited => cases h

/-- The CPU that runs a process does not hold it after another `run`. -/
theorem Inv.not_ranOut (h : Inv c s) {k : Fin n} (hk : (s.cpu k).loc.proc = some p)
    (hno : (s.cpu k).loc.afterRun = none) : ¬ RanOut s p := by
  rintro ⟨-, k', hk'⟩
  have hkk : k' = k := h.places.inj k' k p (proc_of_afterRun hk') hk
  rw [hkk, hno] at hk'
  cases hk'

/-- What is left of a process that has been added and is not freed. -/
theorem todo_of_added (hadded : p < s.ld.added c) (hfreed : s.freed p = false) :
    s.todo c p = if RanOut s p then 1
      else max ((s.pcb p).code.length - (s.pcb p).pc) 1 + 1 := by
  rw [State.todo, if_neg (not_le.mpr hadded), if_neg (by simp [hfreed])]

theorem todo_of_freed (hadded : p < s.ld.added c) (hfreed : s.freed p = true) :
    s.todo c p = 0 := by
  rw [State.todo, if_neg (not_le.mpr hadded), if_pos hfreed]

theorem Inv.todo_eq (h : Inv c s) {k : Fin n} (hk : (s.cpu k).loc.proc = some p) :
    p < c.numProcesses ∧
      s.todo c p = if RanOut s p then 1
      else max ((s.pcb p).code.length - (s.pcb p).pc) 1 + 1 := by
  obtain ⟨hadded, hfreed⟩ := h.of_held hk
  exact ⟨(hadded.trans_le (s.ld.added_le_loaded c)).trans_le h.loaded_le,
    todo_of_added hadded hfreed⟩

/-- `run` executes an instruction, or there is none and the process has run out. -/
theorem runPcb_todo {q : Pcb} (h : q.pc ≤ q.code.length) :
    (State.runPcb q).2.code = q.code ∧
      ((State.runPcb q).2.pc = q.pc + 1 ∧ q.pc < q.code.length ∨
        (State.runPcb q).2.pc = q.pc ∧ q.pc = q.code.length) := by
  unfold State.runPcb
  cases hins : q.code[q.pc]? with
  | none =>
    rw [List.getElem?_eq_none_iff] at hins
    exact ⟨rfl, .inr ⟨rfl, by omega⟩⟩
  | some ins =>
    obtain ⟨hlt, -⟩ := List.getElem?_eq_some_iff.mp hins
    exact ⟨rfl, .inl ⟨rfl, hlt⟩⟩

/-- A step of a CPU that runs and frees nothing leaves the work as it is. -/
theorem CpuMove.todo_eq {k : Fin n} {a : Act} (hmove : CpuMove c g s k a s')
    (hno : (Label.cpu k a).works = none) (p : ℕ) : s'.todo c p = s.todo c p := by
  have hld := hmove.device.1
  have hother := hmove.device.2.1
  have hsame : s'.freed p = s.freed p → s'.pcb p = s.pcb p →
      ((s.pcb p).pc = (s.pcb p).code.length →
        ((s'.cpu k).loc.afterRun = some p ↔ (s.cpu k).loc.afterRun = some p)) →
      s'.todo c p = s.todo c p := fun hfreed hpcb hk =>
    todo_congr (by rw [hld]) hfreed hpcb (ranOut_congr hpcb hother hk)
  cases hmove with
  | free q hl hpc => cases hno
  | run q hl => cases hno
  | put q mlq hl hpc ht hput | keep q hl hpc ht =>
    -- the process is not at its end
    refine hsame rfl rfl fun hend => ?_
    simp only [State.setCpu, Function.update_self, hl, CpuLoc.afterRun]
    constructor
    · intro hq
      cases hq
    · rintro ⟨⟩
      exact absurd hend hpc
  | get b l o mlq hl hget =>
    refine hsame rfl rfl fun _ => ?_
    simp only [State.setCpu, Function.update_self, hl, GetSite.next]
    split
    all_goals simp [CpuLoc.afterRun]
  | idle hl | scan b l l' mlq hl hget | stop hl hdone | skip hl hdone | dispatch q hl
  | nextSlot o hl | ret o hl | detach hl =>
    refine hsame rfl rfl fun _ => ?_
    simp [State.setCpu, hl, CpuLoc.afterRun]

/-- Running and freeing a process lower what is left of it by one. -/
theorem CpuMove.todo (h : Inv c s) (hpc : ∀ p, (s.pcb p).pc ≤ (s.pcb p).code.length) {k : Fin n}
    {a : Act} (hmove : CpuMove c g s k a s') (p : ℕ) :
    s'.todo c p + (if (Label.cpu k a).works = some p then 1 else 0) = s.todo c p := by
  have hld := hmove.device.1
  have hother := hmove.device.2.1
  cases hw : (Label.cpu k a).works with
  | none =>
    rw [hmove.todo_eq hw p]
    rfl
  | some q =>
    cases hmove with
    | free _ hl hend =>
      cases hw
      by_cases hp : p = q
      · subst hp
        have hk : (s.cpu k).loc.proc = some p := by rw [hl]; rfl
        have hout : RanOut s p := ⟨hend, k, by rw [hl]; rfl⟩
        have htodo' := todo_of_freed (c := c) (p := p)
          (s := { s with freed := Function.update s.freed p true }.setCpu k
            (.getting .finished .start) (s.cpu k).timeLeft)
          (h.of_held hk).1 (Function.update_self ..)
        rw [if_pos rfl, (h.todo_eq hk).2, if_pos hout, htodo']
      · rw [if_neg fun heq => hp (Option.some.inj heq).symm]
        refine todo_congr ?_ ?_ ?_ (ranOut_congr ?_ hother fun _ => ?_)
        · rfl
        · exact Function.update_of_ne hp ..
        · rfl
        · rfl
        · simp [State.setCpu, hl, CpuLoc.afterRun, Ne.symm hp]
    | run _ hl =>
      cases hw
      by_cases hp : p = q
      · subst hp
        have hk : (s.cpu k).loc.proc = some p := by rw [hl]; rfl
        obtain ⟨hadded, hfreed⟩ := h.of_held hk
        have hle := hpc p
        obtain ⟨hcode, hrun⟩ := runPcb_todo hle
        have hpcb : ({ s with
            pcb := Function.update s.pcb p (State.runPcb (s.pcb p)).2 }.setCpu k (.slot (some p))
              ((s.cpu k).timeLeft - 1) : State n).pcb p = (State.runPcb (s.pcb p)).2 :=
          Function.update_self ..
        have htodo' := todo_of_added (s := { s with
          pcb := Function.update s.pcb p (State.runPcb (s.pcb p)).2 }.setCpu k (.slot (some p))
            ((s.cpu k).timeLeft - 1)) hadded hfreed
        rw [if_pos rfl, (h.todo_eq hk).2, if_neg (h.not_ranOut hk (by rw [hl]; rfl)), htodo', hpcb,
          hcode]
        split_ifs with hout
        · have hend := hout.1
          rw [hpcb, hcode] at hend
          omega
        · -- an instruction that was not the last one has been executed
          have hmore : (State.runPcb (s.pcb p)).2.pc ≠ (s.pcb p).code.length := by
            intro hend
            refine hout ⟨?_, k, ?_⟩
            · rw [hpcb, hcode, hend]
            · simp [State.setCpu, CpuLoc.afterRun]
          rcases hrun with ⟨hpc', hlt'⟩ | ⟨hpc', hend⟩
          · omega
          · exact absurd (hpc'.trans hend) hmore
      · rw [if_neg fun heq => hp (Option.some.inj heq).symm]
        refine todo_congr ?_ ?_ ?_ (ranOut_congr ?_ hother fun _ => ?_)
        · rfl
        · rfl
        · exact Function.update_of_ne hp ..
        · exact Function.update_of_ne hp ..
        · simp [State.setCpu, hl, CpuLoc.afterRun, Ne.symm hp]
    | _ => cases hw

/-- The loader changes what is left of the process that it adds. -/
theorem LdMove.todo_eq (h : Inv c s) {time : ℕ} {a : LdAct} (hmove : LdMove c s time a s') {p : ℕ}
    (hno : (Label.ld (n := n) time a).works ≠ some p) : s'.todo c p = s.todo c p := by
  cases hmove with
  | add i mlq hl hadd =>
    have hne : p ≠ i := fun heq => hno (congrArg some heq.symm)
    refine todo_congr ?_ ?_ ?_ ?_
    · rw [hl]
      simp only [LdLoc.added]
      omega
    all_goals rfl
  | load i hl hi =>
    by_cases hp : p = i
    · -- the process is not added yet
      subst hp
      rw [State.todo, State.todo, hl]
      exact (if_pos (Nat.le_refl p)).trans (if_pos (Nat.le_refl p)).symm
    · refine todo_congr ?_ ?_ ?_ ?_
      · rw [hl]
        rfl
      · rfl
      · exact Function.update_of_ne hp ..
      · rw [RanOut, RanOut]
        simp only [Function.update_of_ne hp]
  | leave i hl hi =>
    have hle := h.loaded_le
    rw [hl] at hle
    have hend : LdLoc.added c (.loop i) = c.numProcesses := Nat.le_antisymm hle hi
    refine todo_congr ?_ ?_ ?_ ?_
    · rw [hl, hend]
      rfl
    all_goals rfl
  | early i hl hi | ready i hl hi | nextSlot b i hl | retEarly i hl | retAdded i hl | finish hl
  | detach hl =>
    refine todo_congr ?_ ?_ ?_ ?_
    · rw [hl]
      rfl
    all_goals rfl

/-- Before and after a process is added. -/
theorem LdMove.todo_add (h : Inv c s) {time p : ℕ} (hmove : LdMove c s time (.add p) s') :
    s.todo c p = max (c.code p).length 1 + 2 ∧
      s'.todo c p = max ((c.code p).length - (s.pcb p).pc) 1 + 1 := by
  cases hmove with
  | add i mlq hl hadd =>
    have hfreed : s.freed p = false := by
      rw [← Bool.not_eq_true]
      intro hf
      have hlt := (h.freed p hf).1
      rw [hl] at hlt
      exact Nat.lt_irrefl p hlt
    have hout : ¬ RanOut s p := by
      rintro ⟨-, k, hk⟩
      have hlt := (h.of_held (proc_of_afterRun hk)).1
      rw [hl] at hlt
      exact Nat.lt_irrefl p hlt
    have hcode : (s.pcb p).code = c.code p := h.code_eq p (by rw [hl]; exact Nat.lt_succ_self p)
    refine ⟨?_, ?_⟩
    · rw [State.todo, hl]
      exact if_pos (Nat.le_refl p)
    · rw [todo_of_added (s := { s with mlq := mlq, ld := .slot .added (p + 1) })
        (Nat.lt_succ_self p) hfreed, ← hcode]
      exact if_neg hout

theorem works_lt (h : Inv c s) {e : Label n} (hst : s.exec c g e = some s') {p : ℕ}
    (hp : e.works = some p) : p < c.numProcesses := by
  obtain ⟨k, a, rfl, hmove⟩ | ⟨time, a, rfl, hmove⟩ := moves_of_exec hst
  · cases hmove with
    | free q hl hend | run q hl =>
      cases hp
      exact (h.todo_eq (k := k) (by rw [hl]; rfl)).1
    | _ => cases hp
  · cases hmove with
    | add i mlq hl hadd =>
      cases hp
      have hle := h.loaded_le
      rw [hl] at hle
      exact hle
    | _ => cases hp

/-- Adding, running and freeing a process lower what is left of it. -/
theorem todo_step (h : Inv c s) (hpc : ∀ p, (s.pcb p).pc ≤ (s.pcb p).code.length) {e : Label n}
    (hst : s.exec c g e = some s') (p : ℕ) :
    if e.works = some p then s'.todo c p < s.todo c p else s'.todo c p = s.todo c p := by
  obtain ⟨k, a, rfl, hmove⟩ | ⟨time, a, rfl, hmove⟩ := moves_of_exec hst
  · have htodo := hmove.todo h hpc p
    split_ifs at htodo ⊢
    · omega
    · exact htodo
  · split_ifs with hp
    · cases a with
      | add q =>
        cases hp
        obtain ⟨hbefore, hafter⟩ := hmove.todo_add h
        omega
      | _ => cases hp
    · exact hmove.todo_eq h hp

/-- What adds, runs or frees a process lowers the work, and nothing raises it. -/
theorem work_step (h : Inv c s) (hpc : ∀ p, (s.pcb p).pc ≤ (s.pcb p).code.length) {e : Label n}
    (hst : s.exec c g e = some s') :
    if e.works.isSome then s'.work c < s.work c else s'.work c ≤ s.work c := by
  have hle : ∀ p, s'.todo c p ≤ s.todo c p := by
    intro p
    have htodo := todo_step h hpc hst p
    split_ifs at htodo
    · exact htodo.le
    · exact htodo.le
  split_ifs with hw
  · obtain ⟨p, hp⟩ := Option.isSome_iff_exists.mp hw
    have hdec := todo_step h hpc hst p
    rw [if_pos hp] at hdec
    exact Finset.sum_lt_sum (fun q _ => hle q)
      ⟨p, Finset.mem_range.mpr (works_lt h hst hp), hdec⟩
  · exact Finset.sum_le_sum fun q _ => hle q

theorem work_init (c : Config) : (State.init c.numCpus).work c =
    ∑ p ∈ Finset.range c.numProcesses, (max (c.code p).length 1 + 2) :=
  Finset.sum_congr rfl fun p _ => if_pos (Nat.zero_le p)

end

/-! ## Work that is due -/

/-- The start time of the last process. -/
def Config.lastStart (c : Config) : ℕ := (c.ldProcesses.map LdProcess.startTime).foldr max 0

/-- In this slot CPU `k` will run or free a process, unless another CPU gets the last one that
waits. -/
def CpuDue (s : System n) (k : Fin n) : Prop :=
  match (s.os.cpu k).loc with
  | .inSlot (some _) => s.timer.phase k = .released
  | .inSlot none => s.timer.phase k = .released ∧ ¬ QueuesEmpty s.os.mlq
  | .top none | .getting _ _ => ¬ QueuesEmpty s.os.mlq
  | .top (some _) | .recheck (some _) | .run _ => True
  | _ => False

/-- In this slot the loader will add a process. -/
def LdDue (c : Config) (s : System n) : Prop :=
  match s.os.ld with
  | .inSlot .early _ => s.timer.phase n = .released
  | .inSlot .added i => i < c.numProcesses ∧ s.timer.phase n = .released
  | .loop i => i < c.numProcesses
  | .test _ | .add _ => True
  | _ => False

/-- There is a thread that has work in this slot. -/
def Due (c : Config) (s : System n) : Prop :=
  (∃ k, CpuDue s k) ∨ LdDue c s ∧ c.lastStart ≤ s.timer.time

/-- All processes have been added, and all have finished. -/
def AllFreed (c : Config) (s : System n) : Prop :=
  c.numProcesses ≤ s.os.ld.added c ∧ ∀ p < c.numProcesses, s.os.freed p = true

theorem startTime_le_lastStart (c : Config) (i : ℕ) : c.startTime i ≤ c.lastStart := by
  unfold Config.startTime Config.lastStart
  induction c.ldProcesses generalizing i with
  | nil => simp
  | cons ld rest ih =>
    rw [List.map_cons, List.foldr_cons]
    cases i with
    | zero => exact le_max_left ..
    | succ i =>
      rw [List.getElem?_cons_succ]
      exact (ih i).trans (le_max_right ..)

theorem not_queuesEmpty_put {m m' : Mlq} {p prio : ℕ} (h : enqueueMlq m p prio = .ok m') :
    ¬ QueuesEmpty m' := by
  intro hempty
  obtain ⟨hlt, hready⟩ := enqueueMlq_ok h
  have hnil := hempty prio hlt
  rw [hready, Function.update_self] at hnil
  exact absurd hnil (by simp)

section

variable {s s' : System n}

/-- The queues have become empty: the CPU has got a process. -/
theorem CpuMove.got_last {os os' : State n} {k : Fin n} {a : Act}
    (hmove : CpuMove c .call os k a os') (hne : ¬ QueuesEmpty os.mlq)
    (hempty : QueuesEmpty os'.mlq) : ∃ p, (os'.cpu k).loc = .recheck (some p) := by
  cases hmove with
  | put p mlq hl hpc ht hput => exact absurd hempty (not_queuesEmpty_put hput)
  | scan b l l' mlq hl hget => exact absurd hget fun hget => get_call_inl hget
  | get b l o mlq hl hget =>
    cases o with
    | none =>
      have hready : mlq.ready = os.mlq.ready := Grain.get_spec hget
      refine absurd ?_ hne
      intro i hi
      rw [← hready]
      exact hempty i hi
    | some p =>
      refine ⟨p, ?_⟩
      simp [State.setCpu, GetSite.next]
  | _ => exact absurd hempty hne

/-- The CPU comes nearer to its work. -/
theorem CpuDue.move {k : Fin n} {a : Act} (h : CpuDue s k) (hstart : AtStart s.os)
    (hmove : CpuMove c .call s.os k a s'.os) (hno : (Label.cpu k a).works = none) :
    CpuDue s' k := by
  unfold CpuDue at h ⊢
  generalize s'.os = os at hmove ⊢
  cases hmove with
  | free p hl hpc => cases hno
  | run p hl => cases hno
  | idle hl =>
    rw [hl] at h
    simpa [State.setCpu] using h
  | put p mlq hl hpc ht hput =>
    simpa [State.setCpu] using not_queuesEmpty_put hput
  | keep p hl hpc ht => simp [State.setCpu]
  | scan b l l' mlq hl hget => exact absurd hget fun hget => get_call_inl hget
  | get b l o mlq hl hget =>
    rw [hl] at h
    cases o with
    | none =>
      have hready : mlq.ready = s.os.mlq.ready := Grain.get_spec hget
      have hempty := queuesEmpty_of_get (hstart k b l hl) hget
      refine absurd ?_ h
      intro i hi
      rw [← hready]
      exact hempty i hi
    | some p => simp [State.setCpu, GetSite.next]
  | stop hl hdone | skip hl hdone | nextSlot o hl | detach hl =>
    rw [hl] at h
    exact h.elim
  | dispatch p hl => simp [State.setCpu]
  | ret o hl =>
    rw [hl] at h
    cases o with
    | none => simpa [State.setCpu] using h.2
    | some p => simp [State.setCpu]

/-- The loader comes nearer to `add_proc`. -/
theorem LdDue.move {time : ℕ} {a : LdAct} (h : LdDue c s) (htime : c.lastStart ≤ time)
    (hmove : LdMove c s.os time a s'.os) (hno : (Label.ld (n := n) time a).works = none) :
    LdDue c s' := by
  unfold LdDue at h ⊢
  generalize s'.os = os at hmove ⊢
  cases hmove with
  | load i hl hi => trivial
  | leave i hl hi =>
    rw [hl] at h
    exact absurd hi (not_le.mpr h)
  | early i hl hi => exact absurd (hi.trans_le (startTime_le_lastStart c i)) (not_lt.mpr htime)
  | ready i hl hi => trivial
  | add i mlq hl hadd => cases hno
  | nextSlot b i hl | finish hl | detach hl =>
    rw [hl] at h
    exact h.elim
  | retEarly i hl => trivial
  | retAdded i hl =>
    rw [hl] at h
    exact h.1

end

/-! ## Slots -/

/-- What a step of the timer does to the phases: a new slot begins, or one device at most is
concerned. -/
theorem phase_cases {t t' : Timer.State} {te : Timer.Event} (ht : Timer.Inv (n + 1) t)
    (hexec : t.exec te = some t') :
    (te = .tick ∧ (∀ d, t.phase d = .arrived ∨ t.phase d = .left) ∧
      ∀ d, t'.phase d = (t.phase d).release) ∨
      te ≠ .tick ∧ ∀ d, (te = .nextSlot d ∨ te = .ret d ∨ te = .detach d) ∨
        t'.phase d = t.phase d := by
  rcases ht.barrier_step hexec with ⟨b, hb, hst⟩ | ⟨hb, heq⟩
  · generalize ht' : t'.barrier = tb at hst
    have hphase : ∀ d, t'.phase d = tb.phase d := fun d => by
      rw [← ht']
      rfl
    cases te with
    | nextSlot d | ret d | detach d =>
      cases hb
      refine .inr ⟨nofun, fun d' => ?_⟩
      by_cases hdd : d' = d
      · simp [hdd]
      · refine .inr ((hphase d').trans ?_)
        cases hst
        exact Function.update_of_ne hdd ..
    | tick =>
      cases hb
      cases hst with
      | tick harr => exact .inl ⟨rfl, harr, hphase⟩
    | sleep d | wake d | routine | wakeTimer | stopTimer => cases hb
  · refine .inr ⟨?_, fun d => .inr (congrArg (fun b : Barrier.State ℕ => b.phase d) heq)⟩
    rintro rfl
    cases hb

section

variable {s s' : System n}

/-- A thread whose device is not in `next_slot` works. -/
theorem phase_working (ht : Timer.Inv (n + 1) s.timer) {d : ℕ} (hd : d < n + 1)
    (hw : (s.timer.dev d).signal = .working) : s.timer.phase d = .working := by
  rw [signal_eq_working] at hw
  simp [Timer.State.phase, ht.mem_devList.mpr hd, hw]

/-- The device of the thread that takes the step. -/
def Label.device : Label n → ℕ
  | .cpu k _ => k
  | .ld _ _ => n

/-- A step of a thread concerns its own device, and no time passes. -/
theorem thread_timer (h : Timer.Inv (n + 1) s.timer) {e : Label n}
    (ht : e.timer = none ∧ s'.timer = s.timer ∨
      ∃ te, e.timer = some te ∧ s.timer.exec te = some s'.timer) :
    s'.timer.time = s.timer.time ∧
      ∀ d, d ≠ e.device → s'.timer.phase d = s.timer.phase d := by
  rcases ht with ⟨-, heq⟩ | ⟨te, hte, hexec⟩
  · exact ⟨congrArg _ heq, fun d _ => congrArg (fun t : Timer.State => t.phase d) heq⟩
  have hcall : te = .nextSlot e.device ∨ te = .ret e.device ∨ te = .detach e.device := by
    cases e with
    | cpu k a => exact Act.timer_eq hte
    | ld time a => exact LdAct.timer_eq hte
  have hne : te ≠ .tick := by
    rintro rfl
    simp at hcall
  refine ⟨?_, fun d hd => ?_⟩
  · rw [Timer.time_exec hexec, if_neg hne]
  · rcases phase_cases h hexec with ⟨htick, -⟩ | ⟨-, hphase⟩
    · exact absurd htick hne
    · refine (hphase d).resolve_left fun hd' => hd ?_
      rcases hcall with rfl | rfl | rfl
      all_goals simpa [eq_comm] using hd'

/-- What a thread calls is what its device does. -/
theorem exec_of_call {e : Label n}
    (ht : e.timer = none ∧ s'.timer = s.timer ∨
      ∃ te, e.timer = some te ∧ s.timer.exec te = some s'.timer) {te : Timer.Event}
    (hte : e.timer = some te) : s.timer.exec te = some s'.timer := by
  rcases ht with ⟨hnone, -⟩ | ⟨te', hte', hexec⟩
  · rw [hnone] at hte
    cases hte
  · rw [hte'] at hte
    cases hte
    exact hexec

/-- The timer's own steps let no device go on, but for `_time++`. -/
theorem phase_ownStep (ht : Timer.Inv (n + 1) s.timer) {te : Timer.Event} (hown : ownStep te = true)
    (hne : te ≠ .tick) (hexec : s.timer.exec te = some s'.timer) (d : ℕ) :
    s'.timer.phase d = s.timer.phase d := by
  rcases phase_cases ht hexec with ⟨htick, -⟩ | ⟨-, hphase⟩
  · exact absurd htick hne
  · refine (hphase d).resolve_left ?_
    rintro (rfl | rfl | rfl)
    all_goals cases hown

/-- A device that does not keep the slot from ending is in `next_slot` or gone. -/
theorem signal_of_phase (h : Timer.Inv (n + 1) s.timer) {d : ℕ} (hd : d < n + 1)
    (harr : s.timer.phase d = .arrived ∨ s.timer.phase d = .left) :
    (s.timer.dev d).signal = .testing ∧ s.timer.phase d = .arrived ∨
      (s.timer.dev d).signal = .detached := by
  have hleft := h.phase_eq_left hd
  cases hdev : s.timer.dev d with
  | working =>
    have hw := phase_working h hd (by rw [hdev]; rfl)
    rw [hw] at harr
    simp at harr
  | testing | asleep =>
    refine .inl ⟨rfl, harr.resolve_right fun hl => ?_⟩
    rw [hleft, hdev] at hl
    cases hl
  | detached => exact .inr rfl

theorem Sync.cpu_waits (h : Sync s) (ht : Timer.Inv (n + 1) s.timer) {k : Fin n}
    (harr : s.timer.phase k = .arrived ∨ s.timer.phase k = .left) :
    (∃ o, (s.os.cpu k).loc = .inSlot o) ∧ s.timer.phase k = .arrived ∨
      (s.os.cpu k).loc = .exited := by
  have hsync := h.cpu k
  refine (signal_of_phase ht (by omega) harr).imp ?_ fun hdev => ?_
  · rintro ⟨hdev, hphase⟩
    refine ⟨?_, hphase⟩
    rw [hdev] at hsync
    cases hl : (s.os.cpu k).loc with
    | inSlot o => exact ⟨o, rfl⟩
    | top o | getting b l | recheck o | run p | slot o | stopped | exited =>
      rw [hl] at hsync
      cases hsync
  · rw [hdev] at hsync
    cases hl : (s.os.cpu k).loc with
    | exited => rfl
    | top o | getting b l | recheck o | run p | slot o | stopped | inSlot o =>
      rw [hl] at hsync
      cases hsync

theorem Sync.ld_waits (h : Sync s) (ht : Timer.Inv (n + 1) s.timer)
    (harr : s.timer.phase n = .arrived ∨ s.timer.phase n = .left) :
    (∃ b i, s.os.ld = .inSlot b i) ∧ s.timer.phase n = .arrived ∨ s.os.ld = .exited := by
  have hsync := h.ld
  refine (signal_of_phase ht (by omega) harr).imp ?_ fun hdev => ?_
  · rintro ⟨hdev, hphase⟩
    refine ⟨?_, hphase⟩
    rw [hdev] at hsync
    cases hl : s.os.ld with
    | inSlot b i => exact ⟨b, i, rfl⟩
    | loop i | test i | add i | slot b i | finish | detach | exited =>
      rw [hl] at hsync
      cases hsync
  · rw [hdev] at hsync
    cases hl : s.os.ld with
    | exited => rfl
    | loop i | test i | add i | slot b i | finish | detach | inSlot b i =>
      rw [hl] at hsync
      cases hsync

/-- A slot begins when every CPU waits for it or has gone. -/
theorem cpu_of_tick (hsync : Sync s) (ht : Timer.Inv (n + 1) s.timer)
    (hst : s.exec c g (.timer .tick) = some s') (k : Fin n) :
    s'.os = s.os ∧
      ((∃ o, (s.os.cpu k).loc = .inSlot o) ∧ s.timer.phase k = .arrived ∧
          s'.timer.phase k = .released ∨
        (s.os.cpu k).loc = .exited) := by
  obtain ⟨e, he, -⟩ | ⟨te, he, -, hos, hexec⟩ := System.exec_cases hst
  · cases he
  cases he
  refine ⟨hos, ?_⟩
  rcases phase_cases ht hexec with ⟨-, harr, hphase⟩ | ⟨hne, -⟩
  · refine (hsync.cpu_waits ht (harr k)).imp ?_ id
    rintro ⟨hl, hk⟩
    exact ⟨hl, hk, by rw [hphase k, hk]; rfl⟩
  · exact absurd rfl hne

end

/-- What holds of a state that has been reached. -/
structure Reached (c : Config) (s : System c.numCpus) : Prop where
  inv : Inv c s.os
  pc_le : ∀ p, (s.os.pcb p).pc ≤ (s.os.pcb p).code.length
  stop : StopInv s.os
  start : AtStart s.os
  sync : Sync s
  timer : Timer.Inv (c.numCpus + 1) s.timer
  settled : 0 < c.numCpus → Settled c s

theorem reached_of_run {tr : List (SysLabel c.numCpus)} {s : System c.numCpus}
    (h : (sysLts c .call).Run tr s) : Reached c s where
  inv := inv_of_run (osRun_of_run h)
  pc_le := (history_of_run (osRun_of_run h)).pc_le
  stop := stopInv_of_run (osRun_of_run h)
  start := atStart_of_run (osRun_of_run h)
  sync := sync_of_run h
  timer := Timer.inv_of_run (timerRun_of_run h)
  settled := settled_of_run h

section

variable {s s' : System c.numCpus}

/-- A thread that has work keeps the slot from ending. -/
theorem Reached.due_phase (h : Reached c s) (hdue : Due c s) :
    ∃ d, s.timer.phase d = .working ∨ s.timer.phase d = .released := by
  rcases hdue with ⟨k, hk⟩ | ⟨hl, -⟩
  · refine ⟨k, ?_⟩
    have hsync := h.sync.cpu k
    unfold CpuDue at hk
    cases hloc : (s.os.cpu k).loc with
    | inSlot o =>
      rw [hloc] at hk
      cases o with
      | none => exact .inr hk.1
      | some p => exact .inr hk
    | top o | getting b l | recheck o | run p =>
      rw [hloc] at hsync
      exact .inl (phase_working h.timer (by omega) hsync)
    | slot o | stopped | exited =>
      rw [hloc] at hk
      exact hk.elim
  · refine ⟨c.numCpus, ?_⟩
    have hsync := h.sync.ld
    unfold LdDue at hl
    cases hloc : s.os.ld with
    | inSlot b i =>
      rw [hloc] at hl
      cases b with
      | early => exact .inr hl
      | added => exact .inr hl.2
    | loop i | test i | add i =>
      rw [hloc] at hsync
      exact .inl (phase_working h.timer (by omega) hsync)
    | slot b i | finish | detach | exited =>
      rw [hloc] at hl
      exact hl.elim

theorem CpuDue.congr {n : ℕ} {s s' : System n} {k : Fin n} (h : CpuDue s k)
    (hcpu : s'.os.cpu k = s.os.cpu k) (hphase : s'.timer.phase k = s.timer.phase k)
    (hmlq : ¬ QueuesEmpty s.os.mlq → ¬ QueuesEmpty s'.os.mlq) : CpuDue s' k := by
  unfold CpuDue at h ⊢
  rw [hcpu]
  cases hl : (s.os.cpu k).loc with
  | inSlot o =>
    rw [hl] at h
    cases o with
    | none => exact ⟨hphase.trans h.1, hmlq h.2⟩
    | some p => exact hphase.trans h
  | top o =>
    rw [hl] at h
    cases o with
    | none => exact hmlq h
    | some p => trivial
  | getting b l =>
    rw [hl] at h
    exact hmlq h
  | recheck o =>
    rw [hl] at h
    cases o with
    | none => exact h
    | some p => trivial
  | run p => trivial
  | slot o | stopped | exited =>
    rw [hl] at h
    exact h

theorem LdDue.congr {n : ℕ} {s s' : System n} (h : LdDue c s) (hld : s'.os.ld = s.os.ld)
    (hphase : s'.timer.phase n = s.timer.phase n) : LdDue c s' := by
  unfold LdDue at h ⊢
  rwa [hld, hphase]

theorem LdMove.mlq_eq {os os' : State n} {time : ℕ} {a : LdAct} (h : LdMove c os time a os')
    (hno : (Label.ld (n := n) time a).works = none) : os'.mlq = os.mlq := by
  cases h with
  | add i mlq hl hadd => cases hno
  | _ => rfl

/-- Work stays due until it is done, and the slot does not end before. -/
theorem Reached.due_step (h : Reached c s) {l : SysLabel c.numCpus}
    (hst : s.exec c .call l = some s') (hdue : Due c s) :
    l ≠ .timer .tick ∧ ((∃ e p, l = .thread e ∧ e.works = some p) ∨ Due c s') := by
  have htick : l ≠ .timer .tick := by
    rintro rfl
    obtain ⟨e, ⟨⟩, -⟩ | ⟨te, hte, -, -, hexec⟩ := System.exec_cases hst
    cases hte
    rcases phase_cases h.timer hexec with ⟨-, harr, -⟩ | ⟨hne, -⟩
    · obtain ⟨d, hd⟩ := h.due_phase hdue
      rcases harr d with ha | ha
      all_goals
        rw [ha] at hd
        simp at hd
    · exact hne rfl
  refine ⟨htick, ?_⟩
  obtain ⟨e, rfl, htime, hos, ht⟩ | ⟨te, rfl, hown, hos, hexec⟩ := System.exec_cases hst
  · cases hno : e.works with
    | some p => exact .inl ⟨e, p, rfl, hno⟩
    | none =>
      right
      obtain ⟨hsame, hphase⟩ := thread_timer h.timer ht
      obtain ⟨k, a, rfl, hmove⟩ | ⟨time, a, rfl, hmove⟩ := moves_of_exec hos
      · obtain ⟨hld, hother, -⟩ := hmove.device
        rcases hdue with ⟨k', hk'⟩ | ⟨hl, hlast⟩
        · by_cases hkk : k' = k
          · subst hkk
            exact .inl ⟨k', hk'.move h.start hmove hno⟩
          by_cases hgot : ¬ QueuesEmpty s.os.mlq ∧ QueuesEmpty s'.os.mlq
          · -- another CPU has got the process
            obtain ⟨p, hp⟩ := hmove.got_last hgot.1 hgot.2
            refine .inl ⟨k, ?_⟩
            rw [CpuDue, hp]
            trivial
          · refine .inl ⟨k', hk'.congr (hother k' hkk) (hphase k' ?_) fun hne hempty =>
              hgot ⟨hne, hempty⟩⟩
            exact fun heq => hkk (Fin.ext heq)
        · refine .inr ⟨hl.congr hld (hphase _ ?_), hsame ▸ hlast⟩
          exact fun heq => absurd k.isLt (by rw [← show c.numCpus = (k : ℕ) from heq]; omega)
      · obtain ⟨hcpu, -⟩ := hmove.device c.numCpus
        rcases hdue with ⟨k', hk'⟩ | ⟨hl, hlast⟩
        · refine .inl ⟨k', hk'.congr (congrFun hcpu k') (hphase k' ?_) ?_⟩
          · exact fun heq => absurd k'.isLt (by rw [show (k' : ℕ) = c.numCpus from heq]; omega)
          · rw [hmove.mlq_eq hno]
            exact id
        · have heq : time = s.timer.time := by simpa [System.timeOk] using htime
          exact .inr ⟨hl.move (heq ▸ hlast) hmove hno, hsame ▸ hlast⟩
  · have hne : te ≠ .tick := fun heq => htick (congrArg _ heq)
    have hphase := phase_ownStep h.timer hown hne hexec
    refine .inr (hdue.imp ?_ ?_)
    · rintro ⟨k, hk⟩
      exact ⟨k, hk.congr (by rw [hos]) (hphase k) (by rw [hos]; exact id)⟩
    · rintro ⟨hl, hlast⟩
      refine ⟨hl.congr (by rw [hos]) (hphase _), ?_⟩
      rwa [Timer.time_exec hexec, if_neg hne]

/-- A process that has been added and not freed is in its queue or on a CPU. -/
theorem Reached.somewhere (h : Reached c s) {p : ℕ} (hadded : p < s.os.ld.added c)
    (hfreed : s.os.freed p = false) :
    ¬ QueuesEmpty s.os.mlq ∨ ∃ k, (s.os.cpu k).loc.proc = some p := by
  have hin : (s.os.circulation c).stage p = .inside := inside_iff.mpr ⟨hadded, hfreed⟩
  refine (h.inv.places.somewhere p hin).imp (fun hq hempty => ?_) id
  have hnil : s.os.mlq.ready (c.prio p) = [] := by
    by_cases hprio : c.prio p < maxPrio
    · exact hempty _ hprio
    · exact h.stop.bound _ (Nat.not_lt.mp hprio)
  rw [show (s.os.circulation c).queue = s.os.mlq.ready from rfl, hnil] at hq
  cases hq

/-- At the beginning of a slot every thread that goes on is in `next_slot` and may return. -/
theorem Reached.due_begin (h : Reached c s) (hn : 0 < c.numCpus)
    (hst : s.exec c .call (.timer .tick) = some s') (hlast : c.lastStart ≤ s'.timer.time) :
    Due c s' ∨ AllFreed c s' := by
  obtain ⟨e, ⟨⟩, -⟩ | ⟨te, hte, -, hos, hexec⟩ := System.exec_cases hst
  cases hte
  obtain ⟨harr, hphase⟩ : (∀ d, s.timer.phase d = .arrived ∨ s.timer.phase d = .left) ∧
      ∀ d, s'.timer.phase d = (s.timer.phase d).release := by
    rcases phase_cases h.timer hexec with ⟨-, hp⟩ | ⟨hne, -⟩
    · exact hp
    · exact absurd rfl hne
  -- a CPU in `next_slot` has work if it has a process or one waits
  have hcpu : ∀ k o, (s.os.cpu k).loc = .inSlot o → s.timer.phase k = .arrived →
      (∃ p, o = some p) ∨ ¬ QueuesEmpty s.os.mlq → Due c s' := by
    intro k o hl harr hwork
    have hrel : s'.timer.phase k = .released := by
      rw [hphase k, harr]
      rfl
    refine .inl ⟨k, ?_⟩
    rw [CpuDue, hos, hl]
    cases o with
    | some p => exact hrel
    | none => exact ⟨hrel, hwork.resolve_left nofun⟩
  by_cases hall : c.numProcesses ≤ s.os.ld.added c
  · by_cases hfreed : ∀ p < c.numProcesses, s.os.freed p = true
    · exact .inr (by rw [AllFreed, hos]; exact ⟨hall, hfreed⟩)
    left
    push Not at hfreed
    obtain ⟨p, hp, hf⟩ := hfreed
    rcases h.somewhere (hp.trans_le hall) (Bool.eq_false_iff.mpr hf) with hq | ⟨k, hk⟩
    · -- not all CPUs are gone while a process waits
      obtain ⟨k, hk⟩ : ∃ k, ¬ Leaving c s k := by
        by_contra hno
        push Not at hno
        exact hq (h.settled hn hno)
      rcases h.sync.cpu_waits h.timer (harr k) with ⟨⟨o, hl⟩, harr⟩ | hl
      · exact hcpu k o hl harr (.inr hq)
      · exact absurd (.inl (.inr hl)) hk
    · rcases h.sync.cpu_waits h.timer (harr k) with ⟨⟨o, hl⟩, harr⟩ | hl
      · refine hcpu k o hl harr (.inl ⟨p, ?_⟩)
        rwa [hl] at hk
      · rw [hl] at hk
        cases hk
  · -- the loader has still a process to add
    left
    rcases h.sync.ld_waits h.timer (harr c.numCpus) with ⟨⟨b, i, hl⟩, harr⟩ | hl
    · have hrel : s'.timer.phase c.numCpus = .released := by
        rw [hphase, harr]
        rfl
      refine .inr ⟨?_, hlast⟩
      rw [LdDue, hos, hl]
      cases b with
      | early => exact hrel
      | added =>
        refine ⟨?_, hrel⟩
        rw [hl] at hall
        exact not_le.mp hall
    · rw [hl] at hall
      exact absurd (Nat.le_refl _) hall

/-- A process that has been freed stays so, and the loader adds no other. -/
theorem AllFreed.step (h : AllFreed c s) {l : SysLabel c.numCpus}
    (hst : s.exec c g l = some s') : AllFreed c s' := by
  obtain ⟨hall, hfreed⟩ := h
  obtain ⟨e, rfl, -, hos, -⟩ | ⟨te, rfl, -, hos, -⟩ := System.exec_cases hst
  · rw [AllFreed]
    generalize s'.os = os at hos ⊢
    obtain ⟨k, a, rfl, hmove⟩ | ⟨time, a, rfl, hmove⟩ := moves_of_exec hos
    · refine ⟨by rwa [hmove.device.1], fun p hp => ?_⟩
      have hp := hfreed p hp
      cases hmove with
      | free q hl hpc =>
        show Function.update s.os.freed q true p = true
        by_cases hpq : p = q
        · rw [hpq, Function.update_self]
        · rwa [Function.update_of_ne hpq]
      | _ => exact hp
    · cases hmove with
      | load i hl hi =>
        rw [hl] at hall
        exact absurd hi (not_lt.mpr hall)
      | add i mlq hl hadd =>
        rw [hl] at hall
        exact ⟨Nat.le_succ_of_le hall, hfreed⟩
      | leave i hl hi => exact ⟨Nat.le_refl _, hfreed⟩
      | early i hl hi | ready i hl hi | nextSlot b i hl | retEarly i hl | retAdded i hl | finish hl
      | detach hl =>
        rw [hl] at hall
        exact ⟨hall, hfreed⟩
  · rw [AllFreed, hos]
    exact ⟨hall, hfreed⟩

/-- Time passes in `_time++` only. -/
theorem time_step {l : SysLabel c.numCpus} (hst : s.exec c g l = some s') :
    s'.timer.time = if l = .timer .tick then s.timer.time + 1 else s.timer.time := by
  obtain ⟨e, rfl, -, -, ht⟩ | ⟨te, rfl, -, -, hexec⟩ := System.exec_cases hst
  · rw [if_neg (by simp)]
    rcases ht with ⟨-, heq⟩ | ⟨te, hte, hexec⟩
    · rw [heq]
    · have hne : te ≠ .tick := by
        rintro rfl
        cases e with
        | cpu k a => simpa using Act.timer_eq hte
        | ld time a => simpa using LdAct.timer_eq hte
      rw [Timer.time_exec hexec, if_neg hne]
  · rw [Timer.time_exec hexec]
    simp

end

/-- A step that adds, runs or frees a process. -/
def SysLabel.isWork : SysLabel n → Bool
  | .thread e => e.works.isSome
  | .timer _ => false

/-- The simulator works in slots. -/
def slots (c : Config) (hn : 0 < c.numCpus) : Deadline.Slots (sysLts c .call) (Reached c) where
  time s := s.timer.time
  tick l := decide (l = .timer .tick)
  work := SysLabel.isWork
  start := c.lastStart
  Due := Due c
  Done := AllFreed c
  time_init := by
    rintro s rfl
    have htime : (System.init c.numCpus).timer.time = 0 := by
      simp [System.init, Timer.State.started, Timer.State.attached_eq, Timer.State.startTimer,
        Timer.State.boot]
    rw [htime]
    exact Nat.zero_le _
  time_step s l s' hst := by
    rw [time_step hst]
    simp
  done_step s l s' _ hst h := h.step hst
  due_step s l s' hs hst hdue := by
    obtain ⟨htick, hwork⟩ := hs.due_step hst hdue
    refine ⟨by simpa using htick, hwork.imp ?_ id⟩
    rintro ⟨e, p, rfl, hp⟩
    exact Option.isSome_iff_exists.mpr ⟨p, hp⟩
  due_tick s l s' hs hst htick hlast := by
    rw [decide_eq_true_eq] at htick
    subst htick
    exact hs.due_begin hn hst hlast.le

/-- Slots after which all programs have been executed: each process is added, run once for each
instruction and at least once, and freed. -/
def Config.deadline (c : Config) : ℕ :=
  c.lastStart + 1 + ∑ p ∈ Finset.range c.numProcesses, (max (c.code p).length 1 + 2)

theorem work_sysStep {s s' : System c.numCpus} {l : SysLabel c.numCpus} (h : Reached c s)
    (hst : s.exec c .call l = some s') :
    if l.isWork then s'.os.work c < s.os.work c else s'.os.work c ≤ s.os.work c := by
  obtain ⟨e, rfl, -, hos, -⟩ | ⟨te, rfl, -, hos, -⟩ := System.exec_cases hst
  · exact work_step h.inv h.pc_le hos
  · rw [hos]
    exact Nat.le_refl _

/-- When the timer has counted so many slots, every process has been added and freed, and exactly
the instructions of its program have been executed for it, whatever the interleaving was. -/
theorem executed_by_deadline {tr : List (SysLabel c.numCpus)} {s : System c.numCpus}
    (h : (sysLts c .call).Run tr s) (hn : 0 < c.numCpus) (htime : c.deadline < s.timer.time) :
    ∀ p < c.numProcesses, (∃ time, .ld time (.add p) ∈ osTrace tr) ∧ s.os.freed p = true ∧
      executed p (osTrace tr) = c.code p := by
  have hdone : AllFreed c s := by
    refine Deadline.Slots.done_of_run (S := slots c hn) (fun tr s => reached_of_run)
      (fun s => s.os.work c) (fun s l s' hs hst => work_sysStep hs hst) ?_ h htime
    rintro s rfl
    exact (work_init c).le
  intro p hp
  have hos := osRun_of_run h
  have hinv := inv_of_run hos
  have hfreed := hdone.2 p hp
  obtain ⟨hadded, hend⟩ := hinv.freed p hfreed
  have hcode := hinv.code_eq p (hadded.trans_le (s.os.ld.added_le_loaded c))
  refine ⟨((history_of_run hos).added p).mp hadded, hfreed, ?_⟩
  rw [(history_of_run hos).executed, hend, List.take_length, hcode]

/-- A process starts late, and after it a CPU finds no work for thirteen slots. -/
theorem executed_lateProcess :
    (sysLts .lateProcess .call).Run (lateProcess 300).1 (lateProcess 300).2 ∧
    Config.lateProcess.deadline < (lateProcess 300).2.timer.time ∧
    ∀ p < 3, (∃ time, .ld time (.add p) ∈ osTrace (lateProcess 300).1) ∧
      (lateProcess 300).2.os.freed p = true ∧
      executed p (osTrace (lateProcess 300).1) = Config.lateProcess.code p := by
  have hrun := run_lateProcess 300
  have htime : Config.lateProcess.deadline < (lateProcess 300).2.timer.time := by decide +kernel
  exact ⟨hrun, htime, executed_by_deadline (c := .lateProcess) hrun (by decide) htime⟩

end OsSim.Sched
