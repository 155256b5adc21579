import OsSim.Lib.Circulation
import OsSim.Sched.Threads

/-!
# Processes circulate between ready queues and CPUs

A process is a token: it enters the queue of its priority when the loader adds
it, a CPU takes it from there, gives it back when its time slice is over, and
lets it leave when it has finished. Every run of the threads, with any
interleaving, is a run of that circulation, so a process is at one place only and
whatever a CPU does with the process that it holds, no other CPU does.

Results:
* `Inv.exec`, `inv_of_run`: the invariant of the threads.
* `circulationRun_of_run`: runs of the threads are runs of `Circulation.lts`.
* `dispatched_of_run`: no process is lost, duplicated or run twice.
-/

namespace OsSim.Sched

/-! ## Processes as tokens -/

/-- The process that a CPU holds. In `get_proc` it holds none: the old value of `proc` has been
put back or freed. -/
def CpuLoc.proc : CpuLoc → Option ℕ
  | .top o => o
  | .getting _ _ => none
  | .recheck o => o
  | .run p => some p
  | .slot o => o
  | .inSlot o => o
  | .stopped => none
  | .exited => none

@[simp] theorem GetSite.proc_next (b : GetSite) (o : Option ℕ) : (b.next o).proc = o := by
  unfold GetSite.next
  split
  · rename_i h
    rw [h.2]
    rfl
  · rfl

/-- How many processes have been added. -/
def LdLoc.added (c : Config) : LdLoc → ℕ
  | .loop i | .test i | .add i | .slot _ i | .inSlot _ i => i
  | .finish | .detach | .exited => c.numProcesses

/-- How many processes have been loaded: the one that is not added yet is loaded already. -/
def LdLoc.loaded (c : Config) : LdLoc → ℕ
  | .loop i | .slot .added i | .inSlot .added i => i
  | .test i | .add i | .slot .early i | .inSlot .early i => i + 1
  | .finish | .detach | .exited => c.numProcesses

variable {n : ℕ}

/-- The queues and the CPUs as a circulation. -/
def State.circulation (c : Config) (s : State n) : Circulation.State ℕ ℕ (Fin n) where
  queue := s.mlq.ready
  held k := (s.cpu k).loc.proc
  stage p :=
    if s.ld.added c ≤ p then .outside else if s.freed p = true then .gone else .inside

/-- The step of the circulation that a step of a thread is. -/
def Label.circulation : Label n → Option (Circulation.Event ℕ (Fin n))
  | .cpu k (.free p) => some (.leave k p)
  | .cpu k (.put p) => some (.give k p)
  | .cpu k (.get (some p)) => some (.take k p)
  | .ld _ (.add p) => some (.enter p)
  | _ => none

variable {c : Config} {g : Grain} {s s' : State n}

theorem circulation_setCpu (s : State n) (k : Fin n) (loc : CpuLoc) (t : ℤ) :
    (s.setCpu k loc t).circulation c = (s.circulation c).setHeld k loc.proc := by
  unfold State.circulation Circulation.State.setHeld
  congr 1
  funext k'
  by_cases hk : k' = k
  · subst hk
    simp [State.setCpu]
  · simp [State.setCpu, Function.update_of_ne hk]

/-- A CPU that moves on with the process that it has. -/
theorem circulation_setCpu_eq (s : State n) {k : Fin n} {loc : CpuLoc} (t : ℤ)
    (h : loc.proc = (s.cpu k).loc.proc) : (s.setCpu k loc t).circulation c = s.circulation c := by
  rw [circulation_setCpu, h]
  unfold Circulation.State.setHeld
  have : Function.update (s.circulation c).held k (s.cpu k).loc.proc = (s.circulation c).held :=
    Function.update_eq_self k (s.circulation c).held
  rw [this]

/-! ## The invariant -/

/-- The invariant of the threads. -/
structure Inv (c : Config) (s : State n) : Prop where
  loaded_le : s.ld.loaded c ≤ c.numProcesses
  code_eq : ∀ p < s.ld.loaded c, (s.pcb p).code = c.code p
  prio_eq : ∀ p < s.ld.loaded c, (s.pcb p).prio = c.prio p
  /-- Nothing has been executed of a process before it is loaded. -/
  pc_eq : ∀ p, s.ld.loaded c ≤ p → s.pcb p = {}
  freed : ∀ p, s.freed p = true → p < s.ld.added c ∧ (s.pcb p).pc = (s.pcb p).code.length
  places : Circulation.Exclusive c.prio (s.circulation c)

theorem LdLoc.added_le_loaded (c : Config) (l : LdLoc) : l.added c ≤ l.loaded c := by
  cases l with
  | slot b i => cases b <;> simp [added, loaded]
  | inSlot b i => cases b <;> simp [added, loaded]
  | _ => simp [added, loaded]

theorem inside_iff {p : ℕ} : (s.circulation c).stage p = .inside ↔
    p < s.ld.added c ∧ s.freed p = false := by
  simp only [State.circulation]
  split
  · simp
    omega
  · split
    · simp [*]
    · simp_all

/-- A process that a CPU holds has been added and has not finished. -/
theorem Inv.of_held (h : Inv c s) {k : Fin n} {p : ℕ} (hk : (s.cpu k).loc.proc = some p) :
    p < s.ld.added c ∧ s.freed p = false :=
  inside_iff.mp (h.places.held k p hk)

/-- Every step of a thread is a step of the circulation, or moves no process. -/
theorem Inv.circulation_step (h : Inv c s) {e : Label n} (hst : s.exec c g e = some s') :
    (∃ b, e.circulation = some b ∧
      Circulation.Step c.prio (s.circulation c) b (s'.circulation c)) ∨
      (e.circulation = none ∧ s'.circulation c = s.circulation c) := by
  obtain ⟨k, a, rfl, hmove⟩ | ⟨time, a, rfl, hmove⟩ := moves_of_exec hst
  · cases hmove with
    | idle hl => exact .inr ⟨rfl, circulation_setCpu_eq s _ (by rw [hl]; rfl)⟩
    | free p hl hpc =>
      have hk : (s.cpu k).loc.proc = some p := by rw [hl]; rfl
      have hp := h.of_held hk
      refine .inl ⟨_, rfl, ?_⟩
      rw [circulation_setCpu]
      have hstage : ({ s with freed := Function.update s.freed p true } : State n).circulation c
          = (s.circulation c).setStage p .gone := by
        unfold State.circulation Circulation.State.setStage
        congr 1
        funext q
        by_cases hq : q = p
        · subst hq
          simp [Nat.not_le.mpr hp.1]
        · simp [Function.update_of_ne hq]
      rw [hstage]
      exact .leave k p hk
    | put p mlq hl hpc ht hput =>
      have hk : (s.cpu k).loc.proc = some p := by rw [hl]; rfl
      have hprio : (s.pcb p).prio = c.prio p :=
        h.prio_eq p (Nat.lt_of_lt_of_le (h.of_held hk).1 (LdLoc.added_le_loaded c s.ld))
      refine .inl ⟨_, rfl, ?_⟩
      rw [circulation_setCpu]
      have hqueue : ({ s with mlq := mlq } : State n).circulation c
          = (s.circulation c).put (c.prio p) p := by
        unfold State.circulation Circulation.State.put
        simp only [(enqueueMlq_ok hput).2, hprio]
      rw [hqueue]
      exact .give k p hk
    | keep p hl hpc ht => exact .inr ⟨rfl, circulation_setCpu_eq s _ (by rw [hl]; rfl)⟩
    | scan b l l' mlq hl hget =>
      have hready : mlq.ready = s.mlq.ready := Grain.get_spec hget
      refine .inr ⟨rfl, ?_⟩
      rw [circulation_setCpu_eq _ _ (by rw [hl]; rfl)]
      simp only [State.circulation, hready]
    | get b l o mlq hl hget =>
      have hspec := Grain.get_spec hget
      cases o with
      | none =>
        have hready : mlq.ready = s.mlq.ready := hspec
        refine .inr ⟨rfl, ?_⟩
        rw [circulation_setCpu_eq _ _ (by rw [hl, GetSite.proc_next]; rfl)]
        simp only [State.circulation, hready]
      | some p =>
        obtain ⟨i, rest, hi, hready⟩ := hspec
        refine .inl ⟨_, rfl, ?_⟩
        rw [circulation_setCpu, GetSite.proc_next]
        have hqueue : ({ s with mlq := mlq } : State n).circulation c
            = { s.circulation c with queue := Function.update (s.circulation c).queue i rest } := by
          simp only [State.circulation, hready]
        rw [hqueue]
        exact .take k i p rest (by simp only [State.circulation, hl]; rfl) hi
    | stop hl hdone => exact .inr ⟨rfl, circulation_setCpu_eq s _ (by rw [hl]; rfl)⟩
    | skip hl hdone => exact .inr ⟨rfl, circulation_setCpu_eq s _ (by rw [hl]; rfl)⟩
    | dispatch p hl => exact .inr ⟨rfl, circulation_setCpu_eq s _ (by rw [hl]; rfl)⟩
    | run p hl =>
      refine .inr ⟨rfl, ?_⟩
      rw [circulation_setCpu_eq _ _ (by rw [hl]; rfl)]
      rfl
    | nextSlot o hl => exact .inr ⟨rfl, circulation_setCpu_eq s _ (by rw [hl]; rfl)⟩
    | ret o hl => exact .inr ⟨rfl, circulation_setCpu_eq s _ (by rw [hl]; rfl)⟩
    | detach hl => exact .inr ⟨rfl, circulation_setCpu_eq s _ (by rw [hl]; rfl)⟩
  · cases hmove with
    | add i mlq hl hadd =>
      have hprio : (s.pcb i).prio = c.prio i := h.prio_eq i (by simp [hl, LdLoc.loaded])
      have hadded : s.ld.added c = i := by rw [hl]; rfl
      have hfreed : ∀ q, i ≤ q → s.freed q = false := by
        intro q hq
        rw [← Bool.not_eq_true]
        intro hf
        have := (h.freed q hf).1
        omega
      refine .inl ⟨_, rfl, ?_⟩
      have heq : ({ s with mlq := mlq, ld := .slot .added (i + 1) } : State n).circulation c
          = ((s.circulation c).put (c.prio i) i).setStage i .inside := by
        unfold State.circulation Circulation.State.setStage Circulation.State.put
        congr 1
        · simp only [(enqueueMlq_ok hadd).2, hprio]
        · funext q
          by_cases hq : q = i
          · subst hq
            simp [LdLoc.added, hfreed q (Nat.le_refl q)]
          · rw [Function.update_of_ne hq]
            simp only [LdLoc.added, hl]
            congr 1
            rw [eq_iff_iff]
            omega
      rw [heq]
      refine .enter i ?_
      simp [State.circulation, hadded]
    | leave i hl hi =>
      refine .inr ⟨rfl, ?_⟩
      have hle := h.loaded_le
      rw [hl] at hle
      have heq : i = c.numProcesses := Nat.le_antisymm hle hi
      unfold State.circulation
      rw [hl, heq]
      rfl
    | load i hl hi =>
      refine .inr ⟨rfl, ?_⟩
      unfold State.circulation
      rw [hl]
      rfl
    | early i hl hi | ready i hl hi | nextSlot b i hl | retEarly i hl | retAdded i hl =>
      refine .inr ⟨rfl, ?_⟩
      unfold State.circulation
      rw [hl]
      rfl
    | finish hl | detach hl =>
      refine .inr ⟨rfl, ?_⟩
      unfold State.circulation
      rw [hl]
      rfl

/-- A step that leaves the processes alone, and adds none before it is loaded. -/
theorem Inv.congr (h : Inv c s) (hpcb : s'.pcb = s.pcb) (hfreed : s'.freed = s.freed)
    (hloaded : s'.ld.loaded c = s.ld.loaded c) (hadded : s.ld.added c ≤ s'.ld.added c)
    (hplaces : Circulation.Exclusive c.prio (s'.circulation c)) : Inv c s' where
  loaded_le := by rw [hloaded]; exact h.loaded_le
  code_eq := by rw [hloaded, hpcb]; exact h.code_eq
  prio_eq := by rw [hloaded, hpcb]; exact h.prio_eq
  pc_eq := by rw [hloaded, hpcb]; exact h.pc_eq
  freed := by
    intro p hp
    rw [hfreed] at hp
    rw [hpcb]
    exact ⟨Nat.lt_of_lt_of_le (h.freed p hp).1 hadded, (h.freed p hp).2⟩
  places := hplaces

theorem runPcb_code (p : Pcb) :
    (State.runPcb p).2.code = p.code ∧ (State.runPcb p).2.prio = p.prio := by
  unfold State.runPcb
  split
  · exact ⟨rfl, rfl⟩
  · exact ⟨rfl, rfl⟩

theorem Inv.exec (h : Inv c s) {e : Label n} (hst : s.exec c g e = some s') : Inv c s' := by
  have hplaces : Circulation.Exclusive c.prio (s'.circulation c) := by
    rcases h.circulation_step hst with ⟨b, _, hb⟩ | ⟨_, heq⟩
    · exact h.places.step hb
    · rw [heq]
      exact h.places
  obtain ⟨k, a, rfl, hmove⟩ | ⟨time, a, rfl, hmove⟩ := moves_of_exec hst
  · cases hmove with
    | free p hl hpc =>
      have hp := h.of_held (show (s.cpu k).loc.proc = some p by rw [hl]; rfl)
      refine ⟨h.loaded_le, h.code_eq, h.prio_eq, h.pc_eq, ?_, hplaces⟩
      intro q hq
      by_cases hqp : q = p
      · subst hqp
        exact ⟨hp.1, hpc⟩
      · refine h.freed q ?_
        rw [← hq]
        exact (Function.update_of_ne hqp _ _).symm
    | run p hl =>
      have hp := h.of_held (show (s.cpu k).loc.proc = some p by rw [hl]; rfl)
      have hlt := Nat.lt_of_lt_of_le hp.1 (LdLoc.added_le_loaded c s.ld)
      have hcode := runPcb_code (s.pcb p)
      have hself : ∀ q, q ≠ p → Function.update s.pcb p (State.runPcb (s.pcb p)).2 q = s.pcb q :=
        fun q hq => Function.update_of_ne hq _ _
      refine ⟨h.loaded_le, ?_, ?_, ?_, ?_, hplaces⟩
      · intro q hq
        by_cases hqp : q = p
        · subst hqp
          simpa [State.setCpu, hcode.1] using h.code_eq q hq
        · simpa only [State.setCpu, hself q hqp] using h.code_eq q hq
      · intro q hq
        by_cases hqp : q = p
        · subst hqp
          simpa [State.setCpu, hcode.2] using h.prio_eq q hq
        · simpa only [State.setCpu, hself q hqp] using h.prio_eq q hq
      · intro q hq
        have hqp : q ≠ p := by
          rintro rfl
          exact absurd hlt (Nat.not_lt.mpr hq)
        simpa only [State.setCpu, hself q hqp] using h.pc_eq q hq
      · intro q hq
        have hfreed : s.freed q = true := hq
        have hqp : q ≠ p := by
          rintro rfl
          rw [hp.2] at hfreed
          cases hfreed
        simpa only [State.setCpu, hself q hqp] using h.freed q hfreed
    | _ => exact h.congr rfl rfl rfl (Nat.le_refl _) hplaces
  · cases hmove with
    | load i hl hi =>
      have hself : ∀ q, q ≠ i →
          Function.update s.pcb i { code := c.code i, pc := 0, prio := c.prio i } q = s.pcb q :=
        fun q hq => Function.update_of_ne hq _ _
      have hloaded : s.ld.loaded c = i := by rw [hl]; rfl
      refine ⟨hi, ?_, ?_, ?_, ?_, hplaces⟩
      · intro q hq
        by_cases hqi : q = i
        · simp [hqi]
        · have hlt : q < s.ld.loaded c := by
            simp only [LdLoc.loaded] at hq
            omega
          simpa only [hself q hqi] using h.code_eq q hlt
      · intro q hq
        by_cases hqi : q = i
        · simp [hqi]
        · have hlt : q < s.ld.loaded c := by
            simp only [LdLoc.loaded] at hq
            omega
          simpa only [hself q hqi] using h.prio_eq q hlt
      · intro q hq
        simp only [LdLoc.loaded] at hq
        have hqi : q ≠ i := by omega
        simpa only [hself q hqi] using h.pc_eq q (by omega)
      · intro q hq
        have hf := h.freed q hq
        rw [hl] at hf
        have hqi : q ≠ i := by
          rintro rfl
          exact absurd hf.1 (Nat.lt_irrefl q)
        refine ⟨hf.1, ?_⟩
        simpa only [hself q hqi] using hf.2
    | leave i hl hi =>
      have hle := h.loaded_le
      rw [hl] at hle
      have heq : i = c.numProcesses := Nat.le_antisymm hle hi
      refine h.congr rfl rfl ?_ ?_ hplaces
      · rw [hl, heq]
        rfl
      · rw [hl, heq]
        exact Nat.le_refl _
    | add i mlq hl hadd =>
      refine h.congr rfl rfl ?_ ?_ hplaces
      · rw [hl]
        rfl
      · rw [hl]
        exact Nat.le_succ i
    | nextSlot b i hl =>
      refine h.congr rfl rfl ?_ ?_ hplaces
      all_goals
        rw [hl]
        cases b
      all_goals rfl
    | early i hl hi | ready i hl hi | retEarly i hl | retAdded i hl | finish hl | detach hl =>
      refine h.congr rfl rfl ?_ ?_ hplaces
      all_goals rw [hl]
      all_goals rfl

theorem inv_init (c : Config) : Inv c (State.init c.numCpus) where
  loaded_le := Nat.zero_le _
  code_eq _ hp := absurd hp (Nat.not_lt_zero _)
  prio_eq _ hp := absurd hp (Nat.not_lt_zero _)
  pc_eq _ _ := rfl
  freed _ hp := absurd hp (by simp [State.init])
  places := by
    have heq : (State.init c.numCpus).circulation c
        = { queue := fun _ => [], held := fun _ => none, stage := fun _ => .outside } := by
      unfold State.circulation
      congr 1
    rw [heq]
    exact Circulation.exclusive_init

theorem inv_of_run {tr : List (Label c.numCpus)} {s : State c.numCpus}
    (h : (osLts c g).Run tr s) : Inv c s := by
  refine h.invariant ?_ ?_
  · rintro s rfl
    exact inv_init c
  · intro s e s' hs hst
    exact hs.exec hst

/-! ## Runs -/

/-- The threads, seen as a circulation of processes. -/
def circulationProjection (c : Config) (g : Grain) :
    Lts.Projection ((osLts c g).guard fun s _ _ => Inv c s)
      (Circulation.lts (Fin c.numCpus) c.prio) where
  state := State.circulation c
  label := Label.circulation
  init s hs := by
    rw [show s = State.init c.numCpus from hs]
    show (State.init c.numCpus).circulation c = _
    unfold State.circulation
    congr 1
  step s e s' hst := hst.2.circulation_step hst.1

/-- Every run of the threads is a run of the circulation. -/
theorem circulationRun_of_run {tr : List (Label c.numCpus)} {s : State c.numCpus}
    (h : (osLts c g).Run tr s) :
    (Circulation.lts (Fin c.numCpus) c.prio).Run (tr.filterMap Label.circulation)
      (s.circulation c) := by
  apply (circulationProjection c g).run
  apply h.guard_of_invariant
  · rintro s rfl
    exact inv_init c
  · intro s e s' hs hst
    exact hs.exec hst

/-- The instructions that have been executed for process `p`, in order, on whatever CPU. -/
def executed (p : ℕ) (tr : List (Label n)) : List Mem.Inst :=
  tr.filterMap fun
    | .cpu _ (.run p' ins) => if p' = p then ins else none
    | _ => none

/-- The processes that have been put on the queue of priority `i`, in order. -/
def puts (c : Config) (i : ℕ) (tr : List (Label n)) : List ℕ :=
  tr.filterMap fun
    | .cpu _ (.put p) => if c.prio p = i then some p else none
    | .ld _ (.add p) => if c.prio p = i then some p else none
    | _ => none

/-- The processes of priority `i` that have been dispatched, in order. -/
def dispatches (c : Config) (i : ℕ) (tr : List (Label n)) : List ℕ :=
  tr.filterMap fun
    | .cpu _ (.get (some p)) => if c.prio p = i then some p else none
    | _ => none

theorem puts_circulation (i : ℕ) (tr : List (Label n)) :
    Circulation.puts c.prio i (tr.filterMap Label.circulation) = puts c i tr := by
  unfold Circulation.puts puts
  rw [List.filterMap_filterMap]
  congr 1
  funext e
  cases e with
  | cpu k a =>
    cases a with
    | get o => cases o <;> rfl
    | _ => rfl
  | ld time a => cases a <;> rfl

theorem takes_circulation (i : ℕ) (tr : List (Label n)) :
    Circulation.takes c.prio i (tr.filterMap Label.circulation) = dispatches c i tr := by
  unfold Circulation.takes dispatches
  rw [List.filterMap_filterMap]
  congr 1
  funext e
  cases e with
  | cpu k a =>
    cases a with
    | get o => cases o <;> rfl
    | _ => rfl
  | ld time a => cases a <;> rfl

/-- What the labels so far say about each process. -/
structure History (c : Config) (tr : List (Label n)) (s : State n) : Prop where
  added : ∀ p, p < s.ld.added c ↔ ∃ time, .ld time (.add p) ∈ tr
  freed : ∀ p, s.freed p = true ↔ ∃ k, .cpu k (.free p) ∈ tr
  executed : ∀ p, executed p tr = (s.pcb p).code.take (s.pcb p).pc
  pc_le : ∀ p, (s.pcb p).pc ≤ (s.pcb p).code.length

section

variable {tr : List (Label n)} {e : Label n}

theorem added_snoc (he : ∀ time p, e ≠ .ld time (.add p)) (p : ℕ) :
    (∃ time, .ld time (.add p) ∈ tr ++ [e]) ↔ ∃ time, .ld time (.add p) ∈ tr := by
  simp [Ne.symm (he _ _)]

theorem freed_snoc (he : ∀ k p, e ≠ .cpu k (.free p)) (p : ℕ) :
    (∃ k, .cpu k (.free p) ∈ tr ++ [e]) ↔ ∃ k, .cpu k (.free p) ∈ tr := by
  simp [Ne.symm (he _ _)]

theorem executed_snoc_of_ne (he : ∀ k p ins, e ≠ .cpu k (.run p ins)) (p : ℕ) :
    executed p (tr ++ [e]) = executed p tr := by
  unfold executed
  rw [List.filterMap_append]
  cases e with
  | cpu k a =>
    cases a with
    | run p' ins => exact absurd rfl (he k p' ins)
    | _ => simp
  | ld time a => simp

theorem executed_snoc (p : ℕ) (k : Fin n) (p' : ℕ) (ins : Option Mem.Inst) :
    executed p (tr ++ [.cpu k (.run p' ins)]) =
      executed p tr ++ if p' = p then ins.toList else [] := by
  unfold executed
  rw [List.filterMap_append]
  congr 1
  by_cases hp : p' = p
  · cases ins <;> simp [hp]
  · simp [hp]

/-- `run` executes the instruction at `pc`, if there is one. -/
theorem runPcb_take (p : Pcb) (h : p.pc ≤ p.code.length) :
    (State.runPcb p).2.code.take (State.runPcb p).2.pc
      = p.code.take p.pc ++ (State.runPcb p).1.toList ∧
    (State.runPcb p).2.pc ≤ (State.runPcb p).2.code.length := by
  unfold State.runPcb
  cases hins : p.code[p.pc]? with
  | none => exact ⟨by simp, h⟩
  | some ins =>
    obtain ⟨hlt, -⟩ := List.getElem?_eq_some_iff.mp hins
    refine ⟨?_, hlt⟩
    simp [List.take_add_one, hins]

/-- A step that adds, frees and runs no process. -/
theorem History.congr (h : History c tr s) (hadd : ∀ time p, e ≠ .ld time (.add p))
    (hfree : ∀ k p, e ≠ .cpu k (.free p)) (hrun : ∀ k p ins, e ≠ .cpu k (.run p ins))
    (hadded : s'.ld.added c = s.ld.added c) (hfreed : s'.freed = s.freed)
    (hpcb : s'.pcb = s.pcb) : History c (tr ++ [e]) s' where
  added p := by rw [hadded, h.added, added_snoc hadd]
  freed p := by rw [hfreed, h.freed, freed_snoc hfree]
  executed p := by rw [hpcb, ← h.executed, executed_snoc_of_ne hrun]
  pc_le := by rw [hpcb]; exact h.pc_le

theorem History.step (h : History c tr s) (hinv : Inv c s)
    (hst : s.exec c g e = some s') : History c (tr ++ [e]) s' := by
  obtain ⟨k, a, rfl, hmove⟩ | ⟨time, a, rfl, hmove⟩ := moves_of_exec hst
  · cases hmove with
    | free p hl hpc =>
      refine ⟨?_, ?_, ?_, h.pc_le⟩
      · intro q
        exact (h.added q).trans (added_snoc (by simp) q).symm
      · intro q
        show Function.update s.freed p true q = true ↔ _
        by_cases hq : q = p
        · subst hq
          simp
        · rw [Function.update_of_ne hq, h.freed]
          simp [hq]
      · intro q
        exact (executed_snoc_of_ne (by simp) q).trans (h.executed q)
    | run p hl =>
      obtain ⟨htake, hle⟩ := runPcb_take (s.pcb p) (h.pc_le p)
      refine ⟨?_, ?_, ?_, ?_⟩
      · intro q
        exact (h.added q).trans (added_snoc (by simp) q).symm
      · intro q
        exact (h.freed q).trans (freed_snoc (by simp) q).symm
      · intro q
        rw [executed_snoc, h.executed]
        show _ = (Function.update s.pcb p (State.runPcb (s.pcb p)).2 q).code.take
          (Function.update s.pcb p (State.runPcb (s.pcb p)).2 q).pc
        by_cases hq : q = p
        · subst hq
          rw [Function.update_self, htake, if_pos rfl]
        · rw [Function.update_of_ne hq, if_neg (Ne.symm hq), List.append_nil]
      · intro q
        show (Function.update s.pcb p (State.runPcb (s.pcb p)).2 q).pc ≤
          (Function.update s.pcb p (State.runPcb (s.pcb p)).2 q).code.length
        by_cases hq : q = p
        · subst hq
          rwa [Function.update_self]
        · rw [Function.update_of_ne hq]
          exact h.pc_le q
    | _ => exact h.congr nofun nofun nofun rfl rfl rfl
  · cases hmove with
    | load i hl hi =>
      have hempty : s.pcb i = {} := hinv.pc_eq i (by rw [hl]; exact Nat.le_refl i)
      refine ⟨?_, ?_, ?_, ?_⟩
      · intro q
        have hq := h.added q
        rw [hl] at hq
        exact hq.trans (added_snoc (by simp) q).symm
      · intro q
        exact (h.freed q).trans (freed_snoc (by simp) q).symm
      · intro q
        refine ((executed_snoc_of_ne (by simp) q).trans (h.executed q)).trans ?_
        by_cases hq : q = i
        · subst hq
          simp [hempty]
        · simp [Function.update_of_ne hq]
      · intro q
        by_cases hq : q = i
        · simp [hq]
        · simpa [Function.update_of_ne hq] using h.pc_le q
    | add i mlq hl hadd =>
      refine ⟨?_, ?_, ?_, h.pc_le⟩
      · intro q
        have hq := h.added q
        rw [hl] at hq
        show q < i + 1 ↔ _
        rw [Nat.lt_succ_iff_lt_or_eq, show q < i ↔ _ from hq]
        by_cases heq : q = i
        · simp [heq]
        · simp [heq]
      · intro q
        exact (h.freed q).trans (freed_snoc (by simp) q).symm
      · intro q
        exact (executed_snoc_of_ne (by simp) q).trans (h.executed q)
    | leave i hl hi =>
      have hle := hinv.loaded_le
      rw [hl] at hle
      have heq : i = c.numProcesses := Nat.le_antisymm hle hi
      refine h.congr nofun nofun nofun ?_ rfl rfl
      rw [hl, heq]
      rfl
    | early i hl hi | ready i hl hi | nextSlot b i hl | retEarly i hl | retAdded i hl | finish hl
    | detach hl =>
      refine h.congr nofun nofun nofun ?_ rfl rfl
      rw [hl]
      rfl

end

theorem history_of_run {tr : List (Label c.numCpus)} {s : State c.numCpus}
    (h : (osLts c g).Run tr s) : History c tr s := by
  refine (h.history (I := fun tr s => Inv c s ∧ History c tr s) ?_ ?_).2
  · rintro s rfl
    refine ⟨inv_init c, ?_, ?_, ?_, ?_⟩
    · simp [State.init, LdLoc.added]
    · simp [State.init]
    · simp [State.init, executed]
    · simp [State.init]
  · rintro tr s e s' ⟨hinv, hh⟩ hst
    exact ⟨hinv.exec hst, hh.step hinv hst⟩

/-- No process is lost, duplicated or run twice, after the steps `tr`. -/
structure Dispatched (c : Config) (tr : List (Label n)) (s : State n) : Prop where
  /-- A process that has been added and has not finished is in the queue of its priority, once,
  and on no CPU; or on one CPU, and in no queue. -/
  place : ∀ p, (∃ time, .ld time (.add p) ∈ tr) → (∀ k, .cpu k (.free p) ∉ tr) →
    ((s.mlq.ready (c.prio p)).count p = 1 ∧ (∀ i ≠ c.prio p, p ∉ s.mlq.ready i) ∧
      ∀ k, (s.cpu k).loc.proc ≠ some p) ∨
    (∀ i, p ∉ s.mlq.ready i) ∧ ∃! k, (s.cpu k).loc.proc = some p
  /-- The processes put on a queue are those dispatched from it, followed by those in it. -/
  fifo : ∀ i, puts c i tr = dispatches c i tr ++ s.mlq.ready i
  /-- The instructions executed for a process are the first `pc` of its program. -/
  executed : ∀ p, (∃ time, .ld time (.add p) ∈ tr) →
    (s.pcb p).pc ≤ (c.code p).length ∧ executed p tr = (c.code p).take (s.pcb p).pc

/-- In every interleaving of any number of CPUs and the loader, no process is lost, duplicated or
run twice. -/
theorem dispatched_of_run {tr : List (Label c.numCpus)} {s : State c.numCpus}
    (h : (osLts c g).Run tr s) : Dispatched c tr s where
  place p hadd hfree := by
    have hh := history_of_run h
    have hin : (s.circulation c).stage p = .inside := by
      rw [inside_iff]
      refine ⟨(hh.added p).mpr hadd, ?_⟩
      rw [← Bool.not_eq_true, hh.freed]
      rintro ⟨k, hk⟩
      exact hfree k hk
    exact (inv_of_run h).places.place hin
  fifo i := by
    have hputs := Circulation.puts_eq (circulationRun_of_run h) i
    rwa [puts_circulation, takes_circulation] at hputs
  executed p hadd := by
    have hh := history_of_run h
    have hlt := Nat.lt_of_lt_of_le ((hh.added p).mpr hadd) (LdLoc.added_le_loaded c s.ld)
    have hcode := (inv_of_run h).code_eq p hlt
    rw [← hcode]
    exact ⟨hh.pc_le p, hh.executed p⟩

/-- Two CPUs and one process of one instruction. -/
def Config.twoCpus : Config where
  timeSlot := 2
  numCpus := 2
  ldProcesses := [⟨[{ opcode := .CALC }], 0, 0⟩]

/-- The CPUs `k` and `k'` find the process in its queue, and one of them takes it. -/
def race {n : ℕ} (k k' : Fin n) : List (Label n) :=
  [.ld 0 .step, .ld 0 .step, .ld 0 (.add 0), .cpu k .step, .cpu k .step, .cpu k .step, .cpu k .step,
    .cpu k' .step, .cpu k' .step, .cpu k' .step, .cpu k' .step, .cpu k' .step, .cpu k .step,
    .cpu k (.get (some 0)), .cpu k' (.get none), .cpu k .step,
    .cpu k (.run 0 (some { opcode := .CALC }))]

theorem dispatched_race : ∃ s, (osLts .twoCpus .access).Run (race (n := 2) 0 1) s ∧
    (s.pcb 0).pc = 1 ∧ Dispatched .twoCpus (race (n := 2) 0 1) s := by
  obtain ⟨s, hrun, htest⟩ := Lts.exists_run_of_execAll (State.init 2)
    (State.exec .twoCpus .access) (race 0 1) (fun s => decide ((s.pcb 0).pc = 1)) (by decide)
  exact ⟨s, hrun, of_decide_eq_true htest, dispatched_of_run hrun⟩

end OsSim.Sched
