import OsSim.Sched.Lockstep

/-!
# Time slices

The loop of `cpu_routine` (`src/os.c`, lines 60–116) as one CPU sees it. All other
threads together are one environment: between two steps of the CPU it may do anything
but touch the process that the CPU holds, so `get_proc` may return any process, with
any number of instructions left. `time_left` is set in one branch of the loop, cleared
in another and carried along in the rest; `SliceTime` says what it is at each position.

Results:
* `cpuPath_of_path`, `cpuRun_of_run`: what the threads do together is such a run of each
  of the CPUs.
* `timeSlices_of_run`: a CPU gives a process the instructions of one time slice, or
  those that the process has left if there are fewer.
-/

namespace OsSim.Sched

variable {n : ℕ}

/-! ## One CPU and its environment -/

/-- A step of the CPU, or anything that the other threads do. -/
inductive Turn
  | own (a : Act)
  | others
  deriving DecidableEq

/-- No process is past its end. -/
def State.PcLe (s : State n) : Prop := ∀ p, (s.pcb p).pc ≤ (s.pcb p).code.length

/-- What the other threads leave alone: where CPU `k` is, and the process that it holds. -/
structure Others (k : Fin n) (s s' : State n) : Prop where
  cpu : s'.cpu k = s.cpu k
  held : ∀ p, (s.cpu k).loc.proc = some p → s'.pcb p = s.pcb p
  pc_le : s'.PcLe

/-- CPU `k` among threads of which nothing else is known. -/
def cpuLts (c : Config) (g : Grain) (k : Fin n) : Lts (State n) Turn where
  init s := s.cpu k = ⟨.top none, 0⟩ ∧ s.PcLe
  step
    | s, .own a, s' => s.cpuStep c g k = some (a, s')
    | s, .others, s' => Others k s s'

namespace Turn

/-- The CPU puts a process back or frees it. -/
def Ends : Turn → Prop
  | .own (.put _) | .own (.free _) => True
  | _ => False

/-- The CPU executes an instruction of `p`. -/
def executes (p : ℕ) : Turn → Bool
  | .own (.run q (some _)) => q == p
  | _ => false

/-- The CPU calls `run`. -/
def runs : Turn → Bool
  | .own (.run _ _) => true
  | _ => false

end Turn

/-! ## `time_left` -/

/-- The value of `time_left` at each position of the loop. -/
def SliceTime (timeSlot : ℤ) : CpuLoc → ℤ → Prop
  | .top (some _), t | .getting .finished _, t | .recheck (some _), t | .slot (some _), t
  | .inSlot (some _), t => 0 ≤ t ∧ t ≤ timeSlot
  | .run _, t => 0 < t ∧ t ≤ timeSlot
  | .top none, t | .getting .idle _, t | .getting .putBack _, t | .recheck none, t | .slot none, t
  | .inSlot none, t | .stopped, t | .exited, t => t = 0

/-- The invariant of one CPU. -/
structure SliceInv (c : Config) (k : Fin n) (s : State n) : Prop where
  time : SliceTime c.timeSlot (s.cpu k).loc (s.cpu k).timeLeft
  pc_le : s.PcLe

section

variable {c : Config} {g : Grain} {k : Fin n} {s s' : State n}

theorem setCpu_self (s : State n) (k : Fin n) (loc : CpuLoc) (t : ℤ) :
    (s.setCpu k loc t).cpu k = ⟨loc, t⟩ := Function.update_self ..

theorem CpuMove.sliceTime {a : Act} (hslot : 1 ≤ c.timeSlot) (hm : CpuMove c g s k a s')
    (h : SliceTime c.timeSlot (s.cpu k).loc (s.cpu k).timeLeft) :
    SliceTime c.timeSlot (s'.cpu k).loc (s'.cpu k).timeLeft := by
  cases hm with
  | idle hl | skip hl | stop hl | detach hl =>
    rw [hl] at h
    rw [setCpu_self]
    exact h
  | free p hl | keep p hl =>
    rw [hl] at h
    rw [setCpu_self]
    exact h
  | put p mlq hl hpc ht =>
    rw [setCpu_self]
    exact ht
  | scan b l l' mlq hl =>
    rw [hl] at h
    rw [setCpu_self]
    cases b <;> exact h
  | get b l o mlq hl =>
    rw [hl] at h
    rw [setCpu_self]
    -- a process that has just been taken finds no time left of the one before
    have h0 : (if b = GetSite.finished then 0 else (s.cpu k).timeLeft) = 0 := by
      cases b with
      | finished => rfl
      | idle => exact h
      | putBack => exact h
    rw [h0]
    cases b <;> cases o <;> simp [GetSite.next, SliceTime] <;> omega
  | dispatch p hl =>
    rw [hl] at h
    rw [setCpu_self]
    simp only [SliceTime] at h ⊢
    split_ifs <;> omega
  | run p hl =>
    rw [hl] at h
    rw [setCpu_self]
    simp only [SliceTime] at h ⊢
    omega
  | nextSlot o hl | ret o hl =>
    rw [hl] at h
    rw [setCpu_self]
    cases o <;> exact h

theorem runPcb_pc_le {p : Pcb} (h : p.pc ≤ p.code.length) :
    (State.runPcb p).2.pc ≤ (State.runPcb p).2.code.length := (runPcb_take p h).2

theorem CpuMove.pcLe {a : Act} (hm : CpuMove c g s k a s') (h : s.PcLe) : s'.PcLe := by
  cases hm with
  | run p hl =>
    intro q
    simp only [State.setCpu, Function.update_apply]
    split_ifs with hq
    · exact runPcb_pc_le (h p)
    · exact h q
  | _ => exact h

theorem SliceInv.step (hslot : 1 ≤ c.timeSlot) {e : Turn} (h : SliceInv c k s)
    (hst : (cpuLts c g k).step s e s') : SliceInv c k s' := by
  cases e with
  | own a =>
    have hm := cpuMove_of_cpuStep hst
    exact ⟨hm.sliceTime hslot h.time, hm.pcLe h.pc_le⟩
  | others =>
    have ho : Others k s s' := hst
    exact ⟨by rw [ho.cpu]; exact h.time, ho.pc_le⟩

theorem sliceInv_of_run (hslot : 1 ≤ c.timeSlot) {tr : List Turn} (h : (cpuLts c g k).Run tr s) :
    SliceInv c k s :=
  h.invariant (fun s h0 => ⟨by rw [h0.1]; exact rfl, h0.2⟩)
    fun _ _ _ hI hst => hI.step hslot hst

/-! ## One dispatch -/

/-- Where a CPU is that has dispatched process `p` with `left` instructions left and has called
`run` `r` times since. -/
def SlicePos (timeSlot : ℤ) (p left r : ℕ) : CpuLoc → ℤ → Prop
  | .recheck (some q), t =>
    q = p ∧ ((r = 0 ∧ t = 0) ∨ (r < left ∧ t ≠ 0 ∧ t + r = timeSlot))
  | .run q, t => q = p ∧ (r = 0 ∨ r < left) ∧ t + r = timeSlot
  | .slot (some q), t | .inSlot (some q), t | .top (some q), t =>
    q = p ∧ 0 < r ∧ (r = 1 ∨ r ≤ left) ∧ t + r = timeSlot
  | _, _ => False

/-- Since its dispatch with `left` instructions left, `run` has been called `r` times for process
`p` and has executed `e` of its instructions. -/
structure InSlice (c : Config) (k : Fin n) (p left r e : ℕ) (s : State n) : Prop where
  pos : SlicePos c.timeSlot p left r (s.cpu k).loc (s.cpu k).timeLeft
  pc : (s.pcb p).pc + left = (s.pcb p).code.length + e
  executed : e = min r left

theorem SlicePos.proc {timeSlot : ℤ} {p left r : ℕ} {loc : CpuLoc} {t : ℤ}
    (h : SlicePos timeSlot p left r loc t) : loc.proc = some p := by
  unfold SlicePos at h
  split at h
  all_goals first | exact absurd h id | (rw [h.1]; rfl)

variable {p left r e : ℕ}

/-- A step other than `run` that goes on with the process. -/
theorem InSlice.move (h : InSlice c k p left r e s) {loc : CpuLoc} {t : ℤ}
    (hpos : SlicePos c.timeSlot p left r loc t) : InSlice c k p left r e (s.setCpu k loc t) :=
  ⟨by rw [setCpu_self]; exact hpos, h.pc, h.executed⟩

/-- `run` executes an instruction exactly when there is one left. -/
theorem runPcb_eq (p : Pcb) :
    (p.pc < p.code.length ∧ (∃ ins, (State.runPcb p).1 = some ins) ∧
      (State.runPcb p).2 = { p with pc := p.pc + 1 }) ∨
    (p.code.length ≤ p.pc ∧ (State.runPcb p).1 = none ∧ (State.runPcb p).2 = p) := by
  unfold State.runPcb
  cases hins : p.code[p.pc]? with
  | none => exact .inr ⟨List.getElem?_eq_none_iff.mp hins, rfl, rfl⟩
  | some ins => exact .inl ⟨(List.getElem?_eq_some_iff.mp hins).1, ⟨ins, rfl⟩, rfl⟩

theorem InSlice.own {a : Act} (hm : CpuMove c g s k a s') (hend : ¬ (Turn.own a).Ends)
    (hinv : SliceInv c k s) (h : InSlice c k p left r e s) :
    InSlice c k p left (r + ((Turn.own a).runs).toNat) (e + ((Turn.own a).executes p).toNat) s' := by
  have hpos := h.pos
  have htime := hinv.time
  have hpc := h.pc
  have hexec := h.executed
  cases hm with
  | free | put => exact absurd trivial hend
  | idle hl | scan b l l' mlq hl | get b l o mlq hl | stop hl | skip hl | detach hl =>
    rw [hl] at hpos
    exact absurd hpos id
  | keep q hl hne ht =>
    rw [hl] at hpos
    obtain ⟨rfl, -, hr, hsum⟩ := hpos
    -- the process is not at its end, so `run` has always found an instruction
    have hlt : r < left := by omega
    exact h.move ⟨rfl, .inr ⟨hlt, ht, hsum⟩⟩
  | dispatch q hl =>
    rw [hl] at hpos
    obtain ⟨rfl, ⟨rfl, ht⟩ | ⟨hr, ht, hsum⟩⟩ := hpos
    · rw [if_pos ht]
      exact h.move ⟨rfl, .inl rfl, by simp⟩
    · rw [if_neg ht]
      exact h.move ⟨rfl, .inr hr, hsum⟩
  | nextSlot o hl | ret o hl =>
    rw [hl] at hpos
    cases o with
    | none => exact absurd hpos id
    | some q => exact h.move hpos
  | run q hl =>
    rw [hl] at hpos htime
    obtain ⟨rfl, hr, hsum⟩ := hpos
    have hs' : ∀ m, SlicePos c.timeSlot q left (r + 1) (.slot (some m)) ((s.cpu k).timeLeft - 1) ↔
        m = q := by
      intro m
      simp only [SlicePos, and_iff_left_iff_imp]
      rintro rfl
      push_cast
      omega
    obtain ⟨hlt, ⟨ins, hins⟩, hpcb⟩ | ⟨hle, hins, hpcb⟩ := runPcb_eq (s.pcb q)
    · refine ⟨by rw [setCpu_self]; exact (hs' q).mpr rfl, ?_, ?_⟩
      · simp [State.setCpu, hpcb, hins, Turn.executes]
        omega
      · simp [hins, Turn.executes, Turn.runs]
        omega
    · refine ⟨by rw [setCpu_self]; exact (hs' q).mpr rfl, ?_, ?_⟩
      · simp [State.setCpu, hpcb, hins, Turn.executes]
        omega
      · simp [hins, Turn.executes, Turn.runs]
        omega

theorem InSlice.others (ho : Others k s s') (h : InSlice c k p left r e s) :
    InSlice c k p left r e s' := by
  have hpcb := ho.held p h.pos.proc
  exact ⟨by rw [ho.cpu]; exact h.pos, by rw [hpcb]; exact h.pc, h.executed⟩

/-- As long as the CPU does not put the process back or free it. -/
theorem inSlice_of_path (hslot : 1 ≤ c.timeSlot) {tr : List Turn}
    (hp : (cpuLts c g k).Path s tr s') (hend : ∀ a ∈ tr, ¬ a.Ends) (hinv : SliceInv c k s)
    (h : InSlice c k p left 0 0 s) :
    SliceInv c k s' ∧
      InSlice c k p left (tr.countP Turn.runs) (tr.countP (Turn.executes p)) s' := by
  induction hp with
  | nil => exact ⟨hinv, h⟩
  | @snoc tr s1 s2 e _ hst ih =>
    obtain ⟨hinv1, h1⟩ := ih fun a ha => hend a (by simp [ha])
    refine ⟨hinv1.step hslot hst, ?_⟩
    rw [List.countP_append, List.countP_append, List.countP_singleton, List.countP_singleton]
    cases e with
    | own a =>
      have hnext := h1.own (cpuMove_of_cpuStep hst) (hend _ (by simp)) hinv1
      have hite : ∀ b : Bool, b.toNat = if b then 1 else 0 := fun b => by cases b <;> rfl
      rwa [hite, hite] at hnext
    | others => exact h1.others hst

theorem inSlice_of_get (h : SliceInv c k s)
    (hst : s.cpuStep c g k = some (.get (some p), s')) :
    InSlice c k p ((s'.pcb p).code.length - (s'.pcb p).pc) 0 0 s' := by
  have hpc := (cpuMove_of_cpuStep hst).pcLe h.pc_le p
  refine ⟨?_, by omega, by omega⟩
  cases cpuMove_of_cpuStep hst with
  | get b l o mlq hl =>
    have htime := h.time
    rw [hl] at htime
    rw [setCpu_self]
    cases b with
    | idle => exact ⟨rfl, .inl ⟨rfl, htime⟩⟩
    | finished => exact ⟨rfl, .inl ⟨rfl, rfl⟩⟩
    | putBack => exact ⟨rfl, .inl ⟨rfl, htime⟩⟩

/-- What ends a slice, and when. -/
theorem InSlice.ends (hinv : SliceInv c k s) (h : InSlice c k p left r e s) {a : Act}
    (hm : CpuMove c g s k a s') (hend : (Turn.own a).Ends) :
    (a = .put p ∨ a = .free p) ∧ (e : ℤ) = min c.timeSlot left := by
  have hpos := h.pos
  have htime := hinv.time
  have hpc := h.pc
  have hexec := h.executed
  have hle := hinv.pc_le p
  cases hm with
  | free q hl hend =>
    rw [hl] at hpos htime
    obtain ⟨rfl, h0, hr, hsum⟩ := hpos
    have ht : 0 ≤ (s.cpu k).timeLeft := htime.1
    exact ⟨.inr rfl, by omega⟩
  | put q mlq hl hne ht =>
    rw [hl] at hpos
    obtain ⟨rfl, h0, hr, hsum⟩ := hpos
    exact ⟨.inl rfl, by omega⟩
  | _ => exact absurd hend id

end

/-! ## Runs -/

/-- The slices of CPU `k`, after the steps `tr`. -/
structure TimeSlices (c : Config) (g : Grain) (k : Fin n) (tr : List Turn) (s : State n) : Prop where
  top : ∀ o, (s.cpu k).loc = .top o → 0 ≤ (s.cpu k).timeLeft ∧ (s.cpu k).timeLeft ≤ c.timeSlot
  idle : ∀ loc ∈ [CpuLoc.top none, .recheck none, .slot none, .inSlot none],
    (s.cpu k).loc = loc → (s.cpu k).timeLeft = 0
  put : ∀ p s', s.cpuStep c g k = some (.put p, s') → (s.pcb p).pc < (s.pcb p).code.length
  free : ∀ p s', s.cpuStep c g k = some (.free p, s') → (s.pcb p).pc = (s.pcb p).code.length
  /-- `run` is called with what is left of a whole slice. -/
  full : ∀ tr0 p, tr = tr0 ++ [.own (.get (some p))] → ∀ tr1 s1, (cpuLts c g k).Path s tr1 s1 →
    (∀ a ∈ tr1, ¬ a.Ends) → ∀ q, (s1.cpu k).loc = .run q →
      q = p ∧ (s1.cpu k).timeLeft = c.timeSlot - tr1.countP Turn.runs
  /-- The process that has been dispatched is put back or freed after this many instructions. -/
  slice : ∀ tr0 p, tr = tr0 ++ [.own (.get (some p))] → ∀ tr1 s1, (cpuLts c g k).Path s tr1 s1 →
    (∀ a ∈ tr1, ¬ a.Ends) → ∀ a s2, s1.cpuStep c g k = some (a, s2) → (Turn.own a).Ends →
      (a = .put p ∨ a = .free p) ∧
        (tr1.countP (Turn.executes p) : ℤ) =
          min c.timeSlot ((s.pcb p).code.length - (s.pcb p).pc : ℕ)

/-- Whatever `get_proc` returns and whatever the other threads do. -/
theorem timeSlices_of_run {c : Config} {g : Grain} {k : Fin n} (hslot : 1 ≤ c.timeSlot)
    {tr : List Turn} {s : State n} (h : (cpuLts c g k).Run tr s) : TimeSlices c g k tr s := by
  have hinv := sliceInv_of_run hslot h
  have htime := hinv.time
  -- a run that ends with a process taken
  have hget : ∀ tr0 p, tr = tr0 ++ [.own (.get (some p))] →
      InSlice c k p ((s.pcb p).code.length - (s.pcb p).pc) 0 0 s := by
    rintro tr0 p rfl
    obtain ⟨s0, h0, hst⟩ := h.of_snoc
    exact inSlice_of_get (sliceInv_of_run hslot h0) hst
  refine ⟨fun o hl => ?_, fun loc hloc hl => ?_, fun p s' hst => ?_, fun p s' hst => ?_,
    fun tr0 p htr tr1 s1 hp hend q hl => ?_, fun tr0 p htr tr1 s1 hp hend a s2 hst ha => ?_⟩
  · rw [hl] at htime
    cases o with
    | none =>
      have h0 : (s.cpu k).timeLeft = 0 := htime
      omega
    | some q => exact htime
  · rw [hl] at htime
    simp only [List.mem_cons, List.not_mem_nil, or_false] at hloc
    obtain rfl | rfl | rfl | rfl := hloc <;> exact htime
  · cases cpuMove_of_cpuStep hst with
    | put _ mlq hl hne => exact lt_of_le_of_ne (hinv.pc_le p) hne
  · cases cpuMove_of_cpuStep hst with
    | free _ hl heq => exact heq
  · obtain ⟨-, h1⟩ := inSlice_of_path hslot hp hend hinv (hget tr0 p htr)
    have hpos := h1.pos
    rw [hl] at hpos
    exact ⟨hpos.1, by have := hpos.2.2; omega⟩
  · obtain ⟨hinv1, h1⟩ := inSlice_of_path hslot hp hend hinv (hget tr0 p htr)
    exact h1.ends hinv1 (cpuMove_of_cpuStep hst) ha

/-! ## The threads together -/

/-- A step of the threads, for CPU `k`. -/
def Label.turn (k : Fin n) : Label n → Turn
  | .cpu k' a => if k' = k then .own a else .others
  | .ld _ _ => .others

theorem pcLe_of_ldMove {c : Config} {s s' : State n} {time : ℕ} {a : LdAct}
    (hm : LdMove c s time a s') (h : s.PcLe) : s'.PcLe := by
  cases hm with
  | load i hl =>
    intro q
    simp only [Function.update_apply]
    split_ifs
    · exact Nat.zero_le _
    · exact h q
  | _ => exact h

/-- Another CPU and the loader leave the process that a CPU holds alone. -/
theorem Inv.others {c : Config} {g : Grain} {s s' : State n} (h : Inv c s) (hle : s.PcLe)
    {k : Fin n} {e : Label n} (he : e.turn k = .others) (hst : s.exec c g e = some s') :
    Others k s s' := by
  obtain ⟨k', a, rfl, hm⟩ | ⟨time, a, rfl, hm⟩ := moves_of_exec hst
  · have hk : k' ≠ k := by
      rintro rfl
      simp [Label.turn] at he
    refine ⟨?_, fun p hp => ?_, hm.pcLe hle⟩
    · cases hm <;> exact Function.update_of_ne hk.symm ..
    · cases hm with
      | run q hl =>
        refine Function.update_of_ne ?_ ..
        rintro rfl
        exact hk (h.places.inj k' k p (by simp only [State.circulation, hl]; rfl) hp)
      | _ => rfl
  · refine ⟨?_, fun p hp => ?_, pcLe_of_ldMove hm hle⟩
    · cases hm <;> rfl
    · cases hm with
      | load i hl =>
        refine Function.update_of_ne ?_ ..
        rintro rfl
        have hadded := (h.of_held hp).1
        rw [hl] at hadded
        exact absurd hadded (lt_irrefl _)
      | _ => rfl

theorem pcLe_of_exec {c : Config} {g : Grain} {s s' : State n} {e : Label n} (h : s.PcLe)
    (hst : s.exec c g e = some s') : s'.PcLe := by
  obtain ⟨_, _, _, hm⟩ | ⟨_, _, _, hm⟩ := moves_of_exec hst
  · exact hm.pcLe h
  · exact pcLe_of_ldMove hm h

theorem turn_of_exec {c : Config} {g : Grain} (k : Fin c.numCpus) {s s' : State c.numCpus}
    {e : Label c.numCpus} (hinv : Inv c s) (hle : s.PcLe) (hst : s.exec c g e = some s') :
    (cpuLts c g k).step s (e.turn k) s' := by
  cases e with
  | cpu k' a =>
    by_cases hk : k' = k
    · subst hk
      rw [show (Label.cpu k' a).turn k' = .own a by simp [Label.turn]]
      exact exec_cpu.mp hst
    · have ho : (Label.cpu k' a).turn k = .others := by simp [Label.turn, hk]
      rw [ho]
      exact hinv.others hle ho hst
  | ld time a => exact hinv.others (e := .ld time a) hle rfl hst

/-- Steps of the threads from a reachable state are steps of each CPU among others of which that
is all it relies on. -/
theorem cpuPath_of_path {c : Config} {g : Grain} (k : Fin c.numCpus) {tr : List (Label c.numCpus)}
    {s s' : State c.numCpus} (hinv : Inv c s) (hle : s.PcLe) (h : (osLts c g).Path s tr s') :
    (cpuLts c g k).Path s (tr.map (Label.turn k)) s' ∧ Inv c s' ∧ s'.PcLe := by
  induction h with
  | nil => exact ⟨.nil, hinv, hle⟩
  | snoc _ hst ih =>
    obtain ⟨hpath, hinv', hle'⟩ := ih
    rw [List.map_append]
    exact ⟨hpath.snoc (turn_of_exec k hinv' hle' hst), hinv'.exec hst, pcLe_of_exec hle' hst⟩

/-- So every run of the threads is a run of each CPU. -/
theorem cpuRun_of_run {c : Config} {g : Grain} (k : Fin c.numCpus) {tr : List (Label c.numCpus)}
    {s : State c.numCpus} (h : (osLts c g).Run tr s) :
    (cpuLts c g k).Run (tr.map (Label.turn k)) s := by
  obtain ⟨s0, rfl, hpath⟩ := h
  have hle : (State.init c.numCpus).PcLe := fun _ => le_rfl
  exact ⟨_, ⟨rfl, hle⟩, (cpuPath_of_path k (inv_init c) hle hpath).1⟩

/-- CPU 0 has put process 0 back and taken process 2, executes an instruction of it in this slot and
one in the next, and puts it back. -/
theorem timeSlices_fiveProcesses : ∃ tr tr1,
    TimeSlices .fiveProcesses .call (0 : Fin 2) (tr ++ [.own (.get (some 2))])
      (fiveProcesses 58).2.os ∧
    (cpuLts .fiveProcesses .call (0 : Fin 2)).Path (fiveProcesses 58).2.os tr1
      (fiveProcessesAfter 58 48).2.os ∧
    tr1.countP (Turn.executes 2) = 2 ∧
    ((fiveProcessesAfter 58 48).2.os.cpuStep .fiveProcesses .call (0 : Fin 2)).map Prod.fst =
      some (.put 2) := by
  obtain ⟨s0, rfl, hos⟩ := osRun_of_run (c := .fiveProcesses) (run_fiveProcesses 58)
  have hle : (State.init 2).PcLe := fun _ => le_rfl
  obtain ⟨hpath, hinv, hle'⟩ :=
    cpuPath_of_path (c := .fiveProcesses) (0 : Fin 2) (inv_init _) hle hos
  have hnext := (cpuPath_of_path (c := .fiveProcesses) (0 : Fin 2) hinv hle'
    (osPath_of_path (c := .fiveProcesses) (path_fiveProcessesAfter 58 48))).1
  have hrun : (cpuLts .fiveProcesses .call (0 : Fin 2)).Run
      ((osTrace (fiveProcesses 58).1).map (Label.turn 0)) (fiveProcesses 58).2.os :=
    ⟨_, ⟨rfl, hle⟩, hpath⟩
  have htaken : (osTrace (fiveProcesses 58).1).map (Label.turn 0) =
      ((osTrace (fiveProcesses 58).1).map (Label.turn 0)).dropLast ++ [.own (.get (some 2))] := by
    decide +kernel
  rw [htaken] at hrun
  exact ⟨_, _, timeSlices_of_run (by decide) hrun, hnext, by decide +kernel, by decide +kernel⟩

end OsSim.Sched
