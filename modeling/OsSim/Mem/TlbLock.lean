import OsSim.Lib.Mutex
import OsSim.Mem.Coherence

/-!
# The TLB lock

The four TLB operations with what they do with `tlb_lock` (`src/cpu-tlb.c`; `SYNCH`,
`TLB_DUMP` and `IODUMP` are defined). A call is logged as the list of its lock
operations and of its accesses to the page table, the TLB and the free lists.

Results:
* `dropLog_tlballocLog` and its siblings: without the log the operations are those
  of the memory system.
* `tlballocLog_disciplined`, `tlbfreeDataLog_disciplined_iff`,
  `tlbreadLog_not_disciplined`, `tlbwriteLog_disciplined_iff`: `tlballoc` keeps the
  lock discipline on all paths, `tlbfree_data` and `tlbwrite` do unless the region id
  is invalid, `tlbread` never does.
* `locked_iff`: this for all four, and mutual exclusion when only calls that keep
  the discipline are made.
-/

namespace OsSim.Mem

open Mutex Mutex.Op

variable {ι : Type*} [DecidableEq ι]

/-! ## The operations with their logs -/

/-- The loop of `tlballoc` (lines 98–127): the log of its turns, with the release when it returns. -/
def tlbCachePagesLog (proc : ι) : (left pgn : ℕ) → System ι → List Op × ℤ × System ι
  | 0, _, s => ([], 0, s)
  | left + 1, pgn, s =>
    match pgGetpage s proc pgn with
    | (ret, frmnum, s) =>
      if ret ≠ 0 then ([touch, unlock], -1, s)
      else if frmnum = -1 then ([touch, unlock], -1, s)
      else
        -- `tlb_cache_write` never fails
        match tlbCachePagesLog proc left (pgn + 1)
          { s with tlb := tlbCacheWrite s.tlb (s.pidInt proc) pgn frmnum } with
        | (log, ret, s) => (touch :: touch :: log, ret, s)

/-- `tlballoc` (lines 49–144). -/
def tlballocLog (s : System ι) (proc : ι) (size regIndex : BitVec 32) (raw : List ℤ) :
    Except Fault (List Op × ℤ × System ι) :=
  match allocRgid s proc (argInt regIndex) (argInt size) raw with
  | .error e => .error e
  | .ok (ret, addr, s) =>
    if ret ≠ 0 then .ok ([lock, touch, unlock], -1, s)
    else
      -- the test of the `TLB_DUMP` block (lines 76–84)
      match getSymrgById (argInt regIndex) with
      | .error e => .error e
      | .ok none => .ok ([lock, touch, unlock], -1, s)
      | .ok (some _) =>
        match tlbCachePagesLog proc (pagingPageAlignszU size / pagingPagesz) (pagingPgn addr) s with
        | (log, ret, s) =>
          if ret ≠ 0 then .ok (lock :: touch :: log, ret, s)
          else .ok (lock :: touch :: (log ++ [unlock]), 0, s)

/-- `tlbfree_data` (lines 151–208): line 162 returns with the lock. -/
def tlbfreeDataLog (s : System ι) (proc : ι) (regIndex : BitVec 32) :
    Except Fault (List Op × ℤ × System ι) :=
  match getSymrgById (argInt regIndex) with
  | .error e => .error e
  | .ok none => .ok ([lock], -1, s)
  | .ok (some r) =>
    let currg := (s.mm proc).symrgtbl r
    let s := { s with
      tlb := tlbFreePages (s.pidInt proc) (regionPages currg) (pagingPgn (i32 currg.rgStart)) s.tlb }
    .ok (lock :: (List.replicate (regionPages currg) touch ++ [touch, unlock]), 0,
      (free s proc r).2)

/-- The accesses that find the frame of page `pgn` in `tlbread` (lines 253–299) and `tlbwrite`
(lines 366–422): the TLB, on a miss the page table, and the TLB again unless the page faults. -/
def tlbFrameLog (s : System ι) (proc : ι) (pgn : ℕ) : List Op :=
  if tlbCacheRead s.tlb (s.pidInt proc) pgn < 0 then
    if (tlbFrame s proc pgn).1.isSome then [touch, touch, touch] else [touch, touch]
  else [touch]

/-- `tlbread` (lines 217–318): nothing takes the lock, and lines 244, 255 and 288 release it. -/
def tlbreadLog (s : System ι) (proc : ι) (source offset : BitVec 32) :
    Except Fault (List Op × ℤ × Option Byte × System ι) :=
  match getSymrgById (argInt source) with
  | .error e => .error e
  | .ok none => .ok ([], -1, none, s)
  | .ok (some r) =>
    let currg := (s.mm proc).symrgtbl r
    if OutOfRange currg offset then .ok ([unlock], -1, none, s)
    else
      let addr := rgAddr currg offset
      let log := tlbFrameLog s proc (pagingPgn addr)
      match tlbFrame s proc (pagingPgn addr) with
      | (none, s) => .ok (log ++ [unlock], -1, none, s)
      | (some frmnum, s) =>
        .ok (log, 0, (memphyRead s.mram (phyaddr frmnum (pagingOffst addr))).2.1, s)

/-- `tlbwrite` (lines 326–437): line 346 returns with the lock. -/
def tlbwriteLog (s : System ι) (proc : ι) (data : Byte) (destination offset : BitVec 32) :
    Except Fault (List Op × ℤ × System ι) :=
  match getSymrgById (argInt destination) with
  | .error e => .error e
  | .ok none => .ok ([lock], -1, s)
  | .ok (some r) =>
    let currg := (s.mm proc).symrgtbl r
    if OutOfRange currg offset then .ok ([lock, unlock], -1, s)
    else
      let addr := rgAddr currg offset
      let log := lock :: tlbFrameLog s proc (pagingPgn addr)
      match tlbFrame s proc (pagingPgn addr) with
      | (none, s) => .ok (log ++ [unlock], -1, s)
      | (some frmnum, s) =>
        .ok (log ++ [unlock], 0, { s with
          mram := (memphyWrite s.mram (phyaddr frmnum (pagingOffst addr)) data).2 })

/-! ## Without the logs -/

/-- The operation without its log. -/
def dropLog {α : Type*} (r : Except Fault (List Op × α)) : Except Fault α := r.map Prod.snd

theorem tlbCachePagesLog_snd (p : ι) (left pgn : ℕ) (s : System ι) :
    (tlbCachePagesLog p left pgn s).2 = tlbCachePages p left pgn s := by
  induction left generalizing pgn s with
  | zero => rfl
  | succ left ih =>
    unfold tlbCachePagesLog tlbCachePages
    simp only
    split_ifs
    · rfl
    · rfl
    · exact ih ..

theorem getSymrgById_of_symrgIndex {rgid : ℤ} {r : Fin pagingMaxSymtblSz}
    (h : symrgIndex rgid = .ok r) : getSymrgById rgid = .ok (some r) := by
  unfold symrgIndex at h
  split_ifs at h with hid
  have hlt := hid.2
  unfold pagingMaxSymtblSz at hlt
  rw [getSymrgById, if_neg (by rw [pagingMaxSymtblSz]; omega), dif_pos hid.2]
  rw [← Except.ok.inj h]

/-- Where `__alloc` succeeds, the test of the `TLB_DUMP` block finds the region. -/
theorem getSymrgById_of_allocRgid {s s' : System ι} {p : ι} {rgid size addr : ℤ} {raw : List ℤ}
    (h : allocRgid s p rgid size raw = .ok (0, addr, s')) :
    ∃ r, getSymrgById rgid = .ok (some r) := by
  unfold allocRgid at h
  cases hr : symrgIndex rgid with
  | ok r => exact ⟨r, getSymrgById_of_symrgIndex hr⟩
  | error e =>
    rw [hr] at h
    exact absurd (allocOutside_spec h 0).1 (by decide)

theorem dropLog_tlballocLog (s : System ι) (p : ι) (size regIndex : BitVec 32) (raw : List ℤ) :
    dropLog (tlballocLog s p size regIndex raw) = tlballoc s p size regIndex raw := by
  unfold tlballocLog tlballoc
  cases halloc : allocRgid s p (argInt regIndex) (argInt size) raw with
  | error e => rfl
  | ok res =>
    obtain ⟨ret, addr, s1⟩ := res
    by_cases hret : ret = 0
    · subst hret
      obtain ⟨r, hr⟩ := getSymrgById_of_allocRgid halloc
      have hlog := tlbCachePagesLog_snd p (pagingPageAlignszU size / pagingPagesz)
        (pagingPgn addr) s1
      simp only [hr, ne_eq, not_true_eq_false, if_false]
      split_ifs with hloop
      · simp only [dropLog, Except.map, ← hlog, ← hloop]
      · simp only [dropLog, Except.map, hlog]
    · simp only [ne_eq, hret, not_false_eq_true, if_true]
      rfl

theorem dropLog_tlbfreeDataLog (s : System ι) (p : ι) (regIndex : BitVec 32) :
    dropLog (tlbfreeDataLog s p regIndex) = tlbfreeData s p regIndex := by
  unfold tlbfreeDataLog tlbfreeData
  rcases getSymrgById (argInt regIndex) with e | _ | r
  · rfl
  · rfl
  · rfl

theorem dropLog_tlbreadLog (s : System ι) (p : ι) (source offset : BitVec 32) :
    dropLog (tlbreadLog s p source offset) = tlbread s p source offset := by
  unfold tlbreadLog tlbread
  rcases getSymrgById (argInt source) with e | _ | r
  · rfl
  · rfl
  · simp only
    split_ifs
    · rfl
    · rcases tlbFrame s p (pagingPgn (rgAddr ((s.mm p).symrgtbl r) offset)) with ⟨_ | frmnum, s1⟩
      · rfl
      · rfl

theorem dropLog_tlbwriteLog (s : System ι) (p : ι) (data : Byte) (destination offset : BitVec 32) :
    dropLog (tlbwriteLog s p data destination offset) = tlbwrite s p data destination offset := by
  unfold tlbwriteLog tlbwrite
  rcases getSymrgById (argInt destination) with e | _ | r
  · rfl
  · rfl
  · simp only
    split_ifs
    · rfl
    · rcases tlbFrame s p (pagingPgn (rgAddr ((s.mm p).symrgtbl r) offset)) with ⟨_ | frmnum, s1⟩
      · rfl
      · rfl

/-! ## The discipline of each operation -/

theorem closing_append_unlock {log : List Op} (h : ∀ op ∈ log, op = touch) :
    Closing (log ++ [unlock]) := by
  induction log with
  | nil => rfl
  | cons op log ih =>
    obtain rfl := h op List.mem_cons_self
    exact ih fun op hop => h op (List.mem_cons_of_mem _ hop)

theorem closing_tlbCachePagesLog (p : ι) (left pgn : ℕ) (s : System ι) :
    ((tlbCachePagesLog p left pgn s).2.1 ≠ 0 → Closing (tlbCachePagesLog p left pgn s).1) ∧
      ((tlbCachePagesLog p left pgn s).2.1 = 0 →
        Closing ((tlbCachePagesLog p left pgn s).1 ++ [unlock])) := by
  induction left generalizing pgn s with
  | zero => exact ⟨fun h => absurd rfl h, fun _ => rfl⟩
  | succ left ih =>
    unfold tlbCachePagesLog
    simp only
    split_ifs
    · exact ⟨fun _ => rfl, fun h => absurd (show (-1 : ℤ) = 0 from h) (by decide)⟩
    · exact ⟨fun _ => rfl, fun h => absurd (show (-1 : ℤ) = 0 from h) (by decide)⟩
    · exact ih ..

theorem log_eq {α : Type*} {log log' : List Op} {a a' : α}
    (h : (Except.ok (log, a) : Except Fault (List Op × α)) = .ok (log', a')) : log' = log :=
  (congrArg Prod.fst (Except.ok.inj h)).symm

theorem tlballocLog_disciplined {s : System ι} {p : ι} {size regIndex : BitVec 32} {raw : List ℤ}
    {log : List Op} {r : ℤ × System ι} (h : tlballocLog s p size regIndex raw = .ok (log, r)) :
    Disciplined log := by
  unfold tlballocLog at h
  cases halloc : allocRgid s p (argInt regIndex) (argInt size) raw with
  | error e => simp [halloc] at h
  | ok res =>
    obtain ⟨ret, addr, s1⟩ := res
    simp only [halloc] at h
    by_cases hret : ret = 0
    · subst hret
      obtain ⟨rg, hr⟩ := getSymrgById_of_allocRgid halloc
      have hloop := closing_tlbCachePagesLog p (pagingPageAlignszU size / pagingPagesz)
        (pagingPgn addr) s1
      simp only [hr, ne_eq, not_true_eq_false, if_false] at h
      split_ifs at h with hret'
      · obtain rfl := log_eq h
        exact hloop.2 hret'
      · obtain rfl := log_eq h
        exact hloop.1 hret'
    · simp only [ne_eq, hret, not_false_eq_true, if_true] at h
      obtain rfl := log_eq h
      rfl

theorem tlbfreeDataLog_disciplined_iff {s : System ι} {p : ι} {regIndex : BitVec 32}
    {log : List Op} {r : ℤ × System ι} (h : tlbfreeDataLog s p regIndex = .ok (log, r)) :
    Disciplined log ↔ getSymrgById (argInt regIndex) ≠ .ok none := by
  unfold tlbfreeDataLog at h
  rcases hr : getSymrgById (argInt regIndex) with e | _ | rg
  · simp [hr] at h
  · simp only [hr] at h
    obtain rfl := log_eq h
    exact iff_of_false id (absurd rfl)
  · simp only [hr] at h
    obtain rfl := log_eq h
    refine iff_of_true ?_ (by simp)
    have hlog : Closing ((List.replicate (regionPages ((s.mm p).symrgtbl rg)) touch ++ [touch]) ++
        [unlock]) := by
      refine closing_append_unlock fun op hop => ?_
      obtain hop | hop := List.mem_append.mp hop
      · exact List.eq_of_mem_replicate hop
      · simpa using hop
    show Closing _
    simpa using hlog

theorem touch_of_mem_tlbFrameLog {s : System ι} {p : ι} {pgn : ℕ} {op : Op}
    (h : op ∈ tlbFrameLog s p pgn) : op = touch := by
  unfold tlbFrameLog at h
  split_ifs at h <;> simpa using h

theorem tlbFrameLog_cons (s : System ι) (p : ι) (pgn : ℕ) :
    ∃ log, tlbFrameLog s p pgn = touch :: log := by
  unfold tlbFrameLog
  split_ifs <;> exact ⟨_, rfl⟩

theorem tlbreadLog_not_disciplined {s : System ι} {p : ι} {source offset : BitVec 32}
    {log : List Op} {r : ℤ × Option Byte × System ι}
    (h : tlbreadLog s p source offset = .ok (log, r)) : ¬ Disciplined log := by
  unfold tlbreadLog at h
  rcases hr : getSymrgById (argInt source) with e | _ | rg
  · simp [hr] at h
  · simp only [hr] at h
    obtain rfl := log_eq h
    exact id
  · obtain ⟨log', hlog⟩ := tlbFrameLog_cons s p
      (pagingPgn (rgAddr ((s.mm p).symrgtbl rg) offset))
    simp only [hr, hlog] at h
    split_ifs at h
    · obtain rfl := log_eq h
      exact id
    · split at h <;> obtain rfl := log_eq h
      · exact id
      · exact id

theorem tlbwriteLog_disciplined_iff {s : System ι} {p : ι} {data : Byte}
    {destination offset : BitVec 32} {log : List Op} {r : ℤ × System ι}
    (h : tlbwriteLog s p data destination offset = .ok (log, r)) :
    Disciplined log ↔ getSymrgById (argInt destination) ≠ .ok none := by
  unfold tlbwriteLog at h
  rcases hr : getSymrgById (argInt destination) with e | _ | rg
  · simp [hr] at h
  · simp only [hr] at h
    obtain rfl := log_eq h
    exact iff_of_false id (absurd rfl)
  · simp only [hr] at h
    refine iff_of_true ?_ (by simp)
    split_ifs at h
    · obtain rfl := log_eq h
      rfl
    · split at h <;> obtain rfl := log_eq h <;>
        exact closing_append_unlock fun op hop => touch_of_mem_tlbFrameLog hop

/-! ## The calls of the CPUs -/

/-- A call of one of the four operations. -/
inductive TlbOp where
  | tlballoc (size regIndex : BitVec 32) (raw : List ℤ)
  | tlbfreeData (regIndex : BitVec 32)
  | tlbread (source offset : BitVec 32)
  | tlbwrite (data : Byte) (destination offset : BitVec 32)

/-- `log` is the log of a call, made for process `p` in state `s`, that returns. -/
inductive TlbOp.Logs (s : System ι) (p : ι) : TlbOp → List Op → Prop
  | tlballoc {size regIndex : BitVec 32} {raw : List ℤ} {log : List Op} {r : ℤ × System ι} :
      tlballocLog s p size regIndex raw = .ok (log, r) → Logs s p (.tlballoc size regIndex raw) log
  | tlbfreeData {regIndex : BitVec 32} {log : List Op} {r : ℤ × System ι} :
      tlbfreeDataLog s p regIndex = .ok (log, r) → Logs s p (.tlbfreeData regIndex) log
  | tlbread {source offset : BitVec 32} {log : List Op} {r : ℤ × Option Byte × System ι} :
      tlbreadLog s p source offset = .ok (log, r) → Logs s p (.tlbread source offset) log
  | tlbwrite {data : Byte} {destination offset : BitVec 32} {log : List Op} {r : ℤ × System ι} :
      tlbwriteLog s p data destination offset = .ok (log, r) →
      Logs s p (.tlbwrite data destination offset) log

/-- The call keeps the lock discipline: `get_symrg_byid` does not return `NULL`, and it is no
`tlbread`. -/
def TlbOp.Keeps : TlbOp → Prop
  | .tlballoc _ _ _ => True
  | .tlbfreeData regIndex => getSymrgById (argInt regIndex) ≠ .ok none
  | .tlbread _ _ => False
  | .tlbwrite _ destination _ => getSymrgById (argInt destination) ≠ .ok none

theorem TlbOp.Logs.disciplined_iff {s : System ι} {p : ι} {c : TlbOp} {log : List Op}
    (h : c.Logs s p log) : Disciplined log ↔ c.Keeps := by
  cases h with
  | tlballoc h => exact iff_of_true (tlballocLog_disciplined h) trivial
  | tlbfreeData h => exact tlbfreeDataLog_disciplined_iff h
  | tlbread h => exact iff_of_false (tlbreadLog_not_disciplined h) id
  | tlbwrite h => exact tlbwriteLog_disciplined_iff h

/-- The logs of the calls that keep the discipline, for any process in any state. -/
def KeptLog (ι : Type*) [DecidableEq ι] (log : List Op) : Prop :=
  ∃ (s : System ι) (p : ι) (c : TlbOp), c.Logs s p log ∧ c.Keeps

/-- In any state and for any arguments, a call of a TLB operation that returns has taken the lock
first and released it once, at the end, exactly if it `Keeps` the discipline. When the CPUs make
only such calls, then in any interleaving at most one is inside one, and the one that holds the lock
is, and can go on until it has released it. -/
theorem locked_iff :
    (∀ (s : System ι) (p : ι) (c : TlbOp) (log : List Op), c.Logs s p log →
      (Disciplined log ↔ c.Keeps)) ∧
    ∀ (κ : Type) [DecidableEq κ] (tr : List (Event κ)) (st : State κ),
      (Mutex.lts (KeptLog ι)).Run tr st → Safe (KeptLog ι) st := by
  refine ⟨fun s p c log h => h.disciplined_iff, fun κ _ tr st h => ?_⟩
  refine safe_of_run (fun log hlog => ?_) h
  obtain ⟨s, p, c, hc, hk⟩ := hlog
  exact hc.disciplined_iff.mpr hk

/-! ## Calls of new processes -/

/-- The log of a call that returns. -/
def logOf {α : Type*} (r : Except Fault (List Op × α)) : Option (List Op) :=
  match r with
  | .error _ => none
  | .ok (log, _) => some log

theorem exists_of_logOf {α : Type*} {r : Except Fault (List Op × α)} {log : List Op}
    (h : logOf r = some log) : ∃ a, r = .ok (log, a) := by
  rcases r with e | ⟨log', a⟩
  · cases h
  · exact ⟨a, by rw [Option.some.inj h]⟩

/-- A `WRITE` to a region that has not been allocated: a page fault. -/
theorem logs_tlbwrite_fault : TlbOp.Logs (Config.two 512 0).init 0 (.tlbwrite 0 0 0)
    [lock, touch, touch, unlock] := by
  obtain ⟨r, hr⟩ := exists_of_logOf (r := tlbwriteLog (Config.two 512 0).init 0 0 0 0)
    (show logOf _ = some [lock, touch, touch, unlock] by decide +kernel)
  exact .tlbwrite hr

/-- Two CPUs that write: one is inside, the other waits. -/
theorem locked_writes : ∃ st,
    (Mutex.lts (KeptLog (Fin 2))).Run [.call (0 : Fin 2) [lock, touch, touch, unlock],
      .call 1 [lock, touch, touch, unlock], .exec 0] st ∧ st.Inside 0 ∧
      Safe (KeptLog (Fin 2)) st := by
  have hkept : KeptLog (Fin 2) [lock, touch, touch, unlock] :=
    ⟨_, 0, _, logs_tlbwrite_fault, by unfold TlbOp.Keeps; decide⟩
  have h0 : (Mutex.lts (KeptLog (Fin 2))).init (⟨none, fun _ => []⟩ : State (Fin 2)) :=
    ⟨rfl, fun _ => rfl⟩
  have hrun := (((Lts.Run.init h0).step (Step.call (t := 0) rfl hkept)).step
    (Step.call (t := 1) rfl hkept)).step (Step.lock (t := 0) rfl rfl)
  exact ⟨_, hrun, ⟨by decide, by decide⟩, locked_iff.2 (Fin 2) _ _ hrun⟩

/-- The logs of all calls, for any process in any state. -/
def AnyLog (ι : Type*) [DecidableEq ι] (log : List Op) : Prop :=
  ∃ (s : System ι) (p : ι) (c : TlbOp), c.Logs s p log

/-- CPU 1 reads behind its region and releases the lock that CPU 0 holds, so that CPU 2 takes it and
two CPUs are inside. And a `WRITE` to region 31 returns with the lock. -/
theorem not_locked_reads :
    (∃ (tr : List (Event (Fin 3))) (st : State (Fin 3)),
      (Mutex.lts (AnyLog (Fin 2))).Run tr st ∧ st.Inside 0 ∧ st.Inside 2) ∧
    ∃ (tr : List (Event (Fin 3))) (st : State (Fin 3)),
      (Mutex.lts (AnyLog (Fin 2))).Run tr st ∧ st.holder = some 0 ∧ st.todo 0 = [] := by
  have hwrite : AnyLog (Fin 2) [lock, touch, touch, unlock] := ⟨_, 0, _, logs_tlbwrite_fault⟩
  have hread : AnyLog (Fin 2) [unlock] := by
    obtain ⟨r, hr⟩ := exists_of_logOf (r := tlbreadLog (Config.two 512 0).init 0 0 1)
      (show logOf _ = some [unlock] by decide +kernel)
    exact ⟨_, 0, _, .tlbread hr⟩
  have hbad : AnyLog (Fin 2) [lock] := by
    obtain ⟨r, hr⟩ := exists_of_logOf (r := tlbwriteLog (Config.two 512 0).init 0 0 31 0)
      (show logOf _ = some [lock] by decide +kernel)
    exact ⟨_, 0, _, .tlbwrite hr⟩
  have h0 : (Mutex.lts (AnyLog (Fin 2))).init (⟨none, fun _ => []⟩ : State (Fin 3)) :=
    ⟨rfl, fun _ => rfl⟩
  constructor
  · have hrun := (((((Lts.Run.init h0).step (Step.call (t := 0) rfl hwrite)).step
      (Step.lock (t := 0) rfl rfl)).step (Step.call (t := 1) rfl hread)).step
      (Step.unlock (t := 1) rfl)).step (Step.call (t := 2) rfl hwrite)
    exact ⟨_, _, hrun.step (Step.lock (t := 2) rfl rfl), ⟨by decide, by decide⟩,
      ⟨by decide, by decide⟩⟩
  · have hrun := ((Lts.Run.init h0).step (Step.call (t := 0) rfl hbad)).step
      (Step.lock (t := 0) rfl rfl)
    exact ⟨_, _, hrun, rfl, rfl⟩

end OsSim.Mem
