import OsSim.Mem.Reuse

/-!
# Runs of the plain build

What an instruction has done in the `MM_PAGING` build, where `run` calls `pgalloc`,
`pgfree_data`, `pgread` and `pgwrite`.

Results:
* `executedPaging_of_run`: what the entry points have called.
* `allSpaceInv_of_buildRun`: in either build the regions of every process stay below
  its break.
-/

namespace OsSim.Mem

variable {ι : Type*} [DecidableEq ι]

/-! ## What has been executed -/

/-- The instruction that `run` has executed in the plain build. An `ALLOC` has returned as for
region `r` of the table. -/
inductive ExecutedPaging (s : System ι) (p : ι) (ins : Inst) (raw : List ℤ) :
    Outcome → System ι → Prop
  | compute : ins.opcode = .CALC → ExecutedPaging s p ins raw ⟨0, none⟩ s
  | alloc {r : Fin pagingMaxSymtblSz} {stat addr : ℤ} {s' : System ι} : ins.opcode = .ALLOC →
      (stat = 0 → r = ins.arg1.toNat) →
      alloc s p r (argInt ins.arg0) raw = .ok (stat, addr, s') →
      ExecutedPaging s p ins raw ⟨stat, none⟩ s'
  | free {r : Fin pagingMaxSymtblSz} : ins.opcode = .FREE → r = ins.arg0.toNat →
      ExecutedPaging s p ins raw ⟨(free s p r).1, none⟩ (free s p r).2
  | read {r : Fin pagingMaxSymtblSz} {ret : ℤ} {data : Option Byte} {s' : System ι} :
      ins.opcode = .READ → r = ins.arg0.toNat →
      ((s.mm p).symrgtbl r).rgStart < ((s.mm p).symrgtbl r).rgEnd →
      ¬ OutOfRange ((s.mm p).symrgtbl r) ins.arg1 →
      pgGetval s p (rgAddr ((s.mm p).symrgtbl r) ins.arg1) = (ret, data, s') →
      ExecutedPaging s p ins raw ⟨0, data⟩ s'
  | write {r : Fin pagingMaxSymtblSz} {ret : ℤ} {s' : System ι} :
      ins.opcode = .WRITE → r = ins.arg1.toNat → ¬ OutOfRange ((s.mm p).symrgtbl r) ins.arg2 →
      pgSetval s p (rgAddr ((s.mm p).symrgtbl r) ins.arg2) (ins.arg0.setWidth 8) = (ret, s') →
      ExecutedPaging s p ins raw ⟨0, none⟩ s'
  | refused : ins.opcode = .FREE ∨ ins.opcode = .READ ∨ ins.opcode = .WRITE →
      ExecutedPaging s p ins raw ⟨-1, none⟩ s

section

variable {s s' : System ι} {p : ι} {ins : Inst} {raw : List ℤ} {o : Outcome}

/-- `pgalloc` returns as for a region of the table, which is the given one on success. -/
theorem pgalloc_inside {size regIndex : BitVec 32} {stat : ℤ}
    (h : pgalloc s p size regIndex raw = .ok (stat, s')) :
    ∃ (r : Fin pagingMaxSymtblSz) (addr : ℤ), (stat = 0 → r = regIndex.toNat) ∧
      alloc s p r (argInt size) raw = .ok (stat, addr, s') := by
  unfold pgalloc allocRgid at h
  cases hr : symrgIndex (argInt regIndex) with
  | ok r =>
    have hid := lt_of_symrgIndex hr
    rw [symrgIndex_eq hid] at hr
    cases hr
    simp only [symrgIndex_eq hid] at h
    cases halloc : alloc s p ⟨regIndex.toNat, hid⟩ (argInt size) raw with
    | error e => simp [halloc] at h
    | ok res =>
      simp only [halloc] at h
      cases h
      exact ⟨_, res.2.1, fun _ => rfl, halloc⟩
  | error e =>
    simp only [hr] at h
    cases halloc : allocOutside s p (argInt size) raw with
    | error e => simp [halloc] at h
    | ok res =>
      obtain ⟨ret, addr, s1⟩ := res
      obtain ⟨rfl, heq⟩ := allocOutside_spec halloc 0
      simp only [halloc] at h
      cases h
      exact ⟨0, addr, fun h0 => absurd h0 (by decide), heq⟩

theorem executedPaging_of_run (h : runPaging s p ins raw = .ok (o, s')) :
    ExecutedPaging s p ins raw o s' := by
  unfold runPaging at h
  cases hop : ins.opcode with
  | CALC =>
    simp only [hop] at h
    cases h
    exact .compute hop
  | ALLOC =>
    simp only [hop] at h
    obtain ⟨r, hr, heq⟩ := ok_of_map h
    cases heq
    obtain ⟨r', addr, h0, halloc⟩ := pgalloc_inside hr
    exact .alloc hop h0 halloc
  | FREE =>
    simp only [hop] at h
    obtain ⟨r, hr, heq⟩ := ok_of_map h
    cases heq
    unfold pgfreeData at hr
    cases hsym : getSymrgById (argInt ins.arg0) with
    | error e => simp [hsym] at hr
    | ok rg =>
      cases rg with
      | none =>
        simp only [hsym] at hr
        cases hr
        exact .refused (.inl hop)
      | some rg =>
        obtain ⟨hid, rfl⟩ := lt_of_getSymrgById hsym
        simp only [hsym] at hr
        cases hr
        exact .free hop rfl
  | READ =>
    simp only [hop] at h
    obtain ⟨r, hr, heq⟩ := ok_of_map h
    cases heq
    unfold pgread read at hr
    cases hsym : getSymrgById (argInt ins.arg0) with
    | error e => simp [hsym] at hr
    | ok rg =>
      cases rg with
      | none => simp [hsym] at hr
      | some rg =>
        obtain ⟨hid, rfl⟩ := lt_of_getSymrgById hsym
        simp only [hsym] at hr
        split_ifs at hr with hlive hout
        · cases hr
          exact .refused (.inr (.inl hop))
        · cases hr
          exact .refused (.inr (.inl hop))
        · cases hr
          exact .read hop rfl (not_le.mp hlive) hout rfl
  | WRITE =>
    simp only [hop] at h
    obtain ⟨r, hr, heq⟩ := ok_of_map h
    cases heq
    unfold pgwrite write at hr
    cases hsym : getSymrgById (argInt ins.arg1) with
    | error e => simp [hsym] at hr
    | ok rg =>
      cases rg with
      | none =>
        simp only [hsym] at hr
        cases hr
        exact .refused (.inr (.inr hop))
      | some rg =>
        obtain ⟨hid, rfl⟩ := lt_of_getSymrgById hsym
        simp only [hsym] at hr
        split_ifs at hr with hout
        · cases hr
          exact .refused (.inr (.inr hop))
        · cases hr
          exact .write hop rfl hout rfl

/-! ## The regions -/

theorem Paged.pgGetval {addr : ℤ} {ret : ℤ} {data : Option Byte}
    (h : pgGetval s p addr = (ret, data, s')) : Paged p s s' := by
  have hget := Paged.pgGetpage (p := p) s (pagingPgn addr)
  unfold Mem.pgGetval at h
  simp only at h
  split_ifs at h <;> cases h <;> exact hget

theorem Paged.pgSetval {addr : ℤ} {value : Byte} {ret : ℤ}
    (h : pgSetval s p addr value = (ret, s')) : Paged p s s' := by
  have hget := Paged.pgGetpage (p := p) s (pagingPgn addr)
  unfold Mem.pgSetval at h
  simp only at h
  split_ifs at h
  · cases h
    exact hget
  · cases h
    exact hget.trans (.of_mm rfl)

/-- An instruction of the plain build keeps the invariant of its process. -/
theorem SpaceInv.runPaging (h : SpaceInv (s.mm p)) (hrun : runPaging s p ins raw = .ok (o, s')) :
    ∃ mm, SpaceInv mm ∧ Paged p (s.setMm p mm) s' := by
  obtain ⟨h0, h1⟩ := argInt_range ins.arg0
  cases executedPaging_of_run hrun with
  | compute => exact h.same (.refl p s)
  | alloc _ _ halloc =>
    obtain ⟨mm, hpaged, hspace⟩ := alloc_space h _ h0 h1 halloc
    exact ⟨mm, hspace.spaceInv h, hpaged⟩
  | @free r => exact h.freed r
  | read _ _ _ _ hget => exact h.same (.pgGetval hget)
  | write _ _ _ hset => exact h.same (.pgSetval hset)
  | refused => exact h.same (.refl p s)

end

theorem SpaceInv.buildRun {b : Build} {s s' : System ι} {p : ι} {ins : Inst} {raw : List ℤ}
    {o : Outcome} (h : SpaceInv (s.mm p)) (hrun : b.run s p ins raw = .ok (o, s')) :
    ∃ mm, SpaceInv mm ∧ Paged p (s.setMm p mm) s' := by
  cases b with
  | cpuTlb => exact SpaceInv.run h hrun
  | mmPaging => exact SpaceInv.runPaging h hrun

theorem allSpaceInv_of_buildRun {b : Build} {c : Config ι} {tr : List (Label ι)} {s : System ι}
    (h : (buildLts b c).Run tr s) : AllSpaceInv s := by
  refine h.invariant (fun _ h0 => h0 ▸ fun _ => MmInv.initMm.spaceInv) ?_
  intro t a t' hi hst
  obtain ⟨mm, hmm, hpaged⟩ := (hi a.proc).buildRun hst
  exact hi.of_paged hmm hpaged

end OsSim.Mem
