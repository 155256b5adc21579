import OsSim.Mem.RegionIds
import OsSim.Mem.Release

/-!
# The status of an instruction

`run` is meant to return 0 exactly if the instruction has taken effect. In the
build with a TLB, `tlbfree_data` returns 0 whatever `pgfree_data` returns. In the
plain build, `__read` and `__write` do not look at what `pg_getval` and `pg_setval`
return, so an access to a page that cannot be brought to RAM returns 0. All other
failures reach the caller.

Results:
* `noEmptyRegion_of_run`: an entry of the symbol table is clear or a region with bytes.
* `FrameEnd.fetches`, `FrameEnd.stores`: an access once its page has been looked for.
* `truthful_iff`: when the status is right.
-/

namespace OsSim.Mem

open Placement Placement.Store BitField

variable {ι : Type*} [DecidableEq ι]

/-! ## What is asked for -/

/-- Region `r` has room for `n` bytes in state `t`, and its pages have been mapped since `s`. -/
structure MapsRegion (p : ι) (r : Fin pagingMaxSymtblSz) (n : ℕ) (s t : System ι) : Prop where
  size : ((t.mm p).symrgtbl r).rgStart + n ≤ ((t.mm p).symrgtbl r).rgEnd
  mapped : ∀ k, ((t.mm p).symrgtbl r).HasPage k →
    ¬ Present ((s.mm p).pgd k) ∧ Present ((t.mm p).pgd k)

/-- The byte at address `a` of `p` is in RAM and is `data`; every other byte is as it was. -/
structure Stores (p : ι) (a : ℕ) (data : Byte) (s t : System ι) : Prop where
  resident : Resident ((t.mm p).pgd (a / 256))
  byte : ∀ q x, t.byte q x = if q = p ∧ x = a then some data else s.byte q x

/-- The instruction, whose region id is `r`, has taken effect between `s` and `t`. -/
def TookEffect (s : System ι) (p : ι) (r : Fin pagingMaxSymtblSz) (ins : Inst) (o : Outcome)
    (t : System ι) : Prop :=
  let currg := (s.mm p).symrgtbl r
  match ins.opcode with
  | .CALC => True
  | .ALLOC => MapsRegion p r ins.arg0.toNat s t
  | .FREE => currg.rgStart < currg.rgEnd ∧ Disposed s p r t
  | .READ => ∃ b, s.byte p (vaddr currg ins.arg1) = some b ∧ o.data = some b
  | .WRITE => ¬ OutOfRange currg ins.arg2 ∧
    Stores p (vaddr currg ins.arg2) (ins.arg0.setWidth 8) s t

/-- `run` returns, and its status is 0 exactly if the instruction has taken effect. -/
def Reports (b : Build) (s : System ι) (p : ι) (r : Fin pagingMaxSymtblSz) (ins : Inst)
    (raw : List ℤ) : Prop :=
  ∃ o t, b.run s p ins raw = .ok (o, t) ∧ (o.stat = 0 ↔ TookEffect s p r ins o t)

/-- What the instruction does has a meaning, and its status is right. -/
def Truthful (b : Build) (s : System ι) (p : ι) (r : Fin pagingMaxSymtblSz) (ins : Inst)
    (raw : List ℤ) : Prop :=
  Defined b s p ins raw ∧ Reports b s p r ins raw

/-- When the status is right. -/
def TruthfulWhen (b : Build) (s : System ι) (p : ι) (r : Fin pagingMaxSymtblSz) (ins : Inst) :
    Prop :=
  let currg := (s.mm p).symrgtbl r
  match b, ins.opcode with
  | _, .ALLOC => (s.mm p).mmap.dangling = false
  | .cpuTlb, .FREE => currg.rgStart < currg.rgEnd ∧
    (s.mram.freeFpList ≠ [] ∨ Resident ((s.mm p).pgd (currg.rgStart / 256)))
  | .mmPaging, .READ => currg.rgStart < currg.rgEnd → ¬ OutOfRange currg ins.arg1 →
    Accessible s p (vaddr currg ins.arg1 / 256)
  | .mmPaging, .WRITE => ¬ OutOfRange currg ins.arg2 →
    Accessible s p (vaddr currg ins.arg2 / 256)
  | _, _ => True

/-! ## The symbol table -/

/-- An entry of the symbol table is clear or a region with bytes. -/
def Mm.NoEmptyRegion (mm : Mm) : Prop :=
  ∀ r, (mm.symrgtbl r).rgEnd ≠ 0 → (mm.symrgtbl r).rgStart < (mm.symrgtbl r).rgEnd

section

variable {c : Config ι} {s : System ι} {p : ι} {mm mm' : Mm}

theorem Mm.NoEmptyRegion.update (h : mm.NoEmptyRegion) {r : Fin pagingMaxSymtblSz} {rg : VmRg}
    (hsym : mm'.symrgtbl = Function.update mm.symrgtbl r rg)
    (hrg : rg.rgEnd ≠ 0 → rg.rgStart < rg.rgEnd) : mm'.NoEmptyRegion := by
  intro r' h0
  rw [hsym, Function.update_apply] at h0 ⊢
  split_ifs at h0 ⊢
  · exact hrg h0
  · exact h r' h0

theorem Mm.NoEmptyRegion.congr (h : mm.NoEmptyRegion) (hsym : mm'.symrgtbl = mm.symrgtbl) :
    mm'.NoEmptyRegion := by
  intro r h0
  rw [hsym] at h0 ⊢
  exact h r h0

theorem MmStep.noEmptyRegion (hst : MmStep s p mm) (h : (s.mm p).NoEmptyRegion) :
    mm.NoEmptyRegion := by
  cases hst with
  | pages hs => exact h.congr hs.symrgtbl
  | alloc hn1 hend _ =>
    cases hend with
    | mapped rg _ _ hsym hfit => exact h.update hsym fun _ => by omega
    | failed _ hsym =>
      obtain hsym | hsym := hsym
      · exact h.congr hsym
      · exact h.update hsym fun h0 => absurd rfl h0
  | free r heq =>
    rw [heq]
    obtain ⟨-, hpaged⟩ | ⟨-, hpaged⟩ := free_space s p r
    · exact h.congr hpaged.space.symrgtbl
    · have hsym := hpaged.space.symrgtbl
      rw [System.setMm_self] at hsym
      exact h.update hsym fun h0 => absurd rfl h0

theorem noEmptyRegion_of_run (hram : numfp c.ramSz ≤ 8192) {b : Build} {tr : List (Label ι)}
    (h : ((buildLts b c).guard StepOk).Run tr s) (p : ι) : (s.mm p).NoEmptyRegion := by
  refine (h.history (I := fun tr s => ((buildLts b c).guard StepOk).Run tr s ∧
    ∀ p, (s.mm p).NoEmptyRegion) (fun s h0 => ⟨.init h0, fun p r hr => ?_⟩)
    fun tr s a s' hi hst => ⟨hi.1.step hst, fun p => ?_⟩).2 p
  · rw [show s = c.init from h0] at hr
    exact absurd rfl hr
  · have hinv := (liveInv_of_run hram hi.1).1
    by_cases hp : p = a.proc
    · rw [hp]
      exact (buildRun_mmStep (hinv.proc a.proc) hst.2.1 hst.1).noEmptyRegion (hi.2 a.proc)
    · obtain ⟨mm, -, hpaged⟩ := SpaceInv.buildRun (hinv.proc a.proc).mm.spaceInv hst.1
      rw [hpaged.others p hp, System.setMm_of_ne _ _ _ hp]
      exact hi.2 p

end

/-! ## Accesses -/

/-- How the search for the frame of page `pgn` ends: with the frame, if the page can be brought to
RAM. -/
structure FrameEnd (c : Config ι) (p : ι) (pgn : ℕ) (s : System ι) (fr : Option ℤ)
    (t : System ι) : Prop where
  owned : Owned (numfp c.ramSz) (numfp (c.swpSz 0)) ⟨[], t⟩
  page : ∀ q k, t.page q k = s.page q k
  ending : (Accessible s p pgn ∧ Resident ((t.mm p).pgd pgn) ∧
      fr = some (pteFpn ((t.mm p).pgd pgn))) ∨
    (¬ Accessible s p pgn ∧ ¬ Resident ((t.mm p).pgd pgn) ∧ fr = none)

section

variable {c : Config ι} {s t : System ι} {p : ι} {pgn : ℕ} {fr : Option ℤ}

theorem not_resident_pgGetpage (h : ¬ Accessible s p pgn) :
    ¬ Resident (((pgGetpage s p pgn).2.2.mm p).pgd pgn) := by
  have hno : ¬ Resident ((s.mm p).pgd pgn) := fun hres => h (.inl hres)
  obtain ⟨-, hr⟩ | ⟨-, hr⟩ | ⟨-, -, -, hr⟩ | ⟨hp, hsw, fpn, rest, -, hav, -⟩ :=
    pgGetpage_cases s p pgn
  · rwa [hr]
  · rwa [hr]
  · rwa [hr, System.setFifo_self]
  · exact absurd (.inr ⟨hp, hsw, by simp [hav]⟩) h

theorem pgGetpage_end (hram : numfp c.ramSz ≤ 8192) (h : LiveInv c s) (p : ι) (pgn : ℕ) :
    FrameEnd c p pgn s
      (if (pgGetpage s p pgn).1 = 0 then some (pgGetpage s p pgn).2.1 else none)
      (pgGetpage s p pgn).2.2 := by
  have hf := pgGetpage_moves (h.proc p) pgn
  refine ⟨hf.moves.owned (fun a ha => ha.2) hram h.owned, fun q k => ?_, ?_⟩
  · exact hf.moves.view_eq (fun a ha => ha.2) hram h.owned fun _ a ha => by simp [ha.1]
  · obtain ⟨h0, hacc⟩ | ⟨h0, hacc⟩ := pgGetpage_status s p pgn
    · obtain ⟨-, hres, hfpn⟩ | hneg := hf.status
      · obtain ⟨hge, hlt⟩ := (hf.frames (h.owned.framesOk hram)).2 h0
        rw [Int.emod_eq_of_lt hge hlt] at hfpn
        rw [if_pos h0, hfpn]
        exact .inl ⟨hacc, hres, rfl⟩
      · rw [h0] at hneg
        cases hneg
    · rw [if_neg (by rw [h0]; decide)]
      exact .inr ⟨hacc, not_resident_pgGetpage hacc, rfl⟩

/-- Without a frame, `tlbread` and `tlbwrite` have called `pg_getpage`. -/
theorem tlbFrame_of_none (h : (tlbFrame s p pgn).1 = none) :
    (tlbFrame s p pgn).2 = (pgGetpage s p pgn).2.2 := by
  unfold tlbFrame at h ⊢
  simp only at h ⊢
  split_ifs at h ⊢
  rfl

theorem tlbFrame_end (hram : numfp c.ramSz ≤ 8192) (h : OwnedInv c s) (hpgn : pgn < 2 ^ 14) :
    FrameEnd c p pgn s (tlbFrame s p pgn).1 (tlbFrame s p pgn).2 := by
  have hquiet := tlbFrame_quiet (p := p) hram h hpgn
  refine ⟨hquiet.inv.owned, hquiet.page, ?_⟩
  obtain hok | ⟨hacc, hnone⟩ := tlbFrame_spec (p := p) hram h hpgn
  · exact .inl hok
  · refine .inr ⟨hacc, ?_, hnone⟩
    rw [tlbFrame_of_none hnone]
    exact not_resident_pgGetpage hacc

omit [DecidableEq ι] in
/-- The byte that is read through a frame that has been found. -/
theorem FrameEnd.fetches {a : ℕ} {fpn : ℤ} (h : FrameEnd c p (a / 256) s (some fpn) t) :
    ∃ b, s.byte p a = some b ∧
      (memphyRead t.mram (phyaddr fpn (a % 256 : ℕ))).2.1 = some b := by
  obtain ⟨-, hres, hfr⟩ | ⟨-, -, hfr⟩ := h.ending <;> cases hfr
  rw [memphyRead_random h.owned.random.ram]
  refine ⟨_, ?_, rfl⟩
  rw [System.byte, ← h.page, page_of_resident hres]
  rfl

theorem FrameEnd.stores {a : ℕ} {fpn : ℤ} (h : FrameEnd c p (a / 256) s (some fpn) t)
    (data : Byte) : Stores p a data s (t.store (phyaddr fpn (a % 256 : ℕ)) data) := by
  obtain ⟨-, hres, hfr⟩ | ⟨-, -, hfr⟩ := h.ending <;> cases hfr
  refine ⟨hres, fun q x => ?_⟩
  rw [byte_store h.owned.exclusive h.owned.random hres]
  simp only [System.byte, h.page]

theorem FrameEnd.not_stores {a : ℕ} (h : FrameEnd c p (a / 256) s none t) (data : Byte) :
    ¬ Stores p a data s t := by
  obtain ⟨-, -, hfr⟩ | ⟨-, hres, -⟩ := h.ending
  · cases hfr
  · exact fun hst => hres hst.resident

omit [DecidableEq ι] in
theorem FrameEnd.accessible_iff (h : FrameEnd c p pgn s fr t) :
    Accessible s p pgn ↔ ∃ fpn, fr = some fpn := by
  obtain ⟨hacc, -, rfl⟩ | ⟨hacc, -, rfl⟩ := h.ending
  · exact iff_of_true hacc ⟨_, rfl⟩
  · exact iff_of_false hacc (by simp)

end

/-! ## The build with a TLB -/

section

variable {c : Config ι} {s t : System ι} {p : ι} {r : Fin pagingMaxSymtblSz} {ins : Inst}
  {raw : List ℤ}

omit [DecidableEq ι] in
/-- What an allocation maps was not mapped before. -/
theorem AllocEnd.mapsRegion_iff {n : ℕ} {stat addr : ℤ} (hn1 : 1 ≤ n)
    (hend : AllocEnd n r (s.mm p) stat addr (t.mm p)) (hl : (s.mm p).LivePresent) :
    stat = 0 ↔ MapsRegion p r n s t := by
  cases hend with
  | mapped rg h0 _ hsym hfit _ hpages =>
    refine iff_of_true h0 ⟨?_, fun k hk => ?_⟩
    · rwa [hsym, Function.update_self]
    · rw [hsym, Function.update_self] at hk
      exact ⟨(hpages k hk).1, (hpages k hk).2.1⟩
  | failed hneg hsym =>
    refine iff_of_false (by rw [hneg]; decide) fun hm => ?_
    have hsize := hm.size
    obtain hsym | hsym := hsym
    · -- the region that was there before has its pages
      have hpage : ((t.mm p).symrgtbl r).HasPage (((t.mm p).symrgtbl r).rgStart / 256) :=
        VmRg.hasPage_of_byte le_rfl (by omega)
      exact (hm.mapped _ hpage).1 (hl r _ (hsym ▸ hpage))
    · rw [hsym, Function.update_self] at hsize
      simp only at hsize
      omega

theorem reports_iff_of_run {b : Build} {o : Outcome} (hrun : b.run s p ins raw = .ok (o, t)) :
    Reports b s p r ins raw ↔ (o.stat = 0 ↔ TookEffect s p r ins o t) := by
  constructor
  · rintro ⟨o', t', hrun', hiff⟩
    rw [hrun] at hrun'
    cases hrun'
    exact hiff
  · intro hiff
    exact ⟨o, t, hrun, hiff⟩

theorem reports_tlballoc (h : LiveInv c s) (hop : ins.opcode = .ALLOC)
    (hr : ins.arg1.toNat = r) (hsize : SizeOk s p ins) : Reports .cpuTlb s p r ins raw := by
  have hid : ins.arg1.toNat < pagingMaxSymtblSz := hr ▸ r.isLt
  obtain rfl : r = ⟨ins.arg1.toNat, hid⟩ := Fin.ext hr.symm
  obtain ⟨hn1, hn, hbrk⟩ := hsize hop
  obtain ⟨res, heq, ha⟩ := tlballoc_moves (h.proc p) hid hn1 hn hbrk raw
  obtain ⟨addr, hend⟩ := ha.ending
  refine (reports_iff_of_run (o := ⟨res.1, none⟩) (t := res.2) ?_).mpr ?_
  · simp only [Build.run, run, hop, heq, Except.map]
  · simp only [TookEffect, hop]
    exact hend.mapsRegion_iff hn1 (h.live p)

/-- `__free` returns 0 exactly if it has released a live region. -/
theorem free_released_iff (hram : numfp c.ramSz ≤ 8192) (h : LiveInv c s)
    (hne : (s.mm p).NoEmptyRegion) : (free s p r).1 = 0 ↔
      ((s.mm p).symrgtbl r).rgStart < ((s.mm p).symrgtbl r).rgEnd ∧
        Disposed s p r (free s p r).2 := by
  constructor
  · intro h0
    have hlive := hne r ((free_status s p r).mp h0).1
    exact ⟨hlive, free_disposes hram h hlive h0⟩
  · rintro ⟨hlive, hdis⟩
    obtain ⟨-, hpaged⟩ | ⟨h0, -⟩ := free_space s p r
    · have hclear := hdis.cleared
      rw [hpaged.space.symrgtbl] at hclear
      rw [hclear] at hlive
      exact absurd hlive (Nat.lt_irrefl 0)
    · exact h0

theorem reports_tlbfreeData (hram : numfp c.ramSz ≤ 8192) (h : LiveInv c s)
    (hne : (s.mm p).NoEmptyRegion) (hop : ins.opcode = .FREE) (hr : ins.arg0.toNat = r) :
    Reports .cpuTlb s p r ins raw ↔
      ((s.mm p).symrgtbl r).rgStart < ((s.mm p).symrgtbl r).rgEnd ∧ (s.mram.freeFpList ≠ [] ∨
        Resident ((s.mm p).pgd (((s.mm p).symrgtbl r).rgStart / 256))) := by
  have hid : ins.arg0.toNat < pagingMaxSymtblSz := hr ▸ r.isLt
  obtain rfl : r = ⟨ins.arg0.toNat, hid⟩ := Fin.ext hr.symm
  obtain ⟨tlb, heq⟩ := tlbfreeData_free s p hid
  have hfreed := free_released_iff hram h hne (r := ⟨ins.arg0.toNat, hid⟩)
  rw [reports_iff_of_run (o := ⟨0, none⟩)
    (t := (free s p ⟨ins.arg0.toNat, hid⟩).2.setTlb tlb)]
  · simp only [TookEffect, hop, true_iff]
    -- the TLB plays no part in what has been released
    have hsame : Disposed s p ⟨ins.arg0.toNat, hid⟩
        ((free s p ⟨ins.arg0.toNat, hid⟩).2.setTlb tlb) ↔
          Disposed s p ⟨ins.arg0.toNat, hid⟩ (free s p ⟨ins.arg0.toNat, hid⟩).2 :=
      ⟨fun ⟨h1, h2, h3, h4, h5, h6, h7⟩ => ⟨h1, h2, h3, h4, h5, h6, h7⟩,
        fun ⟨h1, h2, h3, h4, h5, h6, h7⟩ => ⟨h1, h2, h3, h4, h5, h6, h7⟩⟩
    rw [hsame, ← hfreed]
    constructor
    · intro h0
      have hlive := (hfreed.mp h0).1
      exact ⟨hlive, (free_live_status h hlive).mp h0⟩
    · rintro ⟨hlive, hroom⟩
      exact (free_live_status h hlive).mpr hroom
  · simp only [Build.run, run, hop, heq, Except.map]

theorem reports_tlbread (hram : numfp c.ramSz ≤ 8192) (h : OwnedInv c s)
    (hop : ins.opcode = .READ) (hr : ins.arg0.toNat = r) : Reports .cpuTlb s p r ins raw := by
  have hid : ins.arg0.toNat < pagingMaxSymtblSz := hr ▸ r.isLt
  obtain rfl : r = ⟨ins.arg0.toNat, hid⟩ := Fin.ext hr.symm
  obtain ⟨res, heq, hend⟩ := tlbread_spec (p := p) hram h hid ins.arg1
  refine (reports_iff_of_run (o := ⟨res.1, res.2.1⟩) (t := res.2.2) ?_).mpr ?_
  · simp only [Build.run, run, hop, heq, Except.map]
  · simp only [TookEffect, hop]
    obtain ⟨h0, -, b, hb, hd⟩ | ⟨hneg, -, hd⟩ := hend.ending
    · exact iff_of_true h0 ⟨b, hb, hd⟩
    · refine iff_of_false (by rw [hneg]; decide) ?_
      rintro ⟨b, -, hb⟩
      rw [hd] at hb
      cases hb

theorem reports_tlbwrite (hram : numfp c.ramSz ≤ 8192) (h : OwnedInv c s)
    (hop : ins.opcode = .WRITE) (hr : ins.arg1.toNat = r) : Reports .cpuTlb s p r ins raw := by
  have hid : ins.arg1.toNat < pagingMaxSymtblSz := hr ▸ r.isLt
  obtain rfl : r = ⟨ins.arg1.toNat, hid⟩ := Fin.ext hr.symm
  have heq := tlbwrite_eq s p (ins.arg0.setWidth 8) hid ins.arg2
  simp only at heq
  by_cases hout : OutOfRange ((s.mm p).symrgtbl ⟨ins.arg1.toNat, hid⟩) ins.arg2
  · rw [if_pos hout] at heq
    refine (reports_iff_of_run (o := ⟨-1, none⟩) (t := s) ?_).mpr ?_
    · simp only [Build.run, run, hop, heq, Except.map]
    · simp only [TookEffect, hop]
      exact iff_of_false (by decide) fun he => he.1 hout
  · have hend := tlbFrame_end (p := p) hram h
      (vaddr_page_lt ((s.mm p).symrgtbl ⟨ins.arg1.toNat, hid⟩) ins.arg2)
    rw [if_neg hout, pagingPgn_rgAddr, pagingOffst_rgAddr] at heq
    generalize tlbFrame s p _ = res at heq hend
    obtain ⟨fr, t⟩ := res
    cases fr with
    | none =>
      refine (reports_iff_of_run (o := ⟨-1, none⟩) (t := t) ?_).mpr ?_
      · simp only [Build.run, run, hop, heq, Except.map]
      · simp only [TookEffect, hop]
        exact iff_of_false (by decide) fun he => hend.not_stores _ he.2
    | some frmnum =>
      refine (reports_iff_of_run (o := ⟨0, none⟩) (t := t.store (phyaddr frmnum
        (vaddr ((s.mm p).symrgtbl ⟨ins.arg1.toNat, hid⟩) ins.arg2 % 256 : ℕ))
          (ins.arg0.setWidth 8)) ?_).mpr ?_
      · simp only [Build.run, run, hop, heq, Except.map]
        rfl
      · simp only [TookEffect, hop]
        exact iff_of_true trivial ⟨hout, hend.stores _⟩

/-! ## The plain build -/

theorem reports_pgalloc (h : LiveInv c s) (hop : ins.opcode = .ALLOC) (hr : ins.arg1.toNat = r)
    (hsize : SizeOk s p ins) : Reports .mmPaging s p r ins raw := by
  have hid : ins.arg1.toNat < pagingMaxSymtblSz := hr ▸ r.isLt
  obtain rfl : r = ⟨ins.arg1.toNat, hid⟩ := Fin.ext hr.symm
  obtain ⟨hn1, hn, hbrk⟩ := hsize hop
  obtain ⟨⟨stat, addr, t⟩, heq, ha⟩ := alloc_moves (h.proc p) ⟨ins.arg1.toNat, hid⟩ hn1 hn hbrk raw
  rw [← argInt_eq (by omega), ← allocRgid_eq hid] at heq
  refine (reports_iff_of_run (o := ⟨stat, none⟩) (t := t) ?_).mpr ?_
  · simp only [Build.run, runPaging, hop, pgalloc, heq, Except.map]
  · simp only [TookEffect, hop]
    exact ha.ending.mapsRegion_iff hn1 (h.live p)

theorem reports_pgfreeData (hram : numfp c.ramSz ≤ 8192) (h : LiveInv c s)
    (hne : (s.mm p).NoEmptyRegion) (hop : ins.opcode = .FREE) (hr : ins.arg0.toNat = r) :
    Reports .mmPaging s p r ins raw := by
  have hid : ins.arg0.toNat < pagingMaxSymtblSz := hr ▸ r.isLt
  obtain rfl : r = ⟨ins.arg0.toNat, hid⟩ := Fin.ext hr.symm
  refine (reports_iff_of_run (o := ⟨(free s p ⟨ins.arg0.toNat, hid⟩).1, none⟩)
    (t := (free s p ⟨ins.arg0.toNat, hid⟩).2) ?_).mpr ?_
  · simp only [Build.run, runPaging, hop, pgfreeData, getSymrgById_eq hid, Except.map]
  · simp only [TookEffect, hop]
    exact free_released_iff hram h hne

/-- `pgread` goes on without a frame if the page cannot be brought to RAM. -/
theorem pgread_end (hram : numfp c.ramSz ≤ 8192) (h : LiveInv c s) {source : BitVec 32}
    (hid : source.toNat < pagingMaxSymtblSz) (offset : BitVec 32) :
    let currg := (s.mm p).symrgtbl ⟨source.toNat, hid⟩
    (¬ (currg.rgStart < currg.rgEnd ∧ ¬ OutOfRange currg offset) ∧
      pgread s p source offset = .ok (-1, none, s)) ∨
    ((currg.rgStart < currg.rgEnd ∧ ¬ OutOfRange currg offset) ∧
      ∃ fr t, FrameEnd c p (vaddr currg offset / 256) s fr t ∧
        pgread s p source offset = .ok (0, fr.bind fun fpn =>
          (memphyRead t.mram (phyaddr fpn (vaddr currg offset % 256 : ℕ))).2.1, t)) := by
  rw [pgread_eq s p hid]
  generalize (s.mm p).symrgtbl ⟨source.toNat, hid⟩ = currg
  simp only
  by_cases hlive : currg.rgStart < currg.rgEnd
  · by_cases hin : OutOfRange currg offset
    · refine .inl ⟨fun hok => hok.2 hin, ?_⟩
      rw [if_neg (not_le.mpr hlive), if_pos hin]
    · refine .inr ⟨⟨hlive, hin⟩, _, _, pgGetpage_end hram h p _, ?_⟩
      rw [if_neg (not_le.mpr hlive), if_neg hin, pgGetval, pagingPgn_rgAddr, pagingOffst_rgAddr]
      generalize pgGetpage s p _ = res
      obtain ⟨ret, fpn, t⟩ := res
      by_cases h0 : ret = 0 <;> simp [h0]
  · refine .inl ⟨fun hok => hlive hok.1, ?_⟩
    rw [if_pos (not_lt.mp hlive)]

/-- So does `pgwrite`. -/
theorem pgwrite_end (hram : numfp c.ramSz ≤ 8192) (h : LiveInv c s) (data : Byte)
    {destination : BitVec 32} (hid : destination.toNat < pagingMaxSymtblSz) (offset : BitVec 32) :
    let currg := (s.mm p).symrgtbl ⟨destination.toNat, hid⟩
    (OutOfRange currg offset ∧ pgwrite s p data destination offset = .ok (-1, s)) ∨
    (¬ OutOfRange currg offset ∧ ∃ fr t, FrameEnd c p (vaddr currg offset / 256) s fr t ∧
      pgwrite s p data destination offset = .ok (0, fr.elim t fun fpn =>
        t.store (phyaddr fpn (vaddr currg offset % 256 : ℕ)) data)) := by
  rw [pgwrite_eq s p data hid]
  generalize (s.mm p).symrgtbl ⟨destination.toNat, hid⟩ = currg
  simp only
  by_cases hin : OutOfRange currg offset
  · refine .inl ⟨hin, ?_⟩
    rw [if_pos hin]
  · refine .inr ⟨hin, _, _, pgGetpage_end hram h p _, ?_⟩
    rw [if_neg hin, pgSetval, pagingPgn_rgAddr, pagingOffst_rgAddr]
    generalize pgGetpage s p _ = res
    obtain ⟨ret, fpn, t⟩ := res
    by_cases h0 : ret = 0 <;> simp [h0, System.store]

theorem reports_pgread (hram : numfp c.ramSz ≤ 8192) (h : LiveInv c s) (hop : ins.opcode = .READ)
    (hr : ins.arg0.toNat = r) : Reports .mmPaging s p r ins raw ↔
      (((s.mm p).symrgtbl r).rgStart < ((s.mm p).symrgtbl r).rgEnd →
        ¬ OutOfRange ((s.mm p).symrgtbl r) ins.arg1 →
          Accessible s p (vaddr ((s.mm p).symrgtbl r) ins.arg1 / 256)) := by
  have hid : ins.arg0.toNat < pagingMaxSymtblSz := hr ▸ r.isLt
  obtain rfl : r = ⟨ins.arg0.toNat, hid⟩ := Fin.ext hr.symm
  obtain ⟨hno, heq⟩ | ⟨hok, fr, t, hend, heq⟩ := pgread_end (p := p) hram h hid ins.arg1
  · rw [reports_iff_of_run (o := ⟨-1, none⟩) (t := s)]
    · simp only [TookEffect, hop]
      refine iff_of_true (iff_of_false (by decide) (by simp)) fun hlive hin => ?_
      exact absurd ⟨hlive, hin⟩ hno
    · simp only [Build.run, runPaging, hop, heq, Except.map]
  · have hrun : Build.run .mmPaging s p ins raw =
        (pgread s p ins.arg0 ins.arg1).map fun r => (⟨r.1, r.2.1⟩, r.2.2) := by
      simp only [Build.run, runPaging, hop]
    rw [heq] at hrun
    rw [reports_iff_of_run hrun]
    simp only [TookEffect, hop, true_iff, hok.1, hok.2, not_false_eq_true, forall_const]
    rw [hend.accessible_iff]
    cases fr with
    | none => simp
    | some fpn => exact iff_of_true hend.fetches ⟨fpn, rfl⟩

theorem reports_pgwrite (hram : numfp c.ramSz ≤ 8192) (h : LiveInv c s)
    (hop : ins.opcode = .WRITE) (hr : ins.arg1.toNat = r) : Reports .mmPaging s p r ins raw ↔
      (¬ OutOfRange ((s.mm p).symrgtbl r) ins.arg2 →
        Accessible s p (vaddr ((s.mm p).symrgtbl r) ins.arg2 / 256)) := by
  have hid : ins.arg1.toNat < pagingMaxSymtblSz := hr ▸ r.isLt
  obtain rfl : r = ⟨ins.arg1.toNat, hid⟩ := Fin.ext hr.symm
  obtain ⟨hout, heq⟩ | ⟨hin, fr, t, hend, heq⟩ :=
    pgwrite_end (p := p) hram h (ins.arg0.setWidth 8) hid ins.arg2
  · rw [reports_iff_of_run (o := ⟨-1, none⟩) (t := s)]
    · simp only [TookEffect, hop]
      exact iff_of_true (iff_of_false (by decide) fun he => he.1 hout) fun hin => absurd hout hin
    · simp only [Build.run, runPaging, hop, heq, Except.map]
  · have hrun : Build.run .mmPaging s p ins raw =
        (pgwrite s p (ins.arg0.setWidth 8) ins.arg1 ins.arg2).map fun r => (⟨r.1, none⟩, r.2) := by
      simp only [Build.run, runPaging, hop]
    rw [heq] at hrun
    rw [reports_iff_of_run hrun]
    simp only [TookEffect, hop, true_iff, hin, not_false_eq_true, forall_const, true_and]
    rw [hend.accessible_iff]
    cases fr with
    | none => exact iff_of_false (hend.not_stores _) (by simp)
    | some fpn => exact iff_of_true (hend.stores _) ⟨fpn, rfl⟩

/-! ## The condition -/

/-- In either build, in every state of a run whose steps are `StepOk`, for an instruction with a
region id of the table: the status is right exactly under `TruthfulWhen`. -/
theorem truthful_iff (hram : numfp c.ramSz ≤ 8192) {b : Build} {tr : List (Label ι)}
    (h : ((definedLts b c).guard StepOk).Run tr s) (hsize : SizeOk s p ins)
    (hr : ∀ rgid ∈ ins.regionId, rgid.toNat = r) :
    Truthful b s p r ins raw ↔ TruthfulWhen b s p r ins := by
  have hbuild := run_of_defined h
  obtain ⟨hinv, hcoh⟩ := liveInv_of_run hram hbuild
  have hne := noEmptyRegion_of_run hram hbuild p
  unfold Truthful
  rw [defined_iff_listKept (hinv.proc p) hsize]
  unfold TruthfulWhen
  have hother : ins.opcode ≠ .ALLOC → ListKept s p ins := fun hno hop => absurd hop hno
  cases hop : ins.opcode with
  | CALC =>
    have hcalc : Reports b s p r ins raw := by
      refine (reports_iff_of_run (o := ⟨0, none⟩) (t := s) ?_).mpr ?_
      · cases b <;> simp only [Build.run, run, runPaging, hop]
      · simp only [TookEffect, hop]
    rw [and_iff_right (hother (by simp [hop]))]
    cases b <;> exact iff_of_true hcalc trivial
  | ALLOC =>
    have hid := hr ins.arg1 (by simp only [Inst.regionId, hop, Option.mem_def])
    have hreports : Reports b s p r ins raw := by
      cases b with
      | cpuTlb => exact reports_tlballoc hinv hop hid hsize
      | mmPaging => exact reports_pgalloc hinv hop hid hsize
    rw [and_iff_left hreports]
    exact ⟨fun hkept => hkept hop, fun hkept _ => hkept⟩
  | FREE =>
    have hid := hr ins.arg0 (by simp only [Inst.regionId, hop, Option.mem_def])
    rw [and_iff_right (hother (by simp [hop]))]
    cases b with
    | cpuTlb => exact reports_tlbfreeData hram hinv hne hop hid
    | mmPaging => exact iff_of_true (reports_pgfreeData hram hinv hne hop hid) trivial
  | READ =>
    have hid := hr ins.arg0 (by simp only [Inst.regionId, hop, Option.mem_def])
    rw [and_iff_right (hother (by simp [hop]))]
    cases b with
    | cpuTlb => exact iff_of_true (reports_tlbread hram (hcoh rfl) hop hid) trivial
    | mmPaging => exact reports_pgread hram hinv hop hid
  | WRITE =>
    have hid := hr ins.arg1 (by simp only [Inst.regionId, hop, Option.mem_def])
    rw [and_iff_right (hother (by simp [hop]))]
    cases b with
    | cpuTlb => exact iff_of_true (reports_tlbwrite hram (hcoh rfl) hop hid) trivial
    | mmPaging => exact reports_pgwrite hram hinv hop hid

end

/-- Two frames of RAM and two slots: page 0 of region 1 is in swap, its page 1 in RAM, and one frame
is free. `FREE` of region 1 returns 0 and has freed it. -/
theorem truthful_mixed : ∃ s,
    ((definedLts .cpuTlb (Config.two 512 512)).guard StepOk).Run
      [⟨0, ⟨.ALLOC, 256, 0, 0⟩, [], ⟨0, none⟩⟩, ⟨0, ⟨.ALLOC, 512, 1, 0⟩, [], ⟨0, none⟩⟩,
        ⟨0, ⟨.ALLOC, 256, 2, 0⟩, [], ⟨0, none⟩⟩, ⟨0, ⟨.FREE, 2, 0, 0⟩, [], ⟨0, none⟩⟩] s ∧
      Swapped ((s.mm 0).pgd 1) ∧ Truthful .cpuTlb s 0 1 ⟨.FREE, 1, 0, 0⟩ [] := by
  obtain ⟨s, hrun, htest⟩ := exists_defined_run_of_runAll (Config.two 512 512) StepOk
    [⟨0, ⟨.ALLOC, 256, 0, 0⟩, [], ⟨0, none⟩⟩, ⟨0, ⟨.ALLOC, 512, 1, 0⟩, [], ⟨0, none⟩⟩,
      ⟨0, ⟨.ALLOC, 256, 2, 0⟩, [], ⟨0, none⟩⟩, ⟨0, ⟨.FREE, 2, 0, 0⟩, [], ⟨0, none⟩⟩]
    (fun s => decide (((s.mm 0).symrgtbl 1).rgStart < ((s.mm 0).symrgtbl 1).rgEnd ∧
      s.mram.freeFpList ≠ [] ∧ Swapped ((s.mm 0).pgd 1))) (by decide +kernel)
  obtain ⟨hlive, hfree, hsw⟩ := of_decide_eq_true htest
  refine ⟨s, hrun, hsw, (truthful_iff (b := .cpuTlb) (by decide) hrun (fun hop => ?_)
    fun rgid hr => ?_).mpr ⟨hlive, .inl hfree⟩⟩
  · cases hop
  · cases hr
    rfl

/-- Before that `FREE` no frame is free: `FREE` of region 1 returns 0, and the region is still in
the table. -/
theorem not_truthful_full : ∃ s,
    ((definedLts .cpuTlb (Config.two 512 512)).guard StepOk).Run
      [⟨0, ⟨.ALLOC, 256, 0, 0⟩, [], ⟨0, none⟩⟩, ⟨0, ⟨.ALLOC, 512, 1, 0⟩, [], ⟨0, none⟩⟩,
        ⟨0, ⟨.ALLOC, 256, 2, 0⟩, [], ⟨0, none⟩⟩] s ∧
      ¬ Truthful .cpuTlb s 0 1 ⟨.FREE, 1, 0, 0⟩ [] := by
  obtain ⟨s, hrun, htest⟩ := exists_defined_run_of_runAll (Config.two 512 512) StepOk
    [⟨0, ⟨.ALLOC, 256, 0, 0⟩, [], ⟨0, none⟩⟩, ⟨0, ⟨.ALLOC, 512, 1, 0⟩, [], ⟨0, none⟩⟩,
      ⟨0, ⟨.ALLOC, 256, 2, 0⟩, [], ⟨0, none⟩⟩]
    (fun s => match run s 0 ⟨.FREE, 1, 0, 0⟩ [] with
      | .ok res => decide (res.1.stat = 0 ∧ (res.2.mm 0).symrgtbl 1 ≠ ⟨0, 0⟩)
      | .error _ => false) (by decide +kernel)
  refine ⟨s, hrun, ?_⟩
  rintro ⟨-, o, t, hfree, hiff⟩
  rw [show run s 0 ⟨.FREE, 1, 0, 0⟩ [] = .ok (o, t) from hfree] at htest
  obtain ⟨h0, hleft⟩ := of_decide_eq_true htest
  exact hleft (hiff.mp h0).2.cleared

end OsSim.Mem
