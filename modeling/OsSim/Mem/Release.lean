import OsSim.Mem.Live
import OsSim.Mem.Conservation

/-!
# Freeing a live region

`__free` fetches each page of the region before it releases the frame. After the
first page there is a free frame, so only the first page can make it fail: it does
when that page is in swap and no frame of RAM is free. The victim that
`pg_getpage` has taken off the FIFO list by then is lost.

`tlbfree_data` calls `__free` after it has changed the TLB, which `__free` does not
use (`free_setTlb`): the results are about `__free` in any state of a run.

Results:
* `free_disposes`: a `__free` that returns 0 has released everything.
* `freesLive_iff`: when `__free` of a live region meets what is expected of it.
-/

namespace OsSim.Mem

open Placement Placement.Store BitField

variable {ι : Type*} [DecidableEq ι]

/-! ## What is asked for -/

/-- Region `r` of `p` has been released between `s` and `t`: its pages are gone, each frame and each
slot that held one is on its list once, and nothing else has been lost. -/
structure Disposed (s : System ι) (p : ι) (r : Fin pagingMaxSymtblSz) (t : System ι) : Prop where
  absent : ∀ k, ((s.mm p).symrgtbl r).HasPage k → ¬ Present ((t.mm p).pgd k)
  frame : ∀ k, ((s.mm p).symrgtbl r).HasPage k → Resident ((s.mm p).pgd k) →
    t.mram.freeFpList.count (pteFpn ((s.mm p).pgd k)) = 1
  slot : ∀ k, ((s.mm p).symrgtbl r).HasPage k → Present ((s.mm p).pgd k) →
    Swapped ((s.mm p).pgd k) → ∃ d : Fin pagingMaxMmswp, pteSwptyp ((s.mm p).pgd k) = d ∧
      (t.mswp d).freeFpList.count (pagingSwp ((s.mm p).pgd k)) = 1
  fifo : ∀ k, ((s.mm p).symrgtbl r).HasPage k → k ∉ (t.mm p).fifoPgn
  cleared : (t.mm p).symrgtbl r = ⟨0, 0⟩
  listed : (s.mm p).symrgtbl r ∈ (t.mm p).mmap.vmFreergList
  others : ∀ q r', (q = p → r' ≠ r) → (t.mm q).symrgtbl r' = (s.mm q).symrgtbl r' ∧
    ∀ k, ((s.mm q).symrgtbl r').HasPage k → t.page q k = s.page q k

/-- `__free` of region `r` succeeds and releases it; if it fails, nothing has changed. -/
def FreesLive (s : System ι) (p : ι) (r : Fin pagingMaxSymtblSz) : Prop :=
  (free s p r).1 = 0 ∧ Disposed s p r (free s p r).2 ∧ ((free s p r).1 = -1 → (free s p r).2 = s)

/-! ## A successful `__free` -/

section

variable {s : System ι} {p : ι}

theorem freeLoop_others (left pgn : ℕ) (s : System ι) {k : ℕ} (hk : ¬ InRange pgn left k) :
    ((freeLoop p left pgn s).2.mm p).pgd k = (s.mm p).pgd k := by
  induction left generalizing pgn s with
  | zero => rfl
  | succ left ih =>
    have hne : k ≠ pgn := fun e => hk ⟨by omega, by omega⟩
    have hrest : ¬ InRange (pgn + 1) left k := fun h =>
      hk ⟨by have := h.1; omega, by have := h.2; omega⟩
    have hget := (pgGetpage_others s p pgn).2 k hne
    unfold freeLoop
    generalize pgGetpage s p pgn = res at hget
    obtain ⟨ret, fpn, s1⟩ := res
    simp only at hget ⊢
    split_ifs
    · exact hget
    · rw [ih _ _ hrest, System.setFifo_self]
      simp only [System.setPte_self, Function.update_of_ne hne]
      exact hget

/-- `__free` changes no page table entry of another region. -/
theorem free_others (h : MmInv (s.mm p)) {r : Fin pagingMaxSymtblSz} {k : ℕ}
    (hk : ¬ ((s.mm p).symrgtbl r).HasPage k) : ((free s p r).2.mm p).pgd k = (s.mm p).pgd k := by
  have hrange := (h.live r).inRange_iff h.bound
  have hloop := freeLoop_others (p := p) (regionPages ((s.mm p).symrgtbl r))
    (pagingPgn (i32 ((s.mm p).symrgtbl r).rgStart)) s fun hin => hk ((hrange k).mp hin)
  unfold free
  simp only
  generalize freeLoop p _ _ s = res at hloop
  obtain ⟨ret, t⟩ := res
  split_ifs
  · rfl
  · exact hloop
  · rw [setFreerg_self, setSymrg_self]
    exact hloop

theorem Act.Releases.of_page {a : Act} {P : ℕ → Prop} {k : ℕ} (h : a.Releases P)
    (hk : a.page = some k) : P k := by
  cases a with
  | map => exact absurd h id
  | release pgn fpn =>
    cases hk
    exact h
  | _ => cases hk

theorem MemMoves.covers {P : Act → Prop} {t : System ι} {frames slots : ℤ} (h : MemMoves p P s t)
    (hg : ∀ a, P a → a.Good) (hframes : frames ≤ 8192) (ho : Owned frames slots ⟨[], s⟩)
    {V : Loc → Prop} (hc : Covers V (Work.mk [] s).store) : Covers V (Work.mk [] t).store := by
  obtain ⟨u, v, hm⟩ := h
  exact hm.covers hg hframes (ho.setTlb u) hc

variable {c : Config ι}

/-- A `__free` that returns 0 has released the region and nothing else. -/
theorem free_disposes (hram : numfp c.ramSz ≤ 8192) (h : LiveInv c s) {r : Fin pagingMaxSymtblSz}
    (hlive : ((s.mm p).symrgtbl r).rgStart < ((s.mm p).symrgtbl r).rgEnd)
    (h0 : (free s p r).1 = 0) : Disposed s p r (free s p r).2 := by
  obtain ⟨tlb, hf⟩ := free_freed (h.proc p) r
  have hm : MemMoves p (fun a => a.Releases ((s.mm p).symrgtbl r).HasPage ∧
      (FramesOk s → a.Good)) s (free s p r).2 := ⟨tlb, tlb, hf.moves⟩
  have hgood : ∀ a : Act, a.Releases ((s.mm p).symrgtbl r).HasPage ∧ (FramesOk s → a.Good) →
      a.Good := fun a ha => ha.2 (h.owned.framesOk hram)
  have hspace : Paged p (s.setMm p ((s.mm p).setRegions (enlistVmFreergList
      (s.mm p).mmap.vmFreergList ((s.mm p).symrgtbl r)) r ⟨0, 0⟩)) (free s p r).2 := by
    obtain ⟨hneg, -⟩ | ⟨-, hpaged⟩ := free_space s p r
    · rw [h0] at hneg
      cases hneg
    · exact hpaged
  have hpgd := fun k (hk : ¬ ((s.mm p).symrgtbl r).HasPage k) => free_others (h.proc p).mm hk
  have hmm : MmInv ((free s p r).2.mm p) := hf.ok.mm
  have howned := hm.owned hgood hram h.owned
  have hframe := hm.frame
  have hpage := fun q k => hm.page_eq (q := q) (k := k) hgood hram h.owned
  -- what was used before is not lost
  have hcov := hm.covers hgood hram h.owned (V := fun l => ∃ key,
    (Work.mk [] s).store.loc key = some l) fun l hl => .inr hl
  generalize (free s p r).2 = t at hspace hpgd hmm howned hframe hpage hcov
  obtain ⟨hmmap, -, hsym⟩ := hspace.space
  rw [System.setMm_self] at hmmap hsym
  have hlisted : (s.mm p).symrgtbl r ∈ (t.mm p).mmap.vmFreergList := by
    rw [hmmap]
    simp [Mm.setRegions, enlistVmFreergList, not_le.mpr hlive]
  have habsent : ∀ k, ((s.mm p).symrgtbl r).HasPage k → ¬ Present ((t.mm p).pgd k) :=
    fun k hk => hmm.free_absent k ⟨_, hlisted, hk⟩
  have hfreed : ∀ k l, ((s.mm p).symrgtbl r).HasPage k →
      (Work.mk [] s).store.loc (p, k) = some l → l ∈ (Work.mk [] t).store.free := by
    intro k l hk hl
    refine (hcov l ⟨_, hl⟩).resolve_right ?_
    rintro ⟨⟨q, j⟩, hj⟩
    have hloc : q = p → ((s.mm p).symrgtbl r).HasPage j →
        (Work.mk [] t).store.loc (q, j) = none := by
      rintro rfl hreg
      exact pteLoc_of_not_present (habsent j hreg)
    by_cases hq : q = p ∧ ((s.mm p).symrgtbl r).HasPage j
    · rw [hloc hq.1 hq.2] at hj
      cases hj
    · -- the other pages are where they were
      have hsame : (Work.mk [] t).store.loc (q, j) = (Work.mk [] s).store.loc (q, j) := by
        simp only [Work.store]
        by_cases hqp : q = p
        · subst hqp
          rw [hpgd j fun hreg => hq ⟨rfl, hreg⟩]
        · rw [hframe.mm q hqp]
      rw [hsame] at hj
      obtain ⟨rfl, rfl⟩ := Prod.mk.inj (h.owned.exclusive.inj _ _ _ hj hl)
      exact hq ⟨rfl, hk⟩
  have hnodup := howned.exclusive.nodup
  simp only [Work.store, List.nil_append] at hnodup
  rw [List.nodup_append] at hnodup
  refine ⟨habsent, fun k hk hres => ?_, fun k hk hp hsw => ?_, fun k hk hin => ?_, ?_, hlisted,
    fun q r' hne => ⟨?_, fun k hk => hpage q k ?_⟩⟩
  · have hmem := hfreed k _ hk (pteLoc_of_resident hres)
    simp only [Work.store, List.nil_append, List.mem_append, List.mem_map] at hmem
    refine List.count_eq_one_of_mem (hnodup.1.of_map _) ?_
    obtain ⟨fpn, hmem, heq⟩ | ⟨off, -, heq⟩ := hmem
    · cases heq
      exact hmem
    · cases heq
  · have hl := pteLoc_of_swapped hp hsw
    have htyp := (h.owned.within.used (p, k) _ hl).1
    have hmem := hfreed k _ hk hl
    simp only [Work.store, List.nil_append, List.mem_append, List.mem_map] at hmem
    refine ⟨0, htyp, List.count_eq_one_of_mem (hnodup.2.1.of_map _) ?_⟩
    obtain ⟨fpn, -, heq⟩ | ⟨off, hmem, heq⟩ := hmem
    · cases heq
    · injection heq with _ heq
      exact heq ▸ hmem
  · exact habsent k hk (hmm.fifo_resident k hin).1
  · rw [hsym]
    exact Function.update_self ..
  · by_cases hq : q = p
    · subst hq
      rw [hsym]
      exact Function.update_of_ne (hne rfl) ..
    · rw [hframe.mm q hq]
  · rintro rfl a ha hak
    exact (h.proc q).mm.live_apart r' r (hne rfl) k hk (ha.1.of_page hak)

omit [DecidableEq ι] in
/-- `PAGING_PGN(rg_start)` of a live region. -/
theorem pagingPgn_start (h : MmInv (s.mm p)) {r : Fin pagingMaxSymtblSz}
    (hlive : ((s.mm p).symrgtbl r).rgStart < ((s.mm p).symrgtbl r).rgEnd) :
    pagingPgn (i32 ((s.mm p).symrgtbl r).rgStart) = ((s.mm p).symrgtbl r).rgStart / 256 := by
  have hend := (h.live r).bound
  have hbrk := h.bound
  rw [i32_natCast (by omega), pagingPgn_natCast (by omega)]

/-- `__free` of a live region fails only at the first page. -/
theorem free_live_status (h : LiveInv c s) {r : Fin pagingMaxSymtblSz}
    (hlive : ((s.mm p).symrgtbl r).rgStart < ((s.mm p).symrgtbl r).rgEnd) :
    (free s p r).1 = 0 ↔ s.mram.freeFpList ≠ [] ∨
      Resident ((s.mm p).pgd (((s.mm p).symrgtbl r).rgStart / 256)) := by
  have hmm := (h.proc p).mm
  have hrange := (hmm.live r).inRange_iff hmm.bound
  have hfirst : ((s.mm p).symrgtbl r).HasPage (((s.mm p).symrgtbl r).rgStart / 256) :=
    VmRg.hasPage_of_byte le_rfl hlive
  have hstatus := free_status s p r
  rw [pagingPgn_start hmm hlive] at hstatus hrange
  rw [hstatus]
  constructor
  · rintro ⟨-, -, hall | ⟨-, hroom⟩⟩
    · exact .inr (hall _ ((hrange _).mpr hfirst))
    · exact hroom
  · intro hroom
    exact ⟨by omega, fun k hk => h.live p r k ((hrange k).mp hk),
      .inr ⟨h.ram (h.live p r _ hfirst), hroom⟩⟩

/-- In either build, in every state of a run whose steps are `StepOk`: `__free` of a live region
succeeds and releases it exactly if a frame of RAM is free or the first page is in RAM. -/
theorem freesLive_iff (hram : numfp c.ramSz ≤ 8192) {b : Build} {tr : List (Label ι)}
    (h : ((buildLts b c).guard StepOk).Run tr s) {r : Fin pagingMaxSymtblSz}
    (hlive : ((s.mm p).symrgtbl r).rgStart < ((s.mm p).symrgtbl r).rgEnd) :
    FreesLive s p r ↔ s.mram.freeFpList ≠ [] ∨
      Resident ((s.mm p).pgd (((s.mm p).symrgtbl r).rgStart / 256)) := by
  have hinv := (liveInv_of_run hram h).1
  have hstatus := free_live_status hinv hlive
  constructor
  · rintro ⟨h0, -, -⟩
    exact hstatus.mp h0
  · intro hroom
    have h0 := hstatus.mpr hroom
    refine ⟨h0, free_disposes hram hinv hlive h0, fun hneg => ?_⟩
    rw [h0] at hneg
    cases hneg

end

/-- Two frames of RAM and two slots: page 0 of region 1 is in swap, its page 1 and region 2 are in
RAM. Once region 2 has been freed, so can be region 1. -/
theorem freesLive_mixed : ∃ s,
    ((buildLts .cpuTlb (Config.two 512 512)).guard StepOk).Run
      [⟨0, ⟨.ALLOC, 256, 0, 0⟩, [], ⟨0, none⟩⟩, ⟨0, ⟨.ALLOC, 512, 1, 0⟩, [], ⟨0, none⟩⟩,
        ⟨0, ⟨.ALLOC, 256, 2, 0⟩, [], ⟨0, none⟩⟩, ⟨0, ⟨.FREE, 2, 0, 0⟩, [], ⟨0, none⟩⟩] s ∧
      Swapped ((s.mm 0).pgd 1) ∧ Resident ((s.mm 0).pgd 2) ∧ FreesLive s 0 1 := by
  obtain ⟨s, hrun, htest⟩ := exists_run_of_runAll (Config.two 512 512) StepOk
    [⟨0, ⟨.ALLOC, 256, 0, 0⟩, [], ⟨0, none⟩⟩, ⟨0, ⟨.ALLOC, 512, 1, 0⟩, [], ⟨0, none⟩⟩,
      ⟨0, ⟨.ALLOC, 256, 2, 0⟩, [], ⟨0, none⟩⟩, ⟨0, ⟨.FREE, 2, 0, 0⟩, [], ⟨0, none⟩⟩]
    (fun s => decide (((s.mm 0).symrgtbl 1).rgStart < ((s.mm 0).symrgtbl 1).rgEnd ∧
      s.mram.freeFpList ≠ [] ∧ Swapped ((s.mm 0).pgd 1) ∧ Resident ((s.mm 0).pgd 2)))
    (by decide +kernel)
  obtain ⟨hlive, hfree, hsw, hres⟩ := of_decide_eq_true htest
  exact ⟨s, hrun, hsw, hres,
    (freesLive_iff (b := .cpuTlb) (by decide) hrun hlive).mpr (.inl hfree)⟩

/-- Before that `FREE` no frame is free: `__free` of region 1 fails. -/
theorem not_freesLive_full : ∃ s,
    ((buildLts .cpuTlb (Config.two 512 512)).guard StepOk).Run
      [⟨0, ⟨.ALLOC, 256, 0, 0⟩, [], ⟨0, none⟩⟩, ⟨0, ⟨.ALLOC, 512, 1, 0⟩, [], ⟨0, none⟩⟩,
        ⟨0, ⟨.ALLOC, 256, 2, 0⟩, [], ⟨0, none⟩⟩] s ∧
      ((s.mm 0).symrgtbl 1).rgStart < ((s.mm 0).symrgtbl 1).rgEnd ∧ ¬ FreesLive s 0 1 := by
  obtain ⟨s, hrun, htest⟩ := exists_run_of_runAll (Config.two 512 512) StepOk
    [⟨0, ⟨.ALLOC, 256, 0, 0⟩, [], ⟨0, none⟩⟩, ⟨0, ⟨.ALLOC, 512, 1, 0⟩, [], ⟨0, none⟩⟩,
      ⟨0, ⟨.ALLOC, 256, 2, 0⟩, [], ⟨0, none⟩⟩]
    (fun s => decide (((s.mm 0).symrgtbl 1).rgStart < ((s.mm 0).symrgtbl 1).rgEnd ∧
      (free s 0 1).1 = -1)) (by decide +kernel)
  obtain ⟨hlive, hfail⟩ := of_decide_eq_true htest
  refine ⟨s, hrun, hlive, fun h => ?_⟩
  have h0 := h.1
  rw [hfail] at h0
  cases h0

end OsSim.Mem
