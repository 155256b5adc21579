import OsSim.Mem.Space

/-!
# The instructions as moves

`ALLOC` with a size between 1 and `2^22` that keeps the break within `2^22`,
`FREE`, `READ` and `WRITE` are sequences of moves, the last followed by a write
to RAM.

Results:
* `alloc_moves`, `tlballoc_moves`: allocation maps pages that were absent. If it
  succeeds they are resident and make up the region; if it fails, the region id
  keeps its region or is cleared.
* `tlbfreeData_moves`: `FREE` releases pages of its region only.
* `tlbFrame_moves`: an access gets a resident page.
-/

namespace OsSim.Mem

open BitField

variable {ι : Type*} [DecidableEq ι]

/-! ## The TLB loops -/

theorem tlbCachePages_moves (p : ι) (left pgn : ℕ) (s : System ι)
    (hres : ∀ k, InRange pgn left k → Resident ((s.mm p).pgd k)) (hlt : pgn + left ≤ 2 ^ 14) :
    ∃ tlb, tlbCachePages p left pgn s = (0, { s with tlb := tlb }) ∧
      Moves p (fun a => a.page = none ∧ a.Good) ⟨[], s⟩ ⟨[], { s with tlb := tlb }⟩ := by
  induction left generalizing pgn s with
  | zero => exact ⟨s.tlb, rfl, .refl _⟩
  | succ left ih =>
    have h0 : Resident ((s.mm p).pgd pgn) := hres pgn ⟨le_rfl, by omega⟩
    have hget : pgGetpage s p pgn = (0, pteFpn ((s.mm p).pgd pgn), s) := by
      unfold pgGetpage
      simp [h0.1, h0.2]
    have hlo := pteFpn_nonneg ((s.mm p).pgd pgn)
    have hhi := pteFpn_lt ((s.mm p).pgd pgn)
    unfold tlbCachePages
    simp only [hget, ne_eq, not_true_eq_false, if_false,
      show pteFpn ((s.mm p).pgd pgn) ≠ -1 by omega]
    obtain ⟨tlb, heq, hm⟩ := ih (pgn + 1)
      { s with tlb := tlbCacheWrite s.tlb (s.pidInt p) pgn (pteFpn ((s.mm p).pgd pgn)) }
      (fun k hk => hres k ⟨by have := hk.1; omega, by have := hk.2; omega⟩) (by omega)
    exact ⟨tlb, heq, .cons (.cache h0 (Int.emod_eq_of_lt hlo hhi) (by omega)) ⟨rfl, trivial⟩ hm⟩

theorem tlbFreePages_moves (p : ι) (left pgn : ℕ) (s : System ι) (hu : TlbUnique s.tlb) :
    let tlb := tlbFreePages (s.pidInt p) left pgn s.tlb
    Moves p (fun a => a.page = none ∧ a.Good) ⟨[], s⟩ ⟨[], { s with tlb := tlb }⟩ ∧
      (∀ k, Uncached s p k → Uncached { s with tlb := tlb } p k) ∧
      ∀ k, InRange pgn left k → Uncached { s with tlb := tlb } p k := by
  induction left generalizing pgn s with
  | zero => exact ⟨.refl _, fun _ h => h, fun k hk => absurd hk.2 (by have := hk.1; omega)⟩
  | succ left ih =>
    obtain ⟨hu', hleft⟩ := tlbCacheInvalidate_spec hu (Int.natCast_nonneg pgn) (s.pidInt p)
    obtain ⟨hm, hkeep, hall⟩ :=
      ih (pgn + 1) { s with tlb := (tlbCacheInvalidate s.tlb (s.pidInt p) pgn).2 } hu'
    refine ⟨.cons (.uncache pgn) ⟨rfl, trivial⟩ hm, fun k hk => hkeep k fun e he hv => ?_,
      fun k hk => ?_⟩
    · exact hk e (hleft e he hv).1 hv
    · by_cases e : k = pgn
      · exact hkeep k fun e' he hv => e ▸ (hleft e' he hv).2
      · exact hall k ⟨by have := hk.1; omega, by have := hk.2; omega⟩

/-! ## `__alloc` -/

/-- An allocation of `n` bytes leaves the break within `2^22`: a free region fits, or the break
can be raised. -/
def BreakOk (mm : Mm) (n : ℕ) : Prop :=
  (∃ rg ∈ mm.mmap.vmFreergList, rg.rgStart + alignedSize n ≤ rg.rgEnd) ∨
    mm.mmap.sbrk + alignedSize n ≤ 2 ^ 22

instance (mm : Mm) (n : ℕ) : Decidable (BreakOk mm n) := inferInstanceAs (Decidable (_ ∨ _))

/-- How an allocation of `n` bytes for region `r` ends. -/
inductive AllocEnd (n : ℕ) (r : Fin pagingMaxSymtblSz) (mm : Mm) (stat addr : ℤ) (mm' : Mm) : Prop
  | mapped (rg : VmRg) : stat = 0 → addr = rg.rgStart →
      mm'.symrgtbl = Function.update mm.symrgtbl r rg → rg.rgStart + n ≤ rg.rgEnd →
      rg.rgEnd ≤ rg.rgStart + alignedSize n →
      (∀ pgn, rg.HasPage pgn → ¬ Present (mm.pgd pgn) ∧ Resident (mm'.pgd pgn)) →
      AllocEnd n r mm stat addr mm'
  | failed : stat = -1 →
      (mm'.symrgtbl = mm.symrgtbl ∨ mm'.symrgtbl = Function.update mm.symrgtbl r ⟨0, 0⟩) →
      AllocEnd n r mm stat addr mm'

/-- The page is absent and in no region of the symbol table. -/
def Fresh (mm : Mm) (pgn : ℕ) : Prop :=
  ¬ Present (mm.pgd pgn) ∧ ∀ r, ¬ (mm.symrgtbl r).HasPage pgn

/-- What `__alloc` does. -/
structure Allocated (p : ι) (r : Fin pagingMaxSymtblSz) (n : ℕ) (s : System ι)
    (res : ℤ × ℤ × System ι) : Prop where
  moves : Moves p (fun a => a.Maps (Fresh (s.mm p)) ∧
    (FramesEnough s p (alignedSize n / 256) → a.Good)) ⟨[], s⟩ ⟨[], res.2.2⟩
  ok : ProcOk res.2.2 p
  present : ∀ pgn, Present ((s.mm p).pgd pgn) → Present ((res.2.2.mm p).pgd pgn)
  ending : AllocEnd n r (s.mm p) res.1 res.2.1 (res.2.2.mm p)

/-- The moves of an allocation after changes of the regions. -/
theorem Mapping.moves_of_space {p : ι} {base n : ℕ} {s : System ι} {mm : Mm} {r : ℤ × System ι}
    (h : Mapping p base n (s.setMm p mm) r) (hpgd : mm.pgd = (s.mm p).pgd)
    (hfifo : mm.fifoPgn = (s.mm p).fifoPgn)
    (hmap : ∀ pgn, InRange base n pgn → Fresh (s.mm p) pgn) :
    Moves p (fun a => a.Maps (Fresh (s.mm p)) ∧ (FramesEnough s p n → a.Good)) ⟨[], s⟩
      ⟨[], r.2⟩ := by
  refine .cons (.space hpgd) ⟨trivial, fun _ => trivial⟩
    (h.moves.mono fun a ha => ⟨ha.1.mono hmap, fun he => ha.2 ?_⟩)
  unfold FramesEnough at he ⊢
  rw [System.setMm_self, hfifo]
  exact he

/-- The number of pages that `__alloc` computes for a free region of the size it needs. -/
theorem pages_of_end {rg : VmRg} {n : ℕ} (hn : n ≤ 2 ^ 22)
    (hend : rg.rgEnd = rg.rgStart + alignedSize n) :
    (pagingPageAlignsz (i32 ((rg.rgEnd : ℤ) - rg.rgStart))).tdiv pagingPagesz =
      ((alignedSize n / 256 : ℕ) : ℤ) := by
  have hsz := alignedSize_le hn
  have hdiff : i32 ((rg.rgEnd : ℤ) - rg.rgStart) = alignedSize n := by
    rw [hend]
    push_cast
    rw [add_sub_cancel_left, i32_natCast (by omega)]
  rw [hdiff, pagingPageAlignsz_natCast hsz, alignedSize_of_dvd (dvd_alignedSize n)]
  rfl

/-- A region whose pages are taken off the free list enters the symbol table. -/
theorem MmInv.carve {mm : Mm} (h : MmInv mm) (r : Fin pagingMaxSymtblSz) {rg : VmRg}
    {rgs : List VmRg} (hr : RegionsApart mm.mmap.sbrk rgs)
    (hsub : ∀ pgn, HasPages rgs pgn → HasPages mm.mmap.vmFreergList pgn)
    (hbelow : rg.Below mm.mmap.sbrk)
    (hpage : ∀ pgn, rg.HasPage pgn → HasPages mm.mmap.vmFreergList pgn ∧ ¬ HasPages rgs pgn) :
    MmInv { mm with
      mmap := { mm.mmap with vmFreergList := rgs }
      symrgtbl := Function.update mm.symrgtbl r rg } :=
  (h.setFree hr hsub).setLive rg r hbelow
    (fun r' _ pgn hp hp' => h.live_free r' pgn hp' (hpage pgn hp).1) fun pgn hp => (hpage pgn hp).2

/-- A region for which no frames were found goes back to the free list. -/
theorem MmInv.putBack {mm : Mm} (h : MmInv mm) (r : Fin pagingMaxSymtblSz)
    (habs : ∀ pgn, (mm.symrgtbl r).HasPage pgn → ¬ Present (mm.pgd pgn)) :
    MmInv (mm.putBack r (mm.symrgtbl r)) :=
  { h.retire r habs with }

/-- `__alloc` when a free region fits. -/
theorem allocFreerg_moves {s : System ι} {p : ι} (h : ProcOk s p) (r : Fin pagingMaxSymtblSz) {n : ℕ}
    (hn : n ≤ 2 ^ 22) (raw : List ℤ) {rg : VmRg} {rgs : List VmRg}
    (hr : RegionsApart (s.mm p).mmap.sbrk rgs)
    (hsub : ∀ pgn, HasPages rgs pgn → HasPages (s.mm p).mmap.vmFreergList pgn)
    (hbelow : rg.Below (s.mm p).mmap.sbrk) (hend : rg.rgEnd = rg.rgStart + alignedSize n)
    (hpage : ∀ pgn, rg.HasPage pgn →
      HasPages (s.mm p).mmap.vmFreergList pgn ∧ ¬ HasPages rgs pgn) :
    Allocated p r n s (allocFreerg (setFreerg s p rgs) p r rg raw) := by
  have hle := le_alignedSize n
  have hsz := alignedSize_le hn
  have hbound := h.mm.bound
  have hb := hbelow.bound
  have hrange := hbelow.inRange_iff hbound
  have hpages := pages_of_end hn hend
  have hcount : regionPages rg = alignedSize n / 256 := by
    rw [regionPages, hpages, Int.toNat_natCast]
  rw [hcount] at hrange
  have habsent : ∀ pgn, rg.HasPage pgn → ¬ Present ((s.mm p).pgd pgn) :=
    fun pgn hp => h.mm.free_absent pgn (hpage pgn hp).1
  have hinv := h.mm.carve r hr hsub hbelow hpage
  have hmap := vmMapRam_moves (s.setMm p { s.mm p with
      mmap := { (s.mm p).mmap with vmFreergList := rgs }
      symrgtbl := Function.update (s.mm p).symrgtbl r rg }) p (i32 rg.rgStart)
    (alignedSize n / 256) raw ⟨by simpa using hinv, h.slots⟩ fun k hk => by
      have hp := (hrange k).mp hk
      rw [System.setMm_self]
      exact ⟨habsent k hp, (hpage k hp).2, hbelow.page_lt hp⟩
  unfold allocFreerg
  simp only [setSymrg_setFreerg, setSymrg_setMm, hpages]
  generalize vmMapRam _ p _ _ raw = res at hmap
  obtain ⟨ret, s3⟩ := res
  have hmoves := hmap.moves_of_space rfl rfl fun pgn hk => ⟨habsent pgn ((hrange pgn).mp hk),
    fun r' hp => h.mm.live_free r' pgn hp (hpage pgn ((hrange pgn).mp hk)).1⟩
  obtain ⟨-, hok, hmmap, hsym, hkeep, hstatus⟩ := hmap
  simp only [System.setMm_self] at hmmap hsym hkeep hstatus hok hmoves ⊢
  have hpresent : ∀ pgn, Present ((s.mm p).pgd pgn) → Present ((s3.mm p).pgd pgn) := by
    intro pgn hp
    refine (hkeep pgn fun hk => ?_).mpr hp
    exact habsent pgn ((hrange pgn).mp hk) hp
  obtain ⟨rfl, hres⟩ | ⟨rfl, habs⟩ := hstatus
  · rw [if_neg (by decide)]
    have haddr : i32 (rg.rgStart : ℤ) = rg.rgStart := i32_natCast (by omega)
    refine ⟨hmoves, hok, hpresent, .mapped rg rfl ?_ hsym (by omega) (by omega)
      fun pgn hp => ⟨habsent pgn hp, hres pgn ((hrange pgn).mpr hp)⟩⟩
    simp only [haddr]
  · -- the frames cannot be had: the region goes back to the free list
    rw [if_pos (by decide)]
    have hrg : (s3.mm p).symrgtbl r = rg := by rw [hsym, Function.update_self]
    have hret := hok.mm.putBack r fun pgn hp => habs pgn ((hrange pgn).mpr (hrg ▸ hp))
    rw [hrg] at hret
    refine ⟨hmoves.trans (.single (.space rfl) ⟨trivial, fun _ => trivial⟩),
      ⟨by rw [System.setMm_self]; exact hret, hok.slots⟩, by simpa using hpresent,
      .failed rfl (.inr ?_)⟩
    simp [hsym]

/-- `__alloc` when the break is raised. -/
theorem allocSbrk_moves {s : System ι} {p : ι} (h : ProcOk s p) (r : Fin pagingMaxSymtblSz) {n : ℕ}
    (hn1 : 1 ≤ n) (hn : n ≤ 2 ^ 22) (hbrk : (s.mm p).mmap.sbrk + alignedSize n ≤ 2 ^ 22)
    (raw : List ℤ) {rgs : List VmRg}
    (hr : RegionsApart (s.mm p).mmap.sbrk rgs)
    (hsub : ∀ pgn, HasPages rgs pgn → HasPages (s.mm p).mmap.vmFreergList pgn) :
    Allocated p r n s (allocSbrk (setFreerg s p rgs) p r n raw) := by
  have hle := le_alignedSize n
  have hal := h.mm.aligned
  have hdvd := dvd_alignedSize n
  have hfree := h.mm.setFree hr hsub
  have hgrow := hfree.grow hdvd hbrk
  -- the pages between the old break and the new one
  have hrange : ∀ k, InRange (pagingPgn ((s.mm p).mmap.sbrk : ℤ)) (alignedSize n / 256) k ↔
      (s.mm p).mmap.sbrk ≤ k * 256 ∧ k * 256 < (s.mm p).mmap.sbrk + alignedSize n := by
    intro k
    rw [pagingPgn_natCast (by omega)]
    unfold InRange
    omega
  have habsent : ∀ k, InRange (pagingPgn ((s.mm p).mmap.sbrk : ℤ)) (alignedSize n / 256) k →
      ¬ Present ((s.mm p).pgd k) := fun k hk => h.mm.above_absent k ((hrange k).mp hk).1
  have hnotFree : ∀ k, (s.mm p).mmap.sbrk ≤ k * 256 → ¬ HasPages rgs k := by
    rintro k hk ⟨rg, hm, hp⟩
    have := (hr.below rg hm).page_lt hp
    omega
  have hmap := vmMapRam_moves (s.setMm p (Mm.raise { s.mm p with mmap := { (s.mm p).mmap with
      vmFreergList := rgs } } (alignedSize n))) p (s.mm p).mmap.sbrk
    (alignedSize n / 256) raw ⟨by rw [System.setMm_self]; exact hgrow, h.slots⟩ fun k hk => by
      rw [System.setMm_self]
      exact ⟨habsent k hk, hnotFree k ((hrange k).mp hk).1, ((hrange k).mp hk).2⟩
  have heq := allocSbrk_eq (s := setFreerg s p rgs) (p := p) (by simpa using hfree.spaceInv) r hn1
    (by rw [setFreerg_self]; exact lt_of_le_of_lt hbrk (by norm_num)) raw
  rw [setFreerg_self, setFreerg, System.setMm_setMm, ← setFreerg] at heq
  rw [heq]
  generalize vmMapRam _ p _ _ raw = res at hmap
  obtain ⟨ret, s3⟩ := res
  have hmoves := hmap.moves_of_space rfl rfl fun k hk => ⟨habsent k hk, fun r' hp => by
    have := (h.mm.live r').page_lt hp
    have := ((hrange k).mp hk).1
    omega⟩
  obtain ⟨-, hok, hmmap, hsym, hkeep, hstatus⟩ := hmap
  simp only [System.setMm_self, Mm.raise] at hmmap hsym hkeep hstatus hok hmoves ⊢
  have hpresent : ∀ k, Present ((s.mm p).pgd k) → Present ((s3.mm p).pgd k) :=
    fun k hp => (hkeep k fun hk => habsent k hk hp).mpr hp
  obtain ⟨rfl, hres⟩ | ⟨rfl, habs⟩ := hstatus
  · have hbrk3 : (s3.mm p).mmap.sbrk = (s.mm p).mmap.sbrk + alignedSize n := by rw [hmmap]
    have hpg : ∀ k, VmRg.HasPage ⟨(s.mm p).mmap.sbrk, (s.mm p).mmap.sbrk + n⟩ k →
        InRange (pagingPgn ((s.mm p).mmap.sbrk : ℤ)) (alignedSize n / 256) k := by
      rintro k ⟨h1, h2, h3⟩
      refine (hrange k).mpr ⟨?_, ?_⟩ <;> simp only at h1 h2 h3 <;> omega
    rw [if_neg (by decide)]
    have hlive := hok.mm.setLive ⟨(s.mm p).mmap.sbrk, (s.mm p).mmap.sbrk + n⟩ r
      ⟨by simp, fun _ => hal, by simp only [hbrk3]; omega⟩
      (fun r' _ k hp hp' => by
        rw [hsym] at hp'
        have := (h.mm.live r').page_lt hp'
        have := ((hrange k).mp (hpg k hp)).1
        omega)
      fun k hp => by
        rw [hmmap]
        exact hnotFree k ((hrange k).mp (hpg k hp)).1
    refine ⟨hmoves.trans (.single (.space rfl) ⟨trivial, fun _ => trivial⟩),
      ⟨by simpa using hlive, hok.slots⟩, by simpa using hpresent,
      .mapped ⟨(s.mm p).mmap.sbrk, (s.mm p).mmap.sbrk + n⟩ rfl rfl (by simp [hsym]) le_rfl
        (by simp only; omega) fun k hp => ⟨habsent k (hpg k hp), ?_⟩⟩
    simpa using hres k (hpg k hp)
  · rw [if_pos (by decide)]
    exact ⟨hmoves, hok, hpresent, .failed rfl (.inl hsym)⟩

theorem alloc_moves {s : System ι} {p : ι} (h : ProcOk s p) (r : Fin pagingMaxSymtblSz) {n : ℕ}
    (hn1 : 1 ≤ n) (hn : n ≤ 2 ^ 22) (hbrk : BreakOk (s.mm p) n) (raw : List ℤ) :
    ∃ res, alloc s p r (n : ℤ) raw = .ok res ∧ Allocated p r n s res := by
  have hle := le_alignedSize n
  obtain ⟨newrg, rgs, heq, hr, hsub, hfit, hnew⟩ := getFreeVmrgArea_spec h.mm.bound
    (by omega) (alignedSize_le hn) (dvd_alignedSize n) h.mm.free
  unfold alloc
  rw [pagingPageAlignsz_natCast hn, heq]
  cases newrg with
  | some rg =>
    obtain ⟨hb, hend, hp⟩ := hnew rg rfl
    exact ⟨_, rfl, allocFreerg_moves h r hn raw hr hsub hb hend hp⟩
  | none =>
    have hgrow := hbrk.resolve_left fun hex => by simpa using hfit.mpr hex
    exact ⟨_, rfl, allocSbrk_moves h r hn1 hn hgrow raw hr hsub⟩

/-! ## `tlballoc` -/

/-- What `ALLOC` does. -/
structure TlbAllocated (p : ι) (r : Fin pagingMaxSymtblSz) (n : ℕ) (s : System ι)
    (res : ℤ × System ι) : Prop where
  moves : Moves p (fun a => a.Maps (Fresh (s.mm p)) ∧
    (FramesEnough s p (alignedSize n / 256) → a.Good)) ⟨[], s⟩ ⟨[], res.2⟩
  ok : ProcOk res.2 p
  present : ∀ pgn, Present ((s.mm p).pgd pgn) → Present ((res.2.mm p).pgd pgn)
  ending : ∃ addr, AllocEnd n r (s.mm p) res.1 addr (res.2.mm p)

/-- The pages that `tlballoc` caches are those of the new region. -/
theorem inRange_alloc {n sbrk : ℕ} {rg : VmRg} (hn1 : 1 ≤ n) (hb : rg.Below sbrk)
    (hs : sbrk ≤ 2 ^ 22) (h1 : rg.rgStart + n ≤ rg.rgEnd)
    (h2 : rg.rgEnd ≤ rg.rgStart + alignedSize n) (k : ℕ) :
    InRange (pagingPgn (rg.rgStart : ℤ)) (alignedSize n / 256) k ↔ rg.HasPage k := by
  have hal := hb.aligned (by omega)
  have hbound := hb.bound
  rw [pagingPgn_natCast (by omega)]
  unfold InRange VmRg.HasPage
  unfold alignedSize at *
  omega

/-- The region of a region id inside the table, where the code does not test it. -/
theorem symrgIndex_eq {rgid : BitVec 32} (hid : rgid.toNat < pagingMaxSymtblSz) :
    symrgIndex (argInt rgid) = .ok ⟨rgid.toNat, hid⟩ := by
  have hid' : rgid.toNat < 30 := hid
  rw [argInt_eq (by omega), symrgIndex, dif_pos ⟨by omega, by simpa using hid⟩]
  rfl

theorem allocRgid_eq {rgid : BitVec 32} (hid : rgid.toNat < pagingMaxSymtblSz) (s : System ι)
    (p : ι) (size : ℤ) (raw : List ℤ) :
    allocRgid s p (argInt rgid) size raw = alloc s p ⟨rgid.toNat, hid⟩ size raw := by
  unfold allocRgid
  simp only [symrgIndex_eq hid]

theorem lt_of_symrgIndex {rgid : BitVec 32} {r : Fin pagingMaxSymtblSz}
    (h : symrgIndex (argInt rgid) = .ok r) : rgid.toNat < pagingMaxSymtblSz := by
  unfold symrgIndex at h
  split_ifs at h with h1
  have h2 := h1.2
  rwa [argInt_of_nonneg h1.1, Int.toNat_natCast] at h2

/-- For a region id outside the table `__alloc` returns only if it fails, and as it fails for any
other. -/
theorem allocOutside_spec {s s' : System ι} {p : ι} {size ret addr : ℤ} {raw : List ℤ}
    (h : allocOutside s p size raw = .ok (ret, addr, s')) (r : Fin pagingMaxSymtblSz) :
    ret = -1 ∧ alloc s p r size raw = .ok (ret, addr, s') := by
  unfold allocOutside at h
  unfold alloc allocSbrk
  cases hget : getFreeVmrgArea (s.mm p).mmap.vmFreergList (pagingPageAlignsz size) with
  | none =>
    rw [hget] at h
    cases h
  | some res =>
    obtain ⟨_ | rgnode, freerg⟩ := res
    · simp only [hget] at h ⊢
      split_ifs at h with hret
      cases h
      exact ⟨rfl, by rw [if_pos hret]⟩
    · simp only [hget] at h
      cases h

/-- `tlballoc` returns as for a region id inside the table, which is the given one on success. -/
theorem tlballoc_inside {s s' : System ι} {p : ι} {size regIndex : BitVec 32} {raw : List ℤ}
    {stat : ℤ} (h : tlballoc s p size regIndex raw = .ok (stat, s')) :
    ∃ rgid : BitVec 32, rgid.toNat < pagingMaxSymtblSz ∧ (stat = 0 → rgid = regIndex) ∧
      tlballoc s p size rgid raw = .ok (stat, s') := by
  cases hr : symrgIndex (argInt regIndex) with
  | ok r => exact ⟨regIndex, lt_of_symrgIndex hr, fun _ => rfl, h⟩
  | error e =>
    have hzero : (0 : BitVec 32).toNat < pagingMaxSymtblSz := by decide
    unfold tlballoc at h ⊢
    rw [show allocRgid s p (argInt regIndex) (argInt size) raw =
      allocOutside s p (argInt size) raw by rw [allocRgid, hr]] at h
    cases halloc : allocOutside s p (argInt size) raw with
    | error e => simp [halloc] at h
    | ok res =>
      obtain ⟨ret, addr, s1⟩ := res
      obtain ⟨rfl, heq⟩ := allocOutside_spec halloc ⟨_, hzero⟩
      simp only [halloc] at h
      rw [if_pos (by decide)] at h
      cases h
      refine ⟨0, hzero, fun h0 => absurd h0 (by decide), ?_⟩
      simp only [allocRgid_eq hzero, heq]
      rw [if_pos (by decide)]

/-- `tlballoc` ends as `__alloc` does; besides it changes the TLB. -/
theorem tlballoc_alloc {s : System ι} {p : ι} (h : ProcOk s p) {size regIndex : BitVec 32}
    (hid : regIndex.toNat < pagingMaxSymtblSz) (hn1 : 1 ≤ size.toNat)
    (hn : size.toNat ≤ 2 ^ 22) (hbrk : BreakOk (s.mm p) size.toNat) (raw : List ℤ) :
    ∃ stat addr s1 tlb, alloc s p ⟨regIndex.toNat, hid⟩ size.toNat raw = .ok (stat, addr, s1) ∧
      Allocated p ⟨regIndex.toNat, hid⟩ size.toNat s (stat, addr, s1) ∧
      tlballoc s p size regIndex raw = .ok (stat, { s1 with tlb := tlb }) ∧
      Moves p (fun a => a.page = none ∧ a.Good) ⟨[], s1⟩ ⟨[], { s1 with tlb := tlb }⟩ := by
  obtain ⟨⟨stat, addr, s1⟩, heq, ha⟩ := alloc_moves h ⟨regIndex.toNat, hid⟩ hn1 hn hbrk raw
  suffices hcall : ∃ tlb, tlballoc s p size regIndex raw = .ok (stat, { s1 with tlb := tlb }) ∧
      Moves p (fun a => a.page = none ∧ a.Good) ⟨[], s1⟩ ⟨[], { s1 with tlb := tlb }⟩ by
    obtain ⟨tlb, hr, hm⟩ := hcall
    exact ⟨stat, addr, s1, tlb, heq, ha, hr, hm⟩
  unfold tlballoc
  simp only [allocRgid_eq hid, argInt_eq (show size.toNat < 2 ^ 31 by omega), heq]
  cases ha.ending with
  | failed h0 hs =>
    simp only at h0
    subst h0
    rw [if_pos (by decide)]
    exact ⟨s1.tlb, rfl, .refl _⟩
  | mapped rg h0 haddr hs h1 h2 hp =>
    simp only at h0 haddr
    subst h0 haddr
    have hb : rg.Below (s1.mm p).mmap.sbrk := by
      have := ha.ok.mm.live ⟨regIndex.toNat, hid⟩
      simp only at hs
      rwa [hs, Function.update_self] at this
    have hrange := inRange_alloc hn1 hb ha.ok.mm.bound h1 h2
    have hcount : pagingPageAlignszU size / pagingPagesz = alignedSize size.toNat / 256 := by
      rw [pagingPageAlignszU_eq hn]
    have hbound := hb.bound
    have hbound' : (s1.mm p).mmap.sbrk ≤ 2 ^ 22 := ha.ok.mm.bound
    obtain ⟨tlb, htlb, hm'⟩ := tlbCachePages_moves p (alignedSize size.toNat / 256)
      (pagingPgn (rg.rgStart : ℤ)) s1 (fun k hk => (hp k ((hrange k).mp hk)).2) (by
        rw [pagingPgn_natCast (by omega)]
        have := hb.aligned (by omega)
        unfold alignedSize at *
        omega)
    rw [if_neg (by decide), hcount]
    simp only [htlb]
    exact ⟨tlb, rfl, hm'⟩

theorem tlballoc_moves {s : System ι} {p : ι} (h : ProcOk s p) {size regIndex : BitVec 32}
    (hid : regIndex.toNat < pagingMaxSymtblSz) (hn1 : 1 ≤ size.toNat)
    (hn : size.toNat ≤ 2 ^ 22) (hbrk : BreakOk (s.mm p) size.toNat) (raw : List ℤ) :
    ∃ res, tlballoc s p size regIndex raw = .ok res ∧
      TlbAllocated p ⟨regIndex.toNat, hid⟩ size.toNat s res := by
  obtain ⟨stat, addr, s1, tlb, -, ha, heq, hm⟩ := tlballoc_alloc h hid hn1 hn hbrk raw
  exact ⟨_, heq, ha.moves.trans (hm.mono fun a hp => ⟨Act.maps_of_page hp.1 _, fun _ => hp.2⟩),
    ⟨ha.ok.mm, ha.ok.slots⟩, ha.present, addr, ha.ending⟩

theorem argInt_range (arg : BitVec 32) : -2 ^ 31 ≤ argInt arg ∧ argInt arg < 2 ^ 31 := by
  rw [argInt, i32_eq]
  omega

/-- What `tlballoc` does to the regions and the break is what `__alloc` does. -/
theorem tlballoc_space {s s' : System ι} {p : ι} (h : SpaceInv (s.mm p))
    {size regIndex : BitVec 32} (hid : regIndex.toNat < pagingMaxSymtblSz) {raw : List ℤ}
    {stat : ℤ} (hres : tlballoc s p size regIndex raw = .ok (stat, s')) :
    ∃ ret addr s1 mm,
      AllocSpace (argInt size) ⟨regIndex.toNat, hid⟩ (s.mm p) ret addr mm ∧
        Paged p (s.setMm p mm) s' ∧ (ret ≠ 0 ∧ stat = -1 ∨ ret = 0 ∧ (stat, s') =
          tlbCachePages p (pagingPageAlignszU size / pagingPagesz) (pagingPgn addr) s1) := by
  obtain ⟨h0, h1⟩ := argInt_range size
  unfold tlballoc at hres
  simp only [allocRgid_eq hid] at hres
  cases halloc : alloc s p ⟨regIndex.toNat, hid⟩ (argInt size) raw with
  | error e => simp [halloc] at hres
  | ok res =>
    obtain ⟨ret, addr, s1⟩ := res
    obtain ⟨mm, hpaged, hspace⟩ := alloc_space h ⟨regIndex.toNat, hid⟩ h0 h1 halloc
    refine ⟨ret, addr, s1, mm, hspace, ?_⟩
    simp only [halloc] at hres
    split_ifs at hres with hret
    · cases hres
      exact ⟨hpaged, .inl ⟨hret, rfl⟩⟩
    · have hcache := Paged.tlbCachePages (p := p) (pagingPageAlignszU size / pagingPagesz)
        (pagingPgn addr) s1
      rw [Except.ok.inj hres] at hcache
      exact ⟨hpaged.trans hcache, .inr ⟨not_not.mp hret, (Except.ok.inj hres).symm⟩⟩

/-! ## `tlbfree_data` -/

/-- What `__free` does to region `r`. -/
structure Freed (p : ι) (r : Fin pagingMaxSymtblSz) (s : System ι) (res : ℤ × System ι) :
    Prop where
  moves : Moves p (fun a => a.Releases ((s.mm p).symrgtbl r).HasPage ∧ (FramesOk s → a.Good))
    ⟨[], s⟩ ⟨[], res.2⟩
  ok : ProcOk res.2 p
  keep : ∀ pgn, ¬ ((s.mm p).symrgtbl r).HasPage pgn →
    (Present ((res.2.mm p).pgd pgn) ↔ Present ((s.mm p).pgd pgn))
  symrgtbl : (res.2.mm p).symrgtbl = (s.mm p).symrgtbl ∨
    (res.2.mm p).symrgtbl = Function.update (s.mm p).symrgtbl r ⟨0, 0⟩

theorem free_moves {s : System ι} {p : ι} (h : ProcOk s p) (r : Fin pagingMaxSymtblSz)
    (hunc : ∀ k, ((s.mm p).symrgtbl r).HasPage k → Uncached s p k) :
    Freed p r s (free s p r) := by
  have hrange := (h.mm.live r).inRange_iff h.mm.bound
  have hl := freeLoop_moves p (regionPages ((s.mm p).symrgtbl r))
    (pagingPgn (i32 ((s.mm p).symrgtbl r).rgStart)) s h fun k hk => hunc k ((hrange k).mp hk)
  unfold free
  by_cases h0 : ((s.mm p).symrgtbl r).rgEnd = 0
  · simp only [h0, if_true]
    exact ⟨.refl _, h, fun _ _ => Iff.rfl, .inl rfl⟩
  simp only [h0, if_false]
  generalize freeLoop p _ _ s = res at hl
  obtain ⟨ret, s1⟩ := res
  obtain ⟨hm, hok, hmmap, hsym, hkeep, habs, hstatus⟩ := hl
  have hm' := hm.mono (Q := fun a =>
    a.Releases ((s.mm p).symrgtbl r).HasPage ∧ (FramesOk s → a.Good))
    fun a ha => ⟨ha.1.mono fun k hk => (hrange k).mp hk, ha.2⟩
  have hkeep' : ∀ k, ¬ ((s.mm p).symrgtbl r).HasPage k →
      (Present ((s1.mm p).pgd k) ↔ Present ((s.mm p).pgd k)) :=
    fun k hk => hkeep k fun hk' => hk ((hrange k).mp hk')
  simp only at hm' hok hmmap hsym hstatus ⊢
  obtain ⟨rfl, hgone⟩ | rfl := hstatus
  · rw [if_neg (by decide)]
    have hrg : (s1.mm p).symrgtbl r = (s.mm p).symrgtbl r := by rw [hsym]
    have hret := hok.mm.retire r fun pgn hp => hgone pgn ((hrange pgn).mpr (hrg ▸ hp))
    rw [hrg] at hret
    have hstate : setFreerg (setSymrg s1 p r ⟨0, 0⟩) p (enlistVmFreergList
        ((setSymrg s1 p r ⟨0, 0⟩).mm p).mmap.vmFreergList ((s.mm p).symrgtbl r)) =
        s1.setMm p { s1.mm p with
          symrgtbl := Function.update (s1.mm p).symrgtbl r ⟨0, 0⟩
          mmap := { (s1.mm p).mmap with
            vmFreergList :=
              enlistVmFreergList (s1.mm p).mmap.vmFreergList ((s.mm p).symrgtbl r) } } := by
      simp only [setFreerg, setSymrg, System.setMm_self, System.setMm_setMm]
    simp only [hstate]
    exact ⟨hm'.trans (.single (.space rfl) ⟨trivial, fun _ => trivial⟩),
      ⟨by simpa using hret, hok.slots⟩, by simpa using hkeep', .inr (by simp [hsym])⟩
  · rw [if_pos (by decide)]
    exact ⟨hm', hok, hkeep', .inl hsym⟩

/-- The region of a region id inside the table. -/
theorem getSymrgById_eq {rgid : BitVec 32} (hid : rgid.toNat < pagingMaxSymtblSz) :
    getSymrgById (argInt rgid) = .ok (some ⟨rgid.toNat, hid⟩) := by
  have hid' : rgid.toNat < 30 := hid
  unfold getSymrgById
  rw [argInt_eq (by omega), if_neg (by rw [pagingMaxSymtblSz]; omega),
    dif_pos (by simpa using hid)]
  rfl

/-- A region id for which `get_symrg_byid` returns a pointer into the table. -/
theorem lt_of_getSymrgById {rgid : BitVec 32} {r : Fin pagingMaxSymtblSz}
    (h : getSymrgById (argInt rgid) = .ok (some r)) :
    ∃ hid : rgid.toNat < pagingMaxSymtblSz, r = ⟨rgid.toNat, hid⟩ := by
  unfold getSymrgById at h
  split_ifs at h with h1 h2
  · cases h
  · rw [not_or, not_lt] at h1
    rw [argInt_of_nonneg h1.1] at h2
    simp only [argInt_of_nonneg h1.1, Int.toNat_natCast] at h
    exact ⟨by simpa using h2, (by simpa using h : _ = r).symm⟩

theorem tlbfreeData_moves {s : System ι} {p : ι} (h : ProcOk s p) (hu : TlbUnique s.tlb)
    {regIndex : BitVec 32} (hid : regIndex.toNat < pagingMaxSymtblSz) :
    ∃ stat s', tlbfreeData s p regIndex = .ok (0, s') ∧
      Freed p ⟨regIndex.toNat, hid⟩ s (stat, s') := by
  unfold tlbfreeData
  simp only [getSymrgById_eq hid]
  generalize hr : (⟨regIndex.toNat, hid⟩ : Fin pagingMaxSymtblSz) = r
  have hrange := (h.mm.live r).inRange_iff h.mm.bound
  obtain ⟨hm, -, hunc⟩ := tlbFreePages_moves p (regionPages ((s.mm p).symrgtbl r))
    (pagingPgn (i32 ((s.mm p).symrgtbl r).rgStart)) s hu
  generalize htlb : tlbFreePages (s.pidInt p) (regionPages ((s.mm p).symrgtbl r))
    (pagingPgn (i32 ((s.mm p).symrgtbl r).rgStart)) s.tlb = tlb at hm hunc
  have hf := free_moves (s := { s with tlb := tlb }) (p := p) ⟨h.mm, h.slots⟩ r
    fun k hk => hunc k ((hrange k).mpr hk)
  generalize free { s with tlb := tlb } p r = res at hf
  exact ⟨res.1, res.2, rfl, (hm.mono fun a ha => ⟨Act.releases_of_page ha.1 _,
    fun _ => ha.2⟩).trans hf.moves, hf.ok, hf.keep, hf.symrgtbl⟩

/-! ## `tlbread` and `tlbwrite` -/

/-- What an access to page `pgn` does before the byte is read or written. -/
structure Framed (p : ι) (s s' : System ι) : Prop where
  moves : Moves p (fun a => a.page = none ∧ a.Good) ⟨[], s⟩ ⟨[], s'⟩
  ok : ProcOk s' p
  pages : SamePages (s.mm p) (s'.mm p)

theorem tlbFrame_moves {s : System ι} {p : ι} (h : ProcOk s p) {pgn : ℕ} (hpgn : pgn < 2 ^ 14) :
    Framed p s (tlbFrame s p pgn).2 := by
  unfold tlbFrame
  by_cases hmiss : tlbCacheRead s.tlb (s.pidInt p) pgn < 0
  · have hf := pgGetpage_moves h pgn
    rw [if_pos hmiss]
    generalize pgGetpage s p pgn = r at hf
    obtain ⟨ret, frmnum, s1⟩ := r
    by_cases hfault : ret ≠ 0 ∨ frmnum < 0
    · simp only [hfault, if_true]
      exact ⟨hf.moves, hf.ok, hf.pages⟩
    · simp only [hfault, if_false]
      rw [not_or, not_not] at hfault
      obtain ⟨-, hres, hmod⟩ := hf.status.resolve_right (by simp [hfault.1])
      exact ⟨hf.moves.trans (.single (.cache hres hmod hpgn) ⟨rfl, trivial⟩),
        ⟨hf.ok.mm, hf.ok.slots⟩, hf.pages⟩
  · rw [if_neg hmiss]
    exact ⟨.refl _, h, .rfl' _⟩

theorem tlbread_eq (s : System ι) (p : ι) {source : BitVec 32}
    (hid : source.toNat < pagingMaxSymtblSz) (offset : BitVec 32) :
    tlbread s p source offset =
      let currg := (s.mm p).symrgtbl ⟨source.toNat, hid⟩
      if OutOfRange currg offset then .ok (-1, none, s)
      else
        match tlbFrame s p (pagingPgn (rgAddr currg offset)) with
        | (none, s) => .ok (-1, none, s)
        | (some frmnum, s) =>
          .ok (0, (memphyRead s.mram (phyaddr frmnum (pagingOffst (rgAddr currg offset)))).2.1,
            s) := by
  unfold tlbread
  have hrg := getSymrgById_eq hid
  generalize getSymrgById (argInt source) = rg at hrg ⊢
  subst hrg
  rfl

theorem tlbwrite_eq (s : System ι) (p : ι) (data : Byte) {destination : BitVec 32}
    (hid : destination.toNat < pagingMaxSymtblSz) (offset : BitVec 32) :
    tlbwrite s p data destination offset =
      let currg := (s.mm p).symrgtbl ⟨destination.toNat, hid⟩
      if OutOfRange currg offset then .ok (-1, s)
      else
        match tlbFrame s p (pagingPgn (rgAddr currg offset)) with
        | (none, s) => .ok (-1, s)
        | (some frmnum, s) =>
          .ok (0, { s with
            mram := (memphyWrite s.mram (phyaddr frmnum (pagingOffst (rgAddr currg offset)))
              data).2 }) := by
  unfold tlbwrite
  have hrg := getSymrgById_eq hid
  generalize getSymrgById (argInt destination) = rg at hrg ⊢
  subst hrg
  rfl

/-- `s'` is what is left when the frame for an access to region `rgid` has been found, or not. -/
def Accessed (s : System ι) (p : ι) (rgid offset : BitVec 32) (s' : System ι) : Prop :=
  ∃ r : Fin pagingMaxSymtblSz, r = rgid.toNat ∧ ¬ OutOfRange ((s.mm p).symrgtbl r) offset ∧
    s' = (tlbFrame s p (pagingPgn (rgAddr ((s.mm p).symrgtbl r) offset))).2

theorem Accessed.exists_page {s s' : System ι} {p : ι} {rgid offset : BitVec 32}
    (h : Accessed s p rgid offset s') : ∃ pgn, pgn < 2 ^ 14 ∧ s' = (tlbFrame s p pgn).2 := by
  obtain ⟨r, -, -, heq⟩ := h
  exact ⟨_, pagingPgn_lt (rgAddr ((s.mm p).symrgtbl r) offset), heq⟩

/-- The state that `tlbread` leaves. -/
theorem tlbread_state {s s' : System ι} {p : ι} {source offset : BitVec 32} {stat : ℤ}
    {data : Option Byte} (h : tlbread s p source offset = .ok (stat, data, s')) :
    s' = s ∨ Accessed s p source offset s' := by
  cases hr : getSymrgById (argInt source) with
  | error e => simp [tlbread, hr] at h
  | ok r =>
    cases r with
    | none =>
      simp only [tlbread, hr] at h
      cases h
      exact .inl rfl
    | some r =>
      obtain ⟨hid, -⟩ := lt_of_getSymrgById hr
      rw [tlbread_eq s p hid] at h
      simp only at h
      split_ifs at h with hin
      · cases h
        exact .inl rfl
      · refine .inr ⟨⟨source.toNat, hid⟩, rfl, hin, ?_⟩
        split at h <;> rename_i heq <;> cases h <;> rw [heq]

/-- The RAM cell `addr` is set to `data`. -/
def System.store (s : System ι) (addr : ℤ) (data : Byte) : System ι :=
  { s with mram := (memphyWrite s.mram addr data).2 }

omit [DecidableEq ι] in
theorem Frame.store (p : ι) (s : System ι) (addr : ℤ) (data : Byte) :
    Frame p s (s.store addr data) := by
  obtain ⟨st, c, hw⟩ := memphyWrite_fields s.mram addr data
  rw [System.store, hw]
  exact ⟨rfl, fun _ _ => rfl, rfl, rfl, rfl, rfl, fun _ _ => rfl⟩

/-- The state that `tlbwrite` leaves. -/
theorem tlbwrite_state {s s' : System ι} {p : ι} {data : Byte} {destination offset : BitVec 32}
    {stat : ℤ} (h : tlbwrite s p data destination offset = .ok (stat, s')) :
    s' = s ∨ ∃ t, Accessed s p destination offset t ∧
      (s' = t ∨ ∃ addr, s' = t.store addr data) := by
  cases hr : getSymrgById (argInt destination) with
  | error e => simp [tlbwrite, hr] at h
  | ok r =>
    cases r with
    | none =>
      simp only [tlbwrite, hr] at h
      cases h
      exact .inl rfl
    | some r =>
      obtain ⟨hid, -⟩ := lt_of_getSymrgById hr
      rw [tlbwrite_eq s p data hid] at h
      simp only at h
      split_ifs at h with hin
      · cases h
        exact .inl rfl
      · refine .inr ⟨_, ⟨⟨destination.toNat, hid⟩, rfl, hin, rfl⟩, ?_⟩
        split at h <;> rename_i heq <;> cases h <;> rw [heq]
        · exact .inl rfl
        · exact .inr ⟨_, rfl⟩

/-! ## `run` -/

/-- An `ALLOC` asks for 1 to `2^22` bytes and leaves the break within `2^22`. -/
def SizeOk (s : System ι) (p : ι) (ins : Inst) : Prop :=
  ins.opcode = .ALLOC →
    1 ≤ ins.arg0.toNat ∧ ins.arg0.toNat ≤ 2 ^ 22 ∧ BreakOk (s.mm p) ins.arg0.toNat

/-- The free list that an `ALLOC` searches does not lead to a variable that is gone. -/
def ListKept (s : System ι) (p : ι) (ins : Inst) : Prop :=
  ins.opcode = .ALLOC → (s.mm p).mmap.dangling = false

/-- An `ALLOC` can gather its frames without losing track of any. -/
def SlotsOk (s : System ι) (p : ι) (ins : Inst) : Prop :=
  ins.opcode = .ALLOC → FramesEnough s p (alignedSize ins.arg0.toNat / 256)

instance (s : System ι) (p : ι) (ins : Inst) : Decidable (SizeOk s p ins) :=
  inferInstanceAs (Decidable (_ → _))

instance (s : System ι) (p : ι) (ins : Inst) : Decidable (SlotsOk s p ins) :=
  inferInstanceAs (Decidable (_ → _))

omit [DecidableEq ι] in
instance (s : System ι) (p : ι) (ins : Inst) : Decidable (ListKept s p ins) :=
  inferInstanceAs (Decidable (_ → _))

/-- What an instruction does: moves, and for a `WRITE` a store to RAM. -/
structure Ran (p : ι) (ins : Inst) (s s' : System ι) : Prop where
  intro ::
  mid : ∃ t, Moves p (fun a => FramesOk s → SlotsOk s p ins → a.Good) ⟨[], s⟩ ⟨[], t⟩ ∧
    ProcOk t p ∧ (s' = t ∨ ∃ addr data, s' = t.store addr data)

/-- The instruction that `run` has executed. An `ALLOC` has returned as for the region id `rgid`. -/
inductive Executed (s : System ι) (p : ι) (ins : Inst) (raw : List ℤ) :
    Outcome → System ι → Prop
  | compute : ins.opcode = .CALC → Executed s p ins raw ⟨0, none⟩ s
  | alloc {stat : ℤ} {s' : System ι} {rgid : BitVec 32} : ins.opcode = .ALLOC →
      rgid.toNat < pagingMaxSymtblSz → (stat = 0 → rgid = ins.arg1) →
      tlballoc s p ins.arg0 rgid raw = .ok (stat, s') → Executed s p ins raw ⟨stat, none⟩ s'
  | free {stat : ℤ} {s' : System ι} : ins.opcode = .FREE →
      tlbfreeData s p ins.arg0 = .ok (stat, s') → Executed s p ins raw ⟨stat, none⟩ s'
  | read {stat : ℤ} {data : Option Byte} {s' : System ι} : ins.opcode = .READ →
      tlbread s p ins.arg0 ins.arg1 = .ok (stat, data, s') → Executed s p ins raw ⟨stat, data⟩ s'
  | write {stat : ℤ} {s' : System ι} : ins.opcode = .WRITE →
      tlbwrite s p (ins.arg0.setWidth 8) ins.arg1 ins.arg2 = .ok (stat, s') →
      Executed s p ins raw ⟨stat, none⟩ s'

/-- What an entry point has returned when `run` returns. -/
theorem ok_of_map {α β : Type*} {x : Except Fault α} {f : α → β} {b : β} (h : x.map f = .ok b) :
    ∃ a, x = .ok a ∧ f a = b := by
  cases x with
  | error e => cases h
  | ok a => exact ⟨a, rfl, Except.ok.inj h⟩

theorem executed_of_run {s s' : System ι} {p : ι} {ins : Inst} {raw : List ℤ} {o : Outcome}
    (h : run s p ins raw = .ok (o, s')) : Executed s p ins raw o s' := by
  unfold run at h
  cases hop : ins.opcode with
  | CALC =>
    simp only [hop] at h
    cases h
    exact .compute hop
  | ALLOC =>
    simp only [hop] at h
    obtain ⟨r, hr, heq⟩ := ok_of_map h
    cases heq
    obtain ⟨rgid, hid, h0, hr⟩ := tlballoc_inside hr
    exact .alloc hop hid h0 hr
  | FREE =>
    simp only [hop] at h
    obtain ⟨r, hr, heq⟩ := ok_of_map h
    cases heq
    exact .free hop hr
  | READ =>
    simp only [hop] at h
    obtain ⟨r, hr, heq⟩ := ok_of_map h
    cases heq
    exact .read hop hr
  | WRITE =>
    simp only [hop] at h
    obtain ⟨r, hr, heq⟩ := ok_of_map h
    cases heq
    exact .write hop hr

/-- `tlbfree_data` refuses the region ids for which `get_symrg_byid` returns `NULL`. -/
theorem lt_of_tlbfreeData {s : System ι} {p : ι} {regIndex : BitVec 32} {r : ℤ × System ι}
    (h : tlbfreeData s p regIndex = .ok r) :
    r = (-1, s) ∨ regIndex.toNat < pagingMaxSymtblSz := by
  cases hr : getSymrgById (argInt regIndex) with
  | error e => simp [tlbfreeData, hr] at h
  | ok rg =>
    cases rg with
    | none =>
      simp only [tlbfreeData, hr] at h
      cases h
      exact .inl rfl
    | some rg =>
      obtain ⟨hid, -⟩ := lt_of_getSymrgById hr
      exact .inr hid

theorem run_moves {s s' : System ι} {p : ι} {ins : Inst} {raw : List ℤ} {o : Outcome}
    (h : ProcOk s p) (hu : TlbUnique s.tlb) (hsize : SizeOk s p ins)
    (hrun : run s p ins raw = .ok (o, s')) : Ran p ins s s' := by
  have hsame : Ran p ins s s := ⟨s, .refl _, h, .inl rfl⟩
  cases executed_of_run hrun with
  | compute => exact hsame
  | alloc hop hid _ hr =>
    obtain ⟨hn1, hn, hbrk⟩ := hsize hop
    obtain ⟨res, heq, ha⟩ := tlballoc_moves h hid hn1 hn hbrk raw
    rw [heq] at hr
    cases hr
    exact ⟨_, ha.moves.mono fun a ha _ hs => ha.2 (hs hop), ha.ok, .inl rfl⟩
  | free hop hr =>
    obtain he | hid := lt_of_tlbfreeData hr
    · cases he
      exact hsame
    · obtain ⟨stat, t, heq, hf⟩ := tlbfreeData_moves h hu hid
      rw [heq] at hr
      cases hr
      exact ⟨_, hf.moves.mono fun a ha hfr _ => ha.2 hfr, hf.ok, .inl rfl⟩
  | read hop hr =>
    obtain heq | ha := tlbread_state hr
    · rw [heq]
      exact hsame
    · obtain ⟨pgn, hpgn, heq⟩ := ha.exists_page
      have hf := tlbFrame_moves h hpgn
      exact ⟨_, hf.moves.mono fun a ha _ _ => ha.2, hf.ok, .inl heq⟩
  | write hop hr =>
    obtain heq | ⟨t, ha, hst⟩ := tlbwrite_state hr
    · rw [heq]
      exact hsame
    · obtain ⟨pgn, hpgn, rfl⟩ := ha.exists_page
      have hf := tlbFrame_moves h hpgn
      exact ⟨_, hf.moves.mono fun a ha _ _ => ha.2, hf.ok,
        hst.imp_right fun ⟨addr, ha⟩ => ⟨addr, _, ha⟩⟩

/-- What an instruction leaves alone. -/
theorem Ran.frame {s s' : System ι} {p : ι} {ins : Inst} (h : Ran p ins s s') : Frame p s s' := by
  obtain ⟨t, hm, -, rfl | ⟨addr, data, rfl⟩⟩ := h.mid
  · exact hm.frame
  · exact .trans hm.frame (.store p t addr data)

end OsSim.Mem
