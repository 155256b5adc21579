import OsSim.Mem.Sizes
import Mathlib.Algebra.Order.Floor.Div

/-!
# How many pages an allocation has

The pages of an allocation are counted four times, each time from another number:
`__alloc` rounds the size as an `int` and maps that many pages, `inc_vma_limit` rounds
the result again, `tlballoc` rounds the size as a `uint32_t` to cache the pages, and
`__free` rounds the length of the region. A size from `2^31 - 255` on for which
`__alloc` does not fail maps no pages; `tlballoc` then looks for at least `2^23` of
them, and fails if it comes to a page that it cannot bring to RAM. If it does not, it
gets past the end of the page table.

Results:
* `pagesBelow_of_run`: the pages present have entries in the page table.
* `symrgtbl_of_leftAlone`: a region stays as it is until it is allocated or freed.
* `allocConsistent_iff`: when the counts agree and no `int` overflows.
-/

namespace OsSim.Mem

variable {ι : Type*} [DecidableEq ι]

/-! ## What is asked for -/

/-- The sums of `PAGING_PAGE_ALIGNSZ(sz)` are `int`s: `sz + 256` is computed first. -/
def RoundsExactly (sz : ℤ) : Prop := -2 ^ 31 ≤ sz ∧ sz + pagingPagesz < 2 ^ 31

/-- No signed sum leaves the range of `int` when `__alloc` for `size` bytes makes `rg` the region,
nor when `__free` releases it. `__alloc` rounds the length of a free region as `__free` does. -/
structure NoOverflow (mm : Mm) (size : ℤ) (rg : VmRg) : Prop where
  rounds : RoundsExactly size
  raise : ¬ Fitting mm size → RoundsExactly (pagingPageAlignsz size) ∧
    mm.mmap.sbrk + size < 2 ^ 31 ∧ mm.mmap.sbrk + pagingPageAlignsz size < 2 ^ 31
  length : RoundsExactly (rg.rgEnd - rg.rgStart)

/-- No instruction on the way from `t` to `u` allocates into region `r` of `p` or frees it. -/
def LeftAlone (c : Config ι) (p : ι) (r : Fin pagingMaxSymtblSz) (t u : System ι) : Prop :=
  ∃ tr, (definedLts .cpuTlb c).Path t tr u ∧ ∀ a ∈ tr, a.proc = p →
    (a.ins.opcode = .ALLOC → a.ins.arg1.toNat ≠ r) ∧ (a.ins.opcode = .FREE → a.ins.arg0.toNat ≠ r)

/-- An `ALLOC` of `size` bytes has taken the system from `s` to `t`: no `int` has overflowed, and the
pages mapped, those cached and those that a later `FREE` releases are `⌈size / 256⌉`. -/
structure CountsAgree (c : Config ι) (s : System ι) (p : ι) (r : Fin pagingMaxSymtblSz)
    (size : BitVec 32) (t : System ι) : Prop where
  noOverflow : NoOverflow (s.mm p) (argInt size) ((t.mm p).symrgtbl r)
  maps : ∃ plan, allocPlan (s.mm p) (argInt size) = some plan ∧
    plan.count = size.toNat ⌈/⌉ pagingPagesz
  caches : pagingPageAlignszU size / pagingPagesz = size.toNat ⌈/⌉ pagingPagesz
  releases : ∀ u, LeftAlone c p r t u →
    regionPages ((u.mm p).symrgtbl r) = size.toNat ⌈/⌉ pagingPagesz

/-- `ALLOC` does nothing without a meaning and returns; it has been refused, or the counts agree. -/
def AllocConsistent (c : Config ι) (s : System ι) (p : ι) (regIndex : BitVec 32)
    (hid : regIndex.toNat < pagingMaxSymtblSz) (size : BitVec 32) (raw : List ℤ) : Prop :=
  Defined .cpuTlb s p ⟨.ALLOC, size, regIndex, 0⟩ raw ∧
    ∃ stat t, tlballoc s p size regIndex raw = .ok (stat, t) ∧
      (stat ≠ 0 ∨ CountsAgree c s p ⟨regIndex.toNat, hid⟩ size t)

/-- Of the pages from those of the block for `size` bytes to the end of the page table, one cannot be
brought to RAM. -/
def StopsInTable (s : System ι) (p : ι) (size : ℤ) : Prop :=
  ∀ plan, allocPlan (s.mm p) size = some plan →
    ¬ Cacheable s p plan.base (pagingMaxPgn - plan.base)

/-! ## Pages that are never mapped -/

/-- The pages that are present, and those on the FIFO list, are below `bound`. -/
structure PagesBelow (bound : ℕ) (mm : Mm) : Prop where
  present : ∀ k, Present (mm.pgd k) → k < bound
  listed : ∀ k ∈ mm.fifoPgn, k < bound

section

variable {bound : ℕ} {mm mm' : Mm}

theorem PagesBelow.congr (h : PagesBelow bound mm) (hpgd : mm'.pgd = mm.pgd)
    (hfifo : ∀ k ∈ mm'.fifoPgn, k ∈ mm.fifoPgn) : PagesBelow bound mm' :=
  ⟨hpgd ▸ h.present, fun k hk => h.listed k (hfifo k hk)⟩

/-- An entry is replaced by an absent one, or an entry below the bound. -/
theorem PagesBelow.update (h : PagesBelow bound mm) {pgn : ℕ} {pte : Pte}
    (hpte : Present pte → pgn < bound) :
    PagesBelow bound { mm with pgd := Function.update mm.pgd pgn pte } := by
  refine ⟨fun k hk => ?_, h.listed⟩
  simp only [Function.update_apply] at hk
  split_ifs at hk with e
  · exact e ▸ hpte hk
  · exact h.present k hk

theorem PagesBelow.enlist (h : PagesBelow bound mm) {pgn : ℕ} (hpgn : pgn < bound) :
    PagesBelow bound { mm with fifoPgn := enlistPgnNode mm.fifoPgn pgn } :=
  ⟨h.present, List.forall_mem_cons.mpr ⟨hpgn, h.listed⟩⟩

theorem PagesBelow.vmapLoop (pgn left pgit : ℕ) (frames : List ℤ) (h : PagesBelow bound mm)
    (hle : pgn + pgit + left ≤ bound) : PagesBelow bound (vmapLoop pgn left pgit frames mm) := by
  induction left generalizing pgit frames mm with
  | zero => exact h
  | succ left ih =>
    cases frames with
    | nil => exact h
    | cons fpn frames =>
      have hpgn : pgn + pgit < bound := by omega
      exact ih _ _ ((h.update fun _ => hpgn).enlist hpgn) (by omega)

end

section

variable {bound : ℕ} {p : ι} {s t : System ι}

theorem PagesBelow.setFifo (h : PagesBelow bound (s.mm p)) {fifo : List ℕ}
    (hfifo : ∀ k ∈ fifo, k ∈ (s.mm p).fifoPgn) : PagesBelow bound ((s.setFifo p fifo).mm p) := by
  rw [System.setFifo_self]
  exact h.congr rfl hfifo

theorem PagesBelow.setPte (h : PagesBelow bound (s.mm p)) {pgn : ℕ} {pte : Pte}
    (hpte : Present pte → pgn < bound) : PagesBelow bound ((s.setPte p pgn pte).mm p) := by
  rw [System.setPte_self]
  exact h.update hpte

theorem PagesBelow.allocPagesRange (raw : List ℤ) (n : ℕ) (held : List ℤ)
    (h : PagesBelow bound (s.mm p)) :
    PagesBelow bound ((allocPagesRange p raw n held s).2.2.mm p) := by
  induction n generalizing held s with
  | zero => exact h
  | succ n ih =>
    unfold Mem.allocPagesRange
    cases memphyGetFreefp s.mram with
    | some r => exact ih (s := { s with mram := r.2 }) _ h
    | none =>
      simp only [findVictimPage]
      cases hlast : (s.mm p).fifoPgn.getLast? with
      | none => exact h
      | some vicpgn =>
        have hvic := h.listed vicpgn (List.mem_of_getLast? hlast)
        have hsearch : PagesBelow bound ((swapSearch pagingMaxMmswp 0 (-1)
            (s.setFifo p (s.mm p).fifoPgn.dropLast)).2.2.mm p) := by
          rw [mm_swapSearch]
          exact h.setFifo fun k hk => List.mem_of_mem_dropLast hk
        simp only
        split_ifs
        · exact hsearch
        · exact ih _ (PagesBelow.setPte (s := { (swapSearch pagingMaxMmswp 0 (-1)
            (s.setFifo p (s.mm p).fifoPgn.dropLast)).2.2 with tlb := _, mram := _, mswp := _ })
            hsearch fun _ => hvic)

/-- Pages are mapped only if there are frames for all of them. -/
theorem PagesBelow.vmMapRam (h : PagesBelow bound (s.mm p)) {mapstart incpgnum : ℤ}
    (hle : Found s p incpgnum.toNat → pagingPgn mapstart + incpgnum.toNat ≤ bound)
    (raw : List ℤ) : PagesBelow bound ((vmMapRam s p mapstart incpgnum raw).2.mm p) := by
  have hrange := h.allocPagesRange raw incpgnum.toNat []
  have hplain := vmMapRam_plain s p mapstart incpgnum raw
  unfold Mem.vmMapRam at hplain ⊢
  simp only at hplain ⊢
  split_ifs at hplain ⊢
  · exact hrange
  · have hfound : Found s p incpgnum.toNat := by
      obtain ⟨hf, -⟩ | ⟨-, s', heq⟩ := hplain
      · exact hf
      · cases heq
    rw [System.setMm_self]
    exact hrange.vmapLoop _ _ 0 _ (hle hfound)

theorem PagesBelow.pgGetpage (h : PagesBelow bound (s.mm p)) (pgn : ℕ) :
    PagesBelow bound ((pgGetpage s p pgn).2.2.mm p) := by
  obtain ⟨-, hr⟩ | ⟨-, hr⟩ | ⟨-, -, -, hr⟩ | ⟨hp, -, fpn, rest, -, -, hr⟩ :=
    pgGetpage_cases s p pgn <;> rw [hr]
  · exact h
  · exact h
  · exact h.setFifo fun k hk => List.mem_of_mem_dropLast hk
  · rw [swapIn_mm]
    exact (h.update fun _ => h.present pgn hp).enlist (h.present pgn hp)

theorem PagesBelow.freeLoop (left pgn : ℕ) (h : PagesBelow bound (s.mm p)) :
    PagesBelow bound ((freeLoop p left pgn s).2.mm p) := by
  induction left generalizing pgn s with
  | zero => exact h
  | succ left ih =>
    have hget := h.pgGetpage pgn
    unfold Mem.freeLoop
    simp only
    split_ifs
    · exact hget
    · refine ih _ (PagesBelow.setFifo ?_ fun k hk => List.mem_of_mem_erase hk)
      exact PagesBelow.setPte (s := { (Mem.pgGetpage s p pgn).2.2 with mram := _ }) hget
        fun hp => absurd hp (not_present_clrbit _)

/-- `__alloc` maps the pages of its plan. -/
theorem PagesBelow.alloc (h : PagesBelow bound (s.mm p)) {r : Fin pagingMaxSymtblSz} {size : ℤ}
    (hplan : ∀ plan, allocPlan (s.mm p) size = some plan → Found s p plan.count →
      plan.base + plan.count ≤ bound)
    {raw : List ℤ} {stat addr : ℤ} (halloc : alloc s p r size raw = .ok (stat, addr, t)) :
    PagesBelow bound (t.mm p) := by
  have hsame : ∀ mm : Mm, mm.pgd = (s.mm p).pgd → mm.fifoPgn = (s.mm p).fifoPgn →
      PagesBelow bound mm := fun mm hpgd hfifo => h.congr hpgd fun k hk => hfifo ▸ hk
  unfold Mem.alloc at halloc
  unfold allocPlan at hplan
  cases hget : getFreeVmrgArea (s.mm p).mmap.vmFreergList (pagingPageAlignsz size) with
  | none => simp [hget] at halloc
  | some res =>
    obtain ⟨newrg, rgs⟩ := res
    cases newrg with
    | some rg =>
      simp only [hget, Except.ok.injEq, Option.some.injEq, forall_eq'] at halloc hplan
      have hfound := (found_congr s (setSymrg (setFreerg s p rgs) p r rg) (p := p) rfl rfl
        (by simp) (regionPages rg)).1
      have hmap := (hsame ((setSymrg (setFreerg s p rgs) p r rg).mm p) (by simp)
        (by simp)).vmMapRam (fun hf => hplan (hfound.mp hf)) raw
      unfold allocFreerg at halloc
      simp only at halloc
      split_ifs at halloc <;> cases halloc
      · simp only [setSymrg_self, System.setMm_self]
        exact hmap.congr rfl fun _ hk => hk
      · exact hmap
    | none =>
      simp only [hget, Except.ok.injEq] at halloc hplan
      unfold allocSbrk incVmaLimit at halloc
      simp only [setFreerg_self] at halloc
      by_cases hv : validateOverlapVmArea (s.mm p).vmNext (i32 (s.mm p).mmap.sbrk)
          (i32 (u64 ((s.mm p).mmap.sbrk + pagingPageAlignsz size))) < 0
      · simp only [hv, if_true] at halloc
        rw [if_pos (by decide)] at halloc
        cases halloc
        exact hsame _ (by simp) (by simp)
      · simp only [hv, if_false] at halloc hplan
        generalize hs1 : (setFreerg s p rgs).setMm p _ = s1 at halloc
        have hfifo : (s1.mm p).fifoPgn = (s.mm p).fifoPgn := by simp [← hs1]
        have hfound := fun n => (found_congr s s1 (p := p) (by rw [← hs1]; rfl)
          (by rw [← hs1]; rfl) hfifo n).1
        have hmap := (hsame (s1.mm p) (by simp [← hs1]) hfifo).vmMapRam
          (fun hf => hplan _ rfl ((hfound _).mp hf)) raw
        split_ifs at halloc <;> cases halloc
        · exact hmap
        · simp only [setFreerg_self, setSymrg_self]
          exact hmap.congr rfl fun _ hk => hk
        · simp only [setSymrg_self]
          exact hmap.congr rfl fun _ hk => hk

/-- A call of `__alloc` that has a meaning maps pages that have entries. -/
theorem AllocDefined.pagesBelow {size : ℤ} (hdef : AllocDefined s p size)
    (h : PagesBelow pagingMaxPgn (s.mm p)) {r : Fin pagingMaxSymtblSz} {raw : List ℤ}
    {stat addr : ℤ} (halloc : alloc s p r size raw = .ok (stat, addr, t)) :
    PagesBelow pagingMaxPgn (t.mm p) := by
  refine h.alloc (fun plan hplan => ?_) halloc
  have hmaps := hdef.maps
  unfold MapsInTable at hmaps
  rwa [hplan] at hmaps

theorem Part.pagesBelow (h : Part p s t) (hb : PagesBelow pagingMaxPgn (s.mm p)) :
    PagesBelow pagingMaxPgn (t.mm p) := by
  cases h with
  | getpage pgn => exact hb.pgGetpage pgn
  | alloc hdef halloc => exact hdef.pagesBelow hb halloc
  | free r =>
    have hloop := hb.freeLoop (regionPages ((s.mm p).symrgtbl r))
      (pagingPgn (i32 ((s.mm p).symrgtbl r).rgStart))
    unfold Mem.free
    simp only
    split_ifs
    · exact hb
    · exact hloop
    · simp only [setFreerg_self, setSymrg_self]
      exact hloop.congr rfl fun _ hk => hk
  | devices hmm => exact hmm ▸ hb

/-- The pages present and those on the FIFO list have entries in the page table. -/
theorem pagesBelow_of_run {b : Build} {c : Config ι} {tr : List (Label ι)}
    (h : (definedLts b c).Run tr s) (p : ι) : PagesBelow pagingMaxPgn (s.mm p) := by
  refine (invariant_of_parts (I := PagesBelow pagingMaxPgn) ?_
    (fun _ _ _ hpart _ hb => hpart.pagesBelow hb) h p).2
  exact ⟨fun k hk => absurd hk not_present_zero, by simp [initMm, Mm.zero]⟩

end

/-! ## A region that is left alone -/

section

variable {c : Config ι} {p : ι} {s s' t u : System ι} {r : Fin pagingMaxSymtblSz}

theorem AllocSpace.symrgtbl_of_ne {size : ℤ} {r' : Fin pagingMaxSymtblSz} {mm mm' : Mm}
    {stat addr : ℤ} (h : AllocSpace size r' mm stat addr mm') (hr : r ≠ r') :
    mm'.symrgtbl r = mm.symrgtbl r := by
  cases h with
  | reused | raised => exact Function.update_of_ne hr ..
  | reuseFailed => exact (Function.update_of_ne hr ..).trans (Function.update_of_ne hr ..)
  | raiseFailed | refused => rfl

/-- An instruction leaves the regions alone that it neither allocates nor frees. -/
theorem symrgtbl_of_run (h : SpaceInv (s.mm p)) {ins : Inst} {raw : List ℤ} {o : Outcome}
    (hrun : run s p ins raw = .ok (o, s'))
    (hr : (ins.opcode = .ALLOC → ins.arg1.toNat ≠ r) ∧ (ins.opcode = .FREE → ins.arg0.toNat ≠ r)) :
    (s'.mm p).symrgtbl r = (s.mm p).symrgtbl r := by
  by_cases halloc : ins.opcode = .ALLOC
  · unfold run at hrun
    simp only [halloc] at hrun
    obtain ⟨⟨stat, t⟩, hres, heq⟩ := ok_of_map hrun
    cases heq
    cases hid : symrgIndex (argInt ins.arg1) with
    | ok r' =>
      obtain ⟨ret, addr, s1, mm, hspace, hpaged, -⟩ := tlballoc_space h (lt_of_symrgIndex hid) hres
      rw [hpaged.space.symrgtbl, System.setMm_self]
      exact hspace.symrgtbl_of_ne fun e => hr.1 halloc (by rw [e])
    | error e =>
      -- `__alloc` has failed as it would have for another region
      obtain ⟨r', hr'⟩ := exists_ne r
      unfold tlballoc allocRgid at hres
      simp only [hid] at hres
      cases hout : allocOutside s p (argInt ins.arg0) raw with
      | error e => simp [hout] at hres
      | ok res =>
        obtain ⟨ret, addr, s1⟩ := res
        obtain ⟨rfl, heq⟩ := allocOutside_spec hout r'
        obtain ⟨h0, h1⟩ := argInt_range ins.arg0
        obtain ⟨mm, hpaged, hspace⟩ := alloc_space h r' h0 h1 heq
        simp only [hout] at hres
        rw [if_pos (by decide)] at hres
        cases hres
        rw [hpaged.space.symrgtbl, System.setMm_self]
        exact hspace.symrgtbl_of_ne hr'.symm
  by_cases hfree : ins.opcode = .FREE
  · unfold run at hrun
    simp only [hfree] at hrun
    obtain ⟨res, hres, heq⟩ := ok_of_map hrun
    cases heq
    obtain rfl | hid := lt_of_tlbfreeData hres
    · rfl
    · obtain ⟨tlb, heq⟩ := tlbfreeData_free s p hid
      rw [heq] at hres
      cases hres
      obtain ⟨-, hpaged⟩ | ⟨-, hpaged⟩ := free_space s p ⟨ins.arg0.toNat, hid⟩
      · exact congrFun hpaged.space.symrgtbl r
      · rw [System.setTlb_mm, hpaged.space.symrgtbl, System.setMm_self]
        exact Function.update_of_ne (fun e => hr.2 hfree (by rw [e])) ..
  · exact congrFun (Keeps.run ⟨halloc, hfree⟩ hrun).paged.space.symrgtbl r

/-- A region stays as it is until it is allocated or freed. -/
theorem symrgtbl_of_leftAlone (ht : AllSpaceInv t) (h : LeftAlone c p r t u) :
    (u.mm p).symrgtbl r = (t.mm p).symrgtbl r := by
  obtain ⟨tr, hpath, halone⟩ := h
  refine (hpath.invariant_of_forall (I := fun u => AllSpaceInv u ∧
    (u.mm p).symrgtbl r = (t.mm p).symrgtbl r) ?_ halone ⟨ht, rfl⟩).2
  intro s a s' ha hi hst
  obtain ⟨mm, hmm, hpaged⟩ := (hi.1 a.proc).buildRun hst.1
  refine ⟨hi.1.of_paged hmm hpaged, ?_⟩
  by_cases hp : a.proc = p
  · have hrun : run s a.proc a.ins a.raw = .ok (a.out, s') := hst.1
    rw [hp] at hrun
    rw [← hi.2]
    exact symrgtbl_of_run (hi.1 p) hrun (ha hp)
  · rw [hpaged.others p (Ne.symm hp), System.setMm_of_ne _ _ _ (Ne.symm hp)]
    exact hi.2

end

/-! ## `ALLOC` -/

theorem alignedSize_div (n : ℕ) : alignedSize n / 256 = n ⌈/⌉ pagingPagesz := by
  rw [Nat.ceilDiv_eq_add_pred_div]
  exact Nat.mul_div_cancel _ (by norm_num)

theorem pagingPageAlignszU_div {size : BitVec 32} (h : size.toNat + 255 < 2 ^ 32) :
    pagingPageAlignszU size / pagingPagesz = size.toNat ⌈/⌉ pagingPagesz := by
  have hsum : (size + 255#32).toNat = size.toNat + 255 := by
    rw [BitVec.toNat_add]
    exact Nat.mod_eq_of_lt h
  rw [pagingPageAlignszU, hsum, ← alignedSize_div]
  rfl

section

variable {c : Config ι} {p : ι} {s : System ι}

/-- `tlballoc` for a size that is rounded up: it fails, or `__alloc` carries out its plan and all its
pages are cached. -/
theorem tlballoc_planned (h : SpaceInv (s.mm p)) (hne : (s.mm p).mmap.vmFreergList ≠ [])
    {regIndex size : BitVec 32} (hid : regIndex.toNat < pagingMaxSymtblSz)
    (hn1 : 1 ≤ size.toNat) (hn : size.toNat + 255 < 2 ^ 31) (raw : List ℤ) :
    ∃ stat t, tlballoc s p size regIndex raw = .ok (stat, t) ∧
      ((stat = -1 ∧ ¬ Servable s p size.toNat) ∨ (stat = 0 ∧ Servable s p size.toNat ∧
        (∃ plan, allocPlan (s.mm p) size.toNat = some plan ∧
          plan.count = size.toNat ⌈/⌉ pagingPagesz) ∧
        ∃ addr mm, AllocSpace size.toNat ⟨regIndex.toNat, hid⟩ (s.mm p) 0 addr mm ∧
          Paged p (s.setMm p mm) t)) := by
  have hle := le_alignedSize size.toNat
  have hint : argInt size = size.toNat := argInt_eq (by omega)
  have heq := pagingPageAlignsz_of_lt hn
  obtain ⟨⟨ret, addr, s1⟩, halloc, hres⟩ := alloc_returns h hne (by omega) (by omega)
    (show pagingPageAlignsz size.toNat ≠ 0 by omega) ⟨regIndex.toNat, hid⟩ raw
  obtain ⟨mm, hpaged, hspace⟩ := alloc_space h _ (by omega) (by omega) halloc
  unfold tlballoc
  simp only [allocRgid_eq hid, hint, halloc]
  obtain ⟨hret, hyes⟩ | ⟨hret, hno⟩ := hres.servable_iff h hne hn1 hn <;> simp only at hret <;>
    subst hret
  · rw [if_neg (by decide)]
    obtain ⟨⟨hneg, -⟩ | ⟨-, plan, hplan, -, haddr, hresident⟩⟩ := hres
    · cases hneg
    obtain ⟨-, start, -, heq'⟩ | ⟨-, -, hnone⟩ :=
      allocPlan_cases (show -2 ^ 31 ≤ (size.toNat : ℤ) by omega) (by omega) h hne (by omega)
    · rw [hplan] at heq'
      cases heq'
      simp only [heq, Int.toNat_natCast] at haddr hresident hplan
      -- the pages that are cached are those that have been mapped
      obtain ⟨hcached, -⟩ := (tlbCachePages_iff p (pagingPageAlignszU size / pagingPagesz)
        (pagingPgn addr) s1).mpr fun k hk => (hresident k).mpr (.inl (by
          rwa [pagingPageAlignszU_div (by omega), ← alignedSize_div, haddr] at hk))
      refine ⟨_, _, rfl, .inr ⟨hcached, hyes, ⟨_, hplan, alignedSize_div _⟩, addr, mm, hspace, ?_⟩⟩
      exact hpaged.trans (.tlbCachePages ..)
    · rw [hplan] at hnone
      cases hnone
  · rw [if_pos (by decide)]
    exact ⟨_, _, rfl, .inl ⟨rfl, hno⟩⟩

/-- With no pages to map `vm_map_ram` does nothing. -/
theorem vmMapRam_nothing {mapstart incpgnum : ℤ} (h : incpgnum.toNat = 0) (raw : List ℤ) :
    vmMapRam s p mapstart incpgnum raw = (0, s) := by
  unfold vmMapRam
  simp only [h, allocPagesRange, vmapPageRange, vmapLoop, System.setMm_eta, lt_self_iff_false,
    if_false]

/-- `__alloc` for a size that is rounded down below 0 changes the regions only. -/
theorem alloc_unmapped (h : SpaceInv (s.mm p)) {size : ℤ} (h0 : -2 ^ 31 ≤ size)
    (h1 : size < 2 ^ 31) (ha : pagingPageAlignsz size < 0) {r : Fin pagingMaxSymtblSz}
    {raw : List ℤ} {stat addr : ℤ} {t : System ι}
    (halloc : alloc s p r size raw = .ok (stat, addr, t)) :
    (t.mm p).pgd = (s.mm p).pgd ∧ t.mram = s.mram := by
  obtain ⟨hlo, -⟩ := pagingPageAlignsz_range h0 h1
  have hbound := h.bound
  unfold alloc at halloc
  cases hget : getFreeVmrgArea (s.mm p).mmap.vmFreergList (pagingPageAlignsz size) with
  | none => simp [hget] at halloc
  | some res =>
    obtain ⟨newrg, rgs⟩ := res
    obtain ⟨heq, -⟩ | ⟨rg, rgs', heq, -, -, hstart, hend, hlen⟩ :=
      getFreeVmrgArea_under h.bound h.free hget <;> cases heq
    · -- the break is not raised
      have hsum := u64_cast ((s.mm p).mmap.sbrk + pagingPageAlignsz size)
      have hint := i32_eq (u64 ((s.mm p).mmap.sbrk + pagingPageAlignsz size))
      have hv : validateOverlapVmArea (s.mm p).vmNext (i32 (s.mm p).mmap.sbrk)
          (i32 (u64 ((s.mm p).mmap.sbrk + pagingPageAlignsz size))) < 0 := by
        rw [h.vmNext, validateOverlapVmArea_nil, i32_natCast hbound, if_pos (by omega)]
        decide
      simp only [hget, Except.ok.injEq] at halloc
      unfold allocSbrk incVmaLimit at halloc
      simp only [setFreerg_self, hv, if_true] at halloc
      rw [if_pos (by decide)] at halloc
      cases halloc
      simp [setFreerg]
    · have hpages : ((pagingPageAlignsz (i32 (rg.rgEnd - rg.rgStart))).tdiv pagingPagesz).toNat =
          0 := by
        have hsum := u64_cast (rg.rgStart + pagingPageAlignsz size)
        have hlen' : (rg.rgEnd : ℤ) - rg.rgStart = pagingPageAlignsz size := by omega
        rw [hlen', i32_of_range hlo (by omega), pages_pagingPageAlignsz h0 h1,
          Int.toNat_of_nonpos ha.le, Nat.zero_div]
      simp only [hget, Except.ok.injEq] at halloc
      unfold allocFreerg at halloc
      simp only [vmMapRam_nothing hpages, lt_self_iff_false, if_false] at halloc
      cases halloc
      simp [setSymrg, setFreerg]

/-- `tlballoc` for such a size fails: it finds no page behind those that are ever mapped. -/
theorem tlballoc_refused (h : SpaceInv (s.mm p)) (hne : (s.mm p).mmap.vmFreergList ≠ [])
    (hb : PagesBelow pagingMaxPgn (s.mm p)) {regIndex size : BitVec 32}
    (hid : regIndex.toNat < pagingMaxSymtblSz) (hbig : 2 ^ 31 ≤ size.toNat + 255)
    (hle : size.toNat ≤ 2 ^ 32 - 511) (raw : List ℤ) :
    ∃ stat t, tlballoc s p size regIndex raw = .ok (stat, t) ∧ stat ≠ 0 := by
  obtain ⟨h0, h1⟩ := argInt_range size
  obtain ⟨-, hneg⟩ := pagingPageAlignsz_neg hbig hle
  obtain ⟨⟨ret, addr, s1⟩, halloc, -⟩ := alloc_returns h hne h0 h1 hneg.ne
    ⟨regIndex.toNat, hid⟩ raw
  have hpgn := pagingPgn_lt addr
  unfold tlballoc
  simp only [allocRgid_eq hid, halloc]
  split_ifs with hret
  · exact ⟨_, _, rfl, by decide⟩
  · refine ⟨_, _, rfl, fun hstat => ?_⟩
    have hpres := ((tlbCachePages_status_iff ..).mp hstat).present pagingMaxPgn ⟨hpgn.le, by
      rw [pagingPageAlignszU_div (by omega), Nat.ceilDiv_eq_add_pred_div]
      unfold pagingPagesz pagingMaxPgn
      omega⟩
    rw [(alloc_unmapped h h0 h1 hneg halloc).1] at hpres
    exact absurd (hb.present _ hpres) (lt_irrefl _)

/-- Of the sizes that are rounded up, those rounded to `2^31 - 256` overflow when they are rounded
once more. -/
theorem AllocSpace.noOverflow_iff {n : ℕ} {r : Fin pagingMaxSymtblSz} {mm mm' : Mm} {addr : ℤ}
    (hspace : AllocSpace n r mm 0 addr mm') (h : SpaceInv mm) (hn : n + 255 < 2 ^ 31)
    (hroom : Fits mm n ∨ mm.mmap.sbrk + alignedSize n < 2 ^ 31) :
    NoOverflow mm n (mm'.symrgtbl r) ↔ alignedSize n + 256 < 2 ^ 31 := by
  have hle := le_alignedSize n
  have heq := pagingPageAlignsz_of_lt hn
  have hfit := fitting_iff h hn
  obtain ⟨hfits, rg, rgs, -, hend, -, rfl⟩ | ⟨hfits, -, rfl⟩ := hspace.success h hn
  · have hlen : (rg.rgEnd : ℤ) - rg.rgStart = alignedSize n := by omega
    have hsym : ((mm.setRegions rgs r rg).symrgtbl r) = rg := Function.update_self ..
    rw [hsym]
    constructor
    · rintro ⟨-, -, -, hlt⟩
      unfold pagingPagesz at hlt
      omega
    · intro hlt
      exact ⟨⟨by omega, by unfold pagingPagesz; omega⟩, fun hno => absurd (hfit.mpr hfits) hno,
        ⟨by omega, by unfold pagingPagesz; omega⟩⟩
  · have hbrk := hroom.resolve_left hfits
    have hsym : (((mm.raise (alignedSize n)).setRegions mm.mmap.vmFreergList r
        ⟨mm.mmap.sbrk, mm.mmap.sbrk + n⟩).symrgtbl r) = ⟨mm.mmap.sbrk, mm.mmap.sbrk + n⟩ :=
      Function.update_self ..
    rw [hsym]
    constructor
    · rintro ⟨-, hraise, -⟩
      obtain ⟨⟨-, hlt⟩, -⟩ := hraise fun hf => hfits (hfit.mp hf)
      unfold pagingPagesz at hlt
      omega
    · intro hlt
      refine ⟨⟨by omega, by unfold pagingPagesz; omega⟩, fun _ => ⟨?_, by omega, by omega⟩, ?_⟩
      · rw [heq]
        exact ⟨by omega, by unfold pagingPagesz; omega⟩
      · exact ⟨by push_cast; omega, by unfold pagingPagesz; push_cast; omega⟩

end

section

variable {p : ι} {s : System ι} {regIndex size : BitVec 32}

/-- For a size that is rounded up, `tlballoc` looks up the pages that `__alloc` has mapped. -/
theorem MapsInTable.caches_of_pos (hmaps : MapsInTable s p (argInt size)) (hs : SpaceInv (s.mm p))
    (hne : (s.mm p).mmap.vmFreergList ≠ []) (hn1 : 1 ≤ size.toNat)
    (hn : size.toNat + 255 < 2 ^ 31) (raw : List ℤ) : CachesInTable s p size regIndex raw := by
  have hle := le_alignedSize size.toNat
  have hint : argInt size = size.toNat := argInt_eq (by omega)
  have heq := pagingPageAlignsz_of_lt hn
  refine hmaps.caches (fun plan hplan => ?_) regIndex raw
  rw [hint] at hplan
  obtain ⟨-, start, -, heq'⟩ | ⟨-, -, hnone⟩ :=
    allocPlan_cases (show -2 ^ 31 ≤ (size.toNat : ℤ) by omega) (by omega) hs hne (by omega)
  · rw [hplan, heq, Int.toNat_natCast] at heq'
    cases heq'
    exact ⟨rfl, by rw [pagingPageAlignszU_div (by omega), alignedSize_div]⟩
  · rw [hplan] at hnone
    cases hnone

/-- For a size that is rounded down below 0, `__alloc` has mapped nothing, and the pages that
`tlballoc` looks up are as before. -/
theorem cachesInTable_neg_iff (hs : SpaceInv (s.mm p)) (hne : (s.mm p).mmap.vmFreergList ≠ [])
    (hid : regIndex.toNat < pagingMaxSymtblSz) (hbig : 2 ^ 31 ≤ size.toNat + 255)
    (hle : size.toNat ≤ 2 ^ 32 - 511) (raw : List ℤ) :
    CachesInTable s p size regIndex raw ↔ StopsInTable s p (argInt size) := by
  obtain ⟨h0, h1⟩ := argInt_range size
  obtain ⟨-, hneg⟩ := pagingPageAlignsz_neg hbig hle
  obtain ⟨⟨ret, addr, t⟩, halloc, ⟨hres⟩⟩ := alloc_returns hs hne h0 h1 hneg.ne
    ⟨regIndex.toNat, hid⟩ raw
  obtain ⟨hpgd, hram⟩ := alloc_unmapped hs h0 h1 hneg halloc
  unfold CachesInTable StopsInTable
  simp only [allocRgid_eq hid, halloc]
  obtain ⟨-, start, -, hplan⟩ | ⟨-, -, hplan⟩ := allocPlan_cases h0 h1 hs hne hneg.ne <;>
    rw [hplan] at hres ⊢
  · simp only [Option.some.injEq, forall_eq', exists_eq_left', Int.toNat_of_nonpos hneg.le,
      Nat.zero_div] at hres ⊢
    obtain ⟨-, hno⟩ | ⟨rfl, -, rfl, -⟩ := hres
    · exact absurd ⟨by simp, by simp⟩ hno
    · have hcount : ¬ pagingPgn start + pagingPageAlignszU size / pagingPagesz ≤ pagingMaxPgn := by
        rw [pagingPageAlignszU_div (by omega), Nat.ceilDiv_eq_add_pred_div]
        unfold pagingPagesz pagingMaxPgn
        omega
      rw [forall_prop_of_true rfl, or_iff_right hcount, ne_eq, tlbCachePages_status_iff,
        cacheable_congr (fun _ _ => congrFun hpgd _) (by rw [hram])]
  · obtain ⟨hret, -⟩ | ⟨-, plan, hno, -⟩ := hres
    · simp only at hret
      subst hret
      exact iff_of_true (fun h => absurd h (by decide)) fun _ h => absurd h (by simp)
    · cases hno

end

/-- In every run: an `ALLOC` of `size` bytes is refused, or no `int` overflows and the pages mapped,
cached and released later are `⌈size / 256⌉`, exactly if the size is from 1 to `2^32 - 511` and is
none of those from `2^31 - 511` to `2^31 - 256` for which there is room; the list of free regions
does not lead to the variable of an `__alloc` that has returned; the pages to be mapped have entries;
and, from `2^31 - 255` on, `tlballoc` comes to a page that it cannot bring to RAM before the end of
the page table. -/
theorem allocConsistent_iff {c : Config ι} {tr : List (Label ι)} {s : System ι}
    (h : (definedLts .cpuTlb c).Run tr s) (p : ι) {regIndex : BitVec 32}
    (hid : regIndex.toNat < pagingMaxSymtblSz) (size : BitVec 32) (raw : List ℤ) :
    AllocConsistent c s p regIndex hid size raw ↔
      (1 ≤ size.toNat ∧ size.toNat ≤ 2 ^ 32 - 511) ∧
        (2 ^ 31 - 511 ≤ size.toNat → size.toNat ≤ 2 ^ 31 - 256 → ¬ Servable s p size.toNat) ∧
        ((s.mm p).mmap.dangling = false ∧ MapsInTable s p (argInt size)) ∧
        (2 ^ 31 ≤ size.toNat + 255 → StopsInTable s p (argInt size)) := by
  obtain ⟨hs, hne⟩ := freerg_ne_nil_of_run h p
  unfold AllocConsistent
  by_cases ha : pagingPageAlignsz (argInt size) = 0
  · refine iff_of_false ?_ fun hc => pagingPageAlignsz_zero_iff.mp ha hc.1
    rintro ⟨-, stat, t, heq, -⟩
    unfold tlballoc at heq
    simp [allocRgid_eq hid, alloc_diverges hs hne ha] at heq
  have hsize := not_not.mp (mt pagingPageAlignsz_zero_iff.mpr ha)
  rw [and_iff_right hsize, defined_alloc_iff, forall_prop_of_true rfl, allocDefined_iff]
  by_cases hbig : 2 ^ 31 ≤ size.toNat + 255
  · obtain ⟨stat, t, heq, hstat⟩ :=
      tlballoc_refused hs hne (pagesBelow_of_run h p) hid hbig hsize.2 raw
    rw [forall_prop_of_true hbig, cachesInTable_neg_iff hs hne hid hbig hsize.2,
      and_iff_left ⟨stat, t, heq, .inl hstat⟩,
      and_iff_right fun _ hle => not_servable hs (by omega)]
  have hn : size.toNat + 255 < 2 ^ 31 := not_le.mp hbig
  have hcounts : (∃ stat t, tlballoc s p size regIndex raw = .ok (stat, t) ∧
      (stat ≠ 0 ∨ CountsAgree c s p ⟨regIndex.toNat, hid⟩ size t)) ↔
      (2 ^ 31 - 511 ≤ size.toNat → size.toNat ≤ 2 ^ 31 - 256 → ¬ Servable s p size.toNat) := by
    obtain ⟨stat, t, heq, ⟨rfl, hno⟩ | ⟨rfl, hyes, hmaps, addr, mm, hspace, hpaged⟩⟩ :=
      tlballoc_planned hs hne hid hsize.1 hn raw
    · exact iff_of_true ⟨_, _, heq, .inl (by decide)⟩ fun _ _ => hno
    have hsym : (t.mm p).symrgtbl = mm.symrgtbl := by
      rw [hpaged.space.symrgtbl, System.setMm_self]
    have hint : argInt size = size.toNat := argInt_eq (by omega)
    have hover := hspace.noOverflow_iff hs hn hyes.1
    rw [← hsym] at hover
    have hrange : (2 ^ 31 - 511 ≤ size.toNat → size.toNat ≤ 2 ^ 31 - 256 →
        ¬ Servable s p size.toNat) ↔ alignedSize size.toNat + 256 < 2 ^ 31 := by
      constructor
      · intro hc
        by_contra hge
        unfold alignedSize at hge
        exact hc (by omega) (by omega) hyes
      · intro hlt h1 _
        unfold alignedSize at hlt
        omega
    rw [hrange, ← hover]
    constructor
    · rintro ⟨stat, t', heq', hstat | hcounts⟩ <;> rw [heq] at heq' <;> cases heq'
      · exact absurd rfl hstat
      · exact hint ▸ hcounts.noOverflow
    · intro hno
      refine ⟨_, _, heq, .inr ⟨by rw [hint]; exact hno, by rw [hint]; exact hmaps,
        pagingPageAlignszU_div (by omega), fun u hu => ?_⟩⟩
      have hall : AllSpaceInv t :=
        (allSpaceInv_of_buildRun h.of_guard).of_paged (hspace.spaceInv hs) hpaged
      rw [symrgtbl_of_leftAlone hall hu, hsym, (hspace.block hs hsize.1 hn).2.2, alignedSize_div]
  rw [hcounts, and_iff_left fun hge => absurd hge hbig]
  constructor
  · rintro ⟨⟨hmeaning, -⟩, hno⟩
    exact ⟨hno, hmeaning⟩
  · rintro ⟨hno, hmeaning⟩
    exact ⟨⟨hmeaning, hmeaning.2.caches_of_pos hs hne hsize.1 hn raw⟩, hno⟩

/-- At the start 300 bytes have two pages. -/
theorem allocConsistent_two_pages :
    AllocConsistent (Config.two 1024 0) (Config.two 1024 0).init 0 0 (by decide) 300#32 [] :=
  (allocConsistent_iff (show (definedLts .cpuTlb (Config.two 1024 0)).Run [] _ from
    ⟨_, rfl, .nil⟩) 0 (by decide) 300#32 []).mpr ⟨by decide, fun h => absurd h (by decide),
      ⟨rfl, by decide⟩, fun h => absurd h (by decide)⟩

/-- At the start an `ALLOC` of `2^32 - 1` bytes is not refused: it does not return. -/
theorem not_allocConsistent_max :
    ¬ AllocConsistent (Config.two 1024 0) (Config.two 1024 0).init 0 0 (by decide)
      4294967295#32 [] := by
  rintro ⟨-, stat, t, heq, -⟩
  have halloc : alloc (Config.two 1024 0).init 0 ⟨(0 : BitVec 32).toNat, by decide⟩
      (argInt 4294967295#32) [] = .error .diverges :=
    alloc_diverges MmInv.initMm.spaceInv (by simp [Config.init, initMm, Mm.zero])
      (pagingPageAlignsz_zero_iff.mpr (by decide)) _ _
  unfold tlballoc at heq
  rw [allocRgid_eq (by decide), halloc] at heq
  cases heq

end OsSim.Mem
