import OsSim.Mem.Coherence

/-!
# The FIFO list of resident pages

The list holds resident pages only, each once (`MmInv`). The converse fails: when
there is a victim but nowhere to put it, `find_victim_page` has already taken it
off the list, and it stays resident but can never be evicted again. That happens
in two places: `alloc_pages_range` finds no free swap slot, and `pg_getpage` finds
no free frame (the loop that looks for a slot there is never entered).

Results:
* `VictimsKept`: an instruction does not come to either place.
* `fifoExact_of_run`: in runs of such instructions the list holds exactly the
  resident pages.
* `not_fifoExact_noSlot`: a run with a failing `ALLOC`.
-/

namespace OsSim.Mem

variable {ι : Type*} [DecidableEq ι]

/-- The FIFO list holds each resident page once, and no other page. -/
structure FifoExact (mm : Mm) : Prop where
  nodup : mm.fifoPgn.Nodup
  mem_iff : ∀ pgn, pgn ∈ mm.fifoPgn ↔ Resident (mm.pgd pgn)

/-- The resident pages are on the FIFO list. -/
def Mm.Listed (mm : Mm) : Prop := ∀ pgn, Resident (mm.pgd pgn) → pgn ∈ mm.fifoPgn

theorem MmInv.fifoExact {mm : Mm} (h : MmInv mm) (hl : mm.Listed) : FifoExact mm :=
  ⟨h.fifo_nodup, fun pgn => ⟨h.fifo_resident pgn, hl pgn⟩⟩

/-! ## When no victim is dropped -/

/-- `alloc_pages_range` for `n` pages does not come to a victim for which no slot is free. -/
def AllocKeeps (s : System ι) (p : ι) (n : ℕ) : Prop :=
  ¬ ((s.mswp 0).avail.length < n - s.mram.avail.length ∧
    (s.mswp 0).avail.length < (s.mm p).fifoPgn.length)

/-- `pg_getpage` for page `pgn` does not look for a victim. -/
def FetchKeeps (s : System ι) (p : ι) (pgn : ℕ) : Prop :=
  Present ((s.mm p).pgd pgn) → Swapped ((s.mm p).pgd pgn) → s.mram.avail = [] →
    (s.mm p).fifoPgn = []

/-- `FetchKeeps` for the page of an access to region `rgid` at `offset`. -/
def AccessKeeps (s : System ι) (p : ι) (rgid offset : BitVec 32) : Prop :=
  ∀ r : Fin pagingMaxSymtblSz, r = rgid.toNat → ¬ OutOfRange ((s.mm p).symrgtbl r) offset →
    FetchKeeps s p (pagingPgn (rgAddr ((s.mm p).symrgtbl r) offset))

/-- The instruction does not take a victim off the list without evicting it. For a `FREE` only the
first page matters: when it has been released, a frame is free. -/
def VictimsKept (s : System ι) (p : ι) (ins : Inst) : Prop :=
  match ins.opcode with
  | .CALC => True
  | .ALLOC => AllocKeeps s p (alignedSize ins.arg0.toNat / 256)
  | .FREE => ∀ r : Fin pagingMaxSymtblSz, r = ins.arg0.toNat →
      0 < regionPages ((s.mm p).symrgtbl r) →
      FetchKeeps s p (pagingPgn (i32 ((s.mm p).symrgtbl r).rgStart))
  | .READ => AccessKeeps s p ins.arg0 ins.arg1
  | .WRITE => AccessKeeps s p ins.arg1 ins.arg2

instance (s : System ι) (p : ι) (n : ℕ) : Decidable (AllocKeeps s p n) :=
  inferInstanceAs (Decidable (¬ _))

instance (s : System ι) (p : ι) (pgn : ℕ) : Decidable (FetchKeeps s p pgn) :=
  inferInstanceAs (Decidable (_ → _))

instance (s : System ι) (p : ι) (rgid offset : BitVec 32) :
    Decidable (AccessKeeps s p rgid offset) :=
  inferInstanceAs (Decidable (∀ _, _))

instance (s : System ι) (p : ι) (ins : Inst) : Decidable (VictimsKept s p ins) :=
  match h : ins.opcode with
  | .CALC => decidable_of_iff True (by simp [VictimsKept, h])
  | .ALLOC => decidable_of_iff (AllocKeeps s p (alignedSize ins.arg0.toNat / 256))
      (by simp [VictimsKept, h])
  | .FREE => decidable_of_iff (∀ r : Fin pagingMaxSymtblSz, r = ins.arg0.toNat →
      0 < regionPages ((s.mm p).symrgtbl r) →
      FetchKeeps s p (pagingPgn (i32 ((s.mm p).symrgtbl r).rgStart))) (by simp [VictimsKept, h])
  | .READ => decidable_of_iff (AccessKeeps s p ins.arg0 ins.arg1) (by simp [VictimsKept, h])
  | .WRITE => decidable_of_iff (AccessKeeps s p ins.arg1 ins.arg2) (by simp [VictimsKept, h])

/-! ## Page table entries and the list -/

theorem Mm.Listed.congr {mm mm' : Mm} (h : mm.Listed) (hpgd : mm'.pgd = mm.pgd)
    (hfifo : mm'.fifoPgn = mm.fifoPgn) : mm'.Listed := by
  unfold Mm.Listed
  rw [hpgd, hfifo]
  exact h

/-- One entry and the list change. -/
theorem Mm.Listed.update {mm : Mm} (h : mm.Listed) {pgn : ℕ} {pte : Pte} {fifo : List ℕ}
    (hself : Resident pte → pgn ∈ fifo) (hother : ∀ k, k ≠ pgn → k ∈ mm.fifoPgn → k ∈ fifo) :
    Mm.Listed { mm with pgd := Function.update mm.pgd pgn pte, fifoPgn := fifo } := by
  intro k hk
  simp only [Function.update_apply] at hk
  split_ifs at hk with hkp
  · rw [hkp]
    exact hself hk
  · exact hother k hkp (h k hk)

/-- The victim leaves the list and its frame. -/
theorem Mm.Listed.swapOut {mm : Mm} (h : mm.Listed) {vicpgn : ℕ}
    (hlast : mm.fifoPgn.getLast? = some vicpgn) (swptyp swpoff : ℤ) :
    Mm.Listed { mm with
      pgd := Function.update mm.pgd vicpgn (pteSetSwap (mm.pgd vicpgn) swptyp swpoff)
      fifoPgn := mm.fifoPgn.dropLast } := by
  refine h.update (fun hr => absurd (swapped_pteSetSwap ..) hr.2) fun k hne hmem => ?_
  rw [← List.dropLast_append_getLast? vicpgn hlast, List.mem_append, List.mem_singleton] at hmem
  exact hmem.resolve_right hne

/-- A page that gets a frame enters the list. -/
theorem Mm.Listed.setFpn {mm : Mm} (h : mm.Listed) (pgn : ℕ) (fpn : ℤ) :
    Mm.Listed { mm with
      pgd := Function.update mm.pgd pgn (pteSetFpn (mm.pgd pgn) fpn)
      fifoPgn := enlistPgnNode mm.fifoPgn pgn } :=
  h.update (fun _ => List.mem_cons_self) fun _ _ hmem => List.mem_cons_of_mem _ hmem

/-- A page that gives up its frame leaves the list. -/
theorem Mm.Listed.release {mm : Mm} (h : mm.Listed) (pgn : ℕ) :
    Mm.Listed { mm with
      pgd := Function.update mm.pgd pgn (BitField.clrbit (mm.pgd pgn) presentMask)
      fifoPgn := clearPgnNode mm.fifoPgn pgn } :=
  h.update (fun hr => absurd hr.1 (not_present_clrbit _))
    fun _ hne hmem => (List.mem_erase_of_ne hne).mpr hmem

/-! ## Allocation -/

theorem listed_allocPagesRange (p : ι) (raw : List ℤ) (n : ℕ) (held : List ℤ) (s : System ι)
    (hslots : ∀ x ∈ (s.mswp 0).freeFpList, 0 ≤ x) (h : (s.mm p).Listed) (hk : AllocKeeps s p n) :
    ((allocPagesRange p raw n held s).2.2.mm p).Listed := by
  induction n generalizing held s with
  | zero => exact h
  | succ n ih =>
    unfold AllocKeeps at hk
    unfold allocPagesRange
    obtain ⟨hget, hav⟩ | ⟨fpn, rest, hget, hl, hav, hav'⟩ := memphyGetFreefp_eq s.mram
    · simp only [hget, findVictimPage]
      cases hlast : (s.mm p).fifoPgn.getLast? with
      | none => exact h
      | some vicpgn =>
        have hfifo := length_of_getLast? hlast
        rw [hav, hfifo] at hk
        simp only
        obtain ⟨hslots', i, hsearch⟩ | ⟨slot, rest, hl, hslots', hrest, h0, hsearch⟩ :=
          swapSearch_eq (s.setFifo p (s.mm p).fifoPgn.dropLast) hslots
        · -- a victim and no slot
          rw [System.setFifo_mswp] at hslots'
          rw [hslots'] at hk
          exact absurd ⟨by simp, by simp⟩ hk
        · rw [System.setFifo_mswp] at hl hslots' hrest
          simp only [hsearch, show ¬ slot < 0 by omega, if_false, swapOut_fst]
          have hlists := swapOut_lists (s.setFifo p (s.mm p).fifoPgn.dropLast) p vicpgn slot rest
          have hmm := swapOut_mm (s.setFifo p (s.mm p).fifoPgn.dropLast) p vicpgn slot rest
          have hfr := Frame.swapOut p (s.setFifo p (s.mm p).fifoPgn.dropLast) vicpgn slot rest
          simp only [System.setFifo_mram, System.setFifo_self] at hlists hmm
          refine ih _ _ (fun x hx => hslots x ?_) ?_ ?_
          · rw [hlists.2] at hx
            rw [hl]
            exact List.mem_cons_of_mem _ hx
          · rw [hmm]
            exact h.swapOut hlast 0 slot
          · unfold AllocKeeps
            rw [hmm, Memphy.avail_congr _ hfr.ramSize hlists.1, System.setFifo_mram, hav,
              Memphy.avail_congr ((s.mswp 0).setFree rest) hfr.swpSize hlists.2, hrest]
            rw [hslots'] at hk
            simp only [List.length_cons, List.length_nil] at hk ⊢
            omega
    · simp only [hget]
      refine ih _ _ hslots h ?_
      unfold AllocKeeps
      simp only [hav']
      rw [hav, List.length_cons] at hk
      omega

theorem listed_vmapLoop (pgn left pgit : ℕ) (frames : List ℤ) {mm : Mm} (h : mm.Listed) :
    (vmapLoop pgn left pgit frames mm).Listed := by
  induction left generalizing pgit frames mm with
  | zero => exact h
  | succ left ih =>
    cases frames with
    | nil => exact h
    | cons fpn frames => exact ih _ _ (h.setFpn (pgn + pgit) fpn)

theorem listed_vmMapRam (s : System ι) (p : ι) (mapstart : ℤ) (n : ℕ) (raw : List ℤ)
    (hslots : ∀ x ∈ (s.mswp 0).freeFpList, 0 ≤ x) (h : (s.mm p).Listed) (hk : AllocKeeps s p n) :
    ((vmMapRam s p mapstart n raw).2.mm p).Listed := by
  have hg := listed_allocPagesRange p raw n [] s hslots h hk
  unfold vmMapRam
  rw [Int.toNat_natCast]
  simp only
  split_ifs
  · exact hg
  · rw [System.setMm_self]
    exact listed_vmapLoop _ _ 0 _ hg

/-- `__alloc` for `n` bytes. -/
theorem listed_alloc {s : System ι} {p : ι} (h : ProcOk s p) (hl : (s.mm p).Listed)
    (r : Fin pagingMaxSymtblSz) {n : ℕ} (hn1 : 1 ≤ n) (hn : n ≤ 2 ^ 22)
    (hk : AllocKeeps s p (alignedSize n / 256)) (raw : List ℤ) {res : ℤ × ℤ × System ι}
    (hres : alloc s p r n raw = .ok res) : (res.2.2.mm p).Listed := by
  have hle := le_alignedSize n
  have hsz := alignedSize_le hn
  obtain ⟨newrg, rgs, heq, -, -, -, hnew⟩ := getFreeVmrgArea_spec h.mm.bound
    (by omega) hsz (dvd_alignedSize n) h.mm.free
  -- the regions may change before the frames are gathered
  have hmap : ∀ (mm : Mm) (mapstart : ℤ), mm.pgd = (s.mm p).pgd →
      mm.fifoPgn = (s.mm p).fifoPgn → ((vmMapRam (s.setMm p mm) p mapstart
        ((alignedSize n / 256 : ℕ) : ℤ) raw).2.mm p).Listed := by
    intro mm mapstart hpgd hfifo
    refine listed_vmMapRam (s.setMm p mm) p mapstart _ raw h.slots ?_ ?_
    · rw [System.setMm_self]
      exact hl.congr hpgd hfifo
    · unfold AllocKeeps
      rw [System.setMm_self, hfifo]
      exact hk
  unfold alloc at hres
  rw [pagingPageAlignsz_natCast hn, heq] at hres
  cases newrg with
  | some rg =>
    cases hres
    have hpages := pages_of_end hn (hnew rg rfl).2.1
    have hm := hmap { s.mm p with
      mmap := { (s.mm p).mmap with vmFreergList := rgs }
      symrgtbl := Function.update (s.mm p).symrgtbl r rg } (i32 rg.rgStart) rfl rfl
    unfold allocFreerg
    simp only [setSymrg_setFreerg, hpages]
    generalize vmMapRam _ p _ _ raw = res at hm
    split_ifs
    · exact hm.congr (by simp) (by simp)
    · exact hm
  | none =>
    cases hres
    have hcount : (pagingPageAlignsz (alignedSize n : ℤ)).tdiv pagingPagesz =
        ((alignedSize n / 256 : ℕ) : ℤ) := by
      rw [pagingPageAlignsz_natCast hsz, alignedSize_of_dvd (dvd_alignedSize n)]
      rfl
    have hinc : ((incVmaLimit (setFreerg s p rgs) p (alignedSize n) raw).2.mm p).Listed := by
      unfold incVmaLimit
      simp only [hcount]
      split_ifs
      · exact hl.congr (by simp) (by simp)
      · rw [setFreerg, System.setMm_setMm]
        exact hmap _ _ (by simp) (by simp)
    unfold allocSbrk
    simp only [pagingPageAlignsz_natCast hn]
    split_ifs
    · exact hinc
    · exact hinc.congr (by simp) (by simp)
    · exact hinc.congr (by simp) (by simp)

/-! ## Fetching and releasing pages -/

theorem listed_pgGetpage {s : System ι} {p : ι} (h : (s.mm p).Listed) {pgn : ℕ}
    (hk : FetchKeeps s p pgn) : ((pgGetpage s p pgn).2.2.mm p).Listed := by
  obtain ⟨-, hr⟩ | ⟨-, hr⟩ | ⟨hp, hsw, hav, hr⟩ | ⟨-, -, fpn, rest, -, -, hr⟩ :=
    pgGetpage_cases s p pgn <;> rw [hr]
  · exact h
  · exact h
  · rw [setFifo_eq_self (by rw [hk hp hsw hav]; rfl)]
    exact h
  · rw [swapIn_mm]
    exact h.setFpn pgn fpn

theorem maxsz_pgGetpage (s : System ι) (p : ι) (pgn : ℕ) :
    (pgGetpage s p pgn).2.2.mram.maxsz = s.mram.maxsz := by
  obtain ⟨-, hr⟩ | ⟨-, hr⟩ | ⟨-, -, -, hr⟩ | ⟨-, -, fpn, rest, -, -, hr⟩ :=
    pgGetpage_cases s p pgn <;> rw [hr]
  · rfl
  · exact (Frame.swapIn ..).ramSize

theorem avail_memphyPutFreefp {mp : Memphy} (h : 0 < mp.maxsz) (fpn : ℤ) :
    (memphyPutFreefp mp fpn).avail ≠ [] := by
  unfold Memphy.avail memphyPutFreefp
  rw [if_neg (not_le.mpr h)]
  simp

theorem listed_freeLoop (p : ι) (left pgn : ℕ) (s : System ι) (hram : 0 < s.mram.maxsz)
    (h : (s.mm p).Listed) (hk : 0 < left → FetchKeeps s p pgn) :
    ((freeLoop p left pgn s).2.mm p).Listed := by
  induction left generalizing pgn s with
  | zero => exact h
  | succ left ih =>
    have hget := listed_pgGetpage h (hk left.succ_pos)
    have hsz : 0 < (pgGetpage s p pgn).2.2.mram.maxsz := by
      rw [maxsz_pgGetpage]
      exact hram
    unfold freeLoop
    simp only
    split_ifs
    · exact hget
    · refine ih _ _ hsz ?_ fun _ _ _ hav => ?_
      · rw [System.setFifo_self, System.setPte_self]
        exact hget.release pgn
      · -- the frame that was put back is free
        exact absurd hav (avail_memphyPutFreefp hsz _)

theorem listed_free {s : System ι} {p : ι} (hram : 0 < s.mram.maxsz) (h : (s.mm p).Listed)
    (r : Fin pagingMaxSymtblSz) (hk : 0 < regionPages ((s.mm p).symrgtbl r) →
      FetchKeeps s p (pagingPgn (i32 ((s.mm p).symrgtbl r).rgStart))) :
    ((free s p r).2.mm p).Listed := by
  have hl := listed_freeLoop p _ _ s hram h hk
  unfold free
  simp only
  split_ifs
  · exact h
  · exact hl
  · exact hl.congr (by simp) (by simp)

theorem listed_tlbFrame {s : System ι} {p : ι} (h : (s.mm p).Listed) {pgn : ℕ}
    (hk : FetchKeeps s p pgn) : ((tlbFrame s p pgn).2.mm p).Listed := by
  have hget := listed_pgGetpage h hk
  unfold tlbFrame
  simp only
  split_ifs
  · exact hget
  · exact hget
  · exact h

/-! ## Instructions -/

theorem Accessed.listed {s s' : System ι} {p : ι} {rgid offset : BitVec 32}
    (ha : Accessed s p rgid offset s') (h : (s.mm p).Listed) (hk : AccessKeeps s p rgid offset) :
    (s'.mm p).Listed := by
  obtain ⟨r, hr, hin, rfl⟩ := ha
  exact listed_tlbFrame h (hk r hr hin)

/-- An instruction that takes no victim off the list without evicting it. -/
theorem listed_run {s s' : System ι} {p : ι} {ins : Inst} {raw : List ℤ} {o : Outcome}
    (hram : 0 < s.mram.maxsz) (h : ProcOk s p) (hl : (s.mm p).Listed) (hsize : SizeOk s p ins)
    (hk : VictimsKept s p ins) (hrun : run s p ins raw = .ok (o, s')) : (s'.mm p).Listed := by
  unfold VictimsKept at hk
  cases executed_of_run hrun with
  | compute => exact hl
  | alloc hop hid _ hr =>
    simp only [hop] at hk
    obtain ⟨hn1, hn, hbrk⟩ := hsize hop
    obtain ⟨stat, addr, s1, tlb, halloc, -, heq, -⟩ := tlballoc_alloc h hid hn1 hn hbrk raw
    rw [heq] at hr
    cases hr
    exact listed_alloc h hl _ hn1 hn hk raw halloc
  | free hop hr =>
    simp only [hop] at hk
    obtain he | hid := lt_of_tlbfreeData hr
    · cases he
      exact hl
    · unfold tlbfreeData at hr
      simp only [getSymrgById_eq hid] at hr
      cases hr
      have hfree := fun tlb => listed_free (s := { s with tlb := tlb }) hram hl ⟨_, hid⟩
        (hk ⟨_, hid⟩ rfl)
      exact hfree _
  | read hop hr =>
    simp only [hop] at hk
    obtain rfl | ha := tlbread_state hr
    · exact hl
    · exact ha.listed hl hk
  | write hop hr =>
    simp only [hop] at hk
    obtain rfl | ⟨t, ha, rfl | ⟨addr, rfl⟩⟩ := tlbwrite_state hr
    · exact hl
    · exact ha.listed hl hk
    · exact ha.listed hl hk

/-! ## A RAM without frames -/

/-- RAM has no free frame, none is held, and no page of `p` is present. -/
structure Barren (p : ι) (w : Work ι) : Prop where
  held : w.held = []
  frames : w.sys.mram.freeFpList = []
  absent : ∀ pgn, ¬ Present ((w.sys.mm p).pgd pgn)

theorem Move.barren {p : ι} {a : Act} {w w' : Work ι} (hm : Move p a w w') (ha : a.Good)
    (h : Barren p w) : Barren p w' := by
  obtain ⟨hheld, hframes, habs⟩ := h
  cases hm with
  | get hl => exact absurd (hframes.symm.trans hl) (by simp)
  | evict hres => exact absurd hres.1 (habs _)
  | putBack =>
    simp only at hheld
    subst hheld
    exact ⟨rfl, hframes, habs⟩
  | spill => exact absurd ha id
  | map => cases hheld
  | swapIn hp => exact absurd hp (habs _)
  | release hres => exact absurd hres.1 (habs _)
  | space hpgd =>
    refine ⟨hheld, hframes, fun pgn => ?_⟩
    rw [System.setMm_self, hpgd]
    exact habs pgn
  | cache hres => exact absurd hres.1 (habs _)
  | uncache => exact ⟨hheld, hframes, habs⟩

/-- No frame is ever free, and no page of any process present. -/
def NoFrames (s : System ι) : Prop := ∀ p, Barren p ⟨[], s⟩

theorem NoFrames.step {s s' : System ι} {p : ι} {ins : Inst} {raw : List ℤ} {o : Outcome}
    (hb : NoFrames s) (h : ProcOk s p) (hu : TlbUnique s.tlb) (hsize : SizeOk s p ins)
    (hrun : run s p ins raw = .ok (o, s')) : NoFrames s' := by
  have hfifo : (s.mm p).fifoPgn = [] := List.eq_nil_iff_forall_not_mem.mpr
    fun pgn hmem => (hb p).absent pgn (h.mm.fifo_resident pgn hmem).1
  have hslots : SlotsOk s p ins := fun _ => by
    simp [FramesEnough, Enough, hfifo]
  have hframes : FramesOk s := fun fpn hmem => by
    rw [show s.mram.freeFpList = [] from (hb p).frames] at hmem
    cases hmem
  obtain ⟨t, hm, -, ht⟩ := (run_moves h hu hsize hrun).mid
  have hbarren : Barren p ⟨[], t⟩ :=
    hm.invariant (fun _ _ _ ha hI hst => hst.barren (ha hframes hslots) hI) (hb p)
  have hframe : Frame p s t := hm.frame
  have hall : NoFrames t := by
    intro q
    by_cases hq : q = p
    · exact hq ▸ hbarren
    · refine ⟨rfl, hbarren.frames, fun pgn => ?_⟩
      rw [hframe.mm q hq]
      exact (hb q).absent pgn
  obtain rfl | ⟨addr, data, rfl⟩ := ht
  · exact hall
  · obtain ⟨st, c, hw⟩ := memphyWrite_fields t.mram addr data
    refine fun q => ⟨rfl, ?_, (hall q).absent⟩
    rw [System.store, hw]
    exact (hall q).frames

/-! ## Runs -/

/-- The invariant of the runs in which no victim is dropped. A device of size 0 has no frames, and
`MEMPHY_get_freefp` would not find one that `__free` put there. -/
structure FifoInv (s : System ι) : Prop where
  base : RunInv s
  listed : (0 < s.mram.maxsz ∧ ∀ p, (s.mm p).Listed) ∨ NoFrames s

omit [DecidableEq ι] in
theorem FifoInv.init (c : Config ι) : FifoInv c.init where
  base := .init c
  listed := by
    by_cases hsz : 0 < c.ramSz
    · exact .inl ⟨by simpa [Config.init] using hsz, fun p pgn hres => absurd hres.1 not_present_zero⟩
    · refine .inr fun p => ⟨rfl, ?_, fun pgn => not_present_zero⟩
      show (initMemphy Memphy.zero [] c.ramSz 1).freeFpList = []
      have hn : (numfp c.ramSz).toNat = 0 := by
        have hneg := Int.tdiv_nonneg (show 0 ≤ -c.ramSz by omega)
          (show (0 : ℤ) ≤ pagingPagesz by omega)
        rw [Int.neg_tdiv] at hneg
        unfold numfp
        omega
      rw [freeFpList_initMemphy, hn]
      rfl

theorem FifoInv.step {s s' : System ι} {p : ι} {ins : Inst} {raw : List ℤ} {o : Outcome}
    (h : FifoInv s) (hsize : SizeOk s p ins) (hk : VictimsKept s p ins)
    (hrun : run s p ins raw = .ok (o, s')) : FifoInv s' := by
  refine ⟨h.base.step hsize hrun, ?_⟩
  obtain ⟨hram, hl⟩ | hb := h.listed
  · have hframe := (run_moves (h.base.proc p) h.base.tlb.unique hsize hrun).frame
    refine .inl ⟨by rw [hframe.ramSize]; exact hram, fun q => ?_⟩
    by_cases hq : q = p
    · exact hq ▸ listed_run hram (h.base.proc p) (hl p) hsize hk hrun
    · rw [hframe.mm q hq]
      exact hl q
  · exact .inr (hb.step (h.base.proc p) h.base.tlb.unique hsize hrun)

omit [DecidableEq ι] in
theorem FifoInv.fifoExact {s : System ι} (h : FifoInv s) (p : ι) : FifoExact (s.mm p) := by
  refine (h.base.proc p).mm.fifoExact ?_
  obtain ⟨-, hl⟩ | hb := h.listed
  · exact hl p
  · exact fun pgn hres => absurd hres.1 ((hb p).absent pgn)

/-- In every run in which `ALLOC`s ask for 1 to `2^22` bytes, every break stays within `2^22` and no
instruction takes a victim off the list without evicting it, the FIFO list of every process holds
exactly its resident pages, each once. -/
theorem fifoExact_of_run {c : Config ι} {tr : List (Label ι)} {s : System ι}
    (h : ((memLts c).guard fun s a s' => BreaksOk s a s' ∧ VictimsKept s a.proc a.ins).Run tr s)
    (p : ι) : FifoExact (s.mm p) := by
  have hinv : FifoInv s := h.invariant (fun _ h0 => h0 ▸ .init c)
    fun _ _ _ hi hst => hi.step (hi.base.sizeOk hst.2.1 hst.1) hst.2.2 hst.1
  exact hinv.fifoExact p

/-- A run in which a page is evicted and swapped in again. -/
theorem fifoExact_evicted : ∃ s,
    ((memLts (Config.two 256 256)).guard
      fun s a s' => BreaksOk s a s' ∧ VictimsKept s a.proc a.ins).Run
      [⟨0, ⟨.ALLOC, 256, 0, 0⟩, [], ⟨0, none⟩⟩, ⟨0, ⟨.ALLOC, 256, 1, 0⟩, [], ⟨0, none⟩⟩,
        ⟨0, ⟨.FREE, 1, 0, 0⟩, [], ⟨0, none⟩⟩, ⟨0, ⟨.READ, 0, 0, 0⟩, [], ⟨0, some 0⟩⟩] s ∧
      (s.mm 0).fifoPgn = [0] ∧ FifoExact (s.mm 0) := by
  obtain ⟨s, hrun, hfifo⟩ := exists_run_of_runAll (Config.two 256 256)
    (fun s a s' => BreaksOk s a s' ∧ VictimsKept s a.proc a.ins)
    [⟨0, ⟨.ALLOC, 256, 0, 0⟩, [], ⟨0, none⟩⟩, ⟨0, ⟨.ALLOC, 256, 1, 0⟩, [], ⟨0, none⟩⟩,
      ⟨0, ⟨.FREE, 1, 0, 0⟩, [], ⟨0, none⟩⟩, ⟨0, ⟨.READ, 0, 0, 0⟩, [], ⟨0, some 0⟩⟩]
    (fun s => decide ((s.mm 0).fifoPgn = [0])) (by decide +kernel)
  exact ⟨s, hrun, of_decide_eq_true hfifo, fifoExact_of_run hrun 0⟩

/-- A run with one frame and no swap slot: the second `ALLOC` fails, and the page of the first is on
no list any more. -/
theorem not_fifoExact_noSlot : ∃ s,
    ((memLts (Config.two 256 0)).guard BreaksOk).Run
      [⟨0, ⟨.ALLOC, 256, 0, 0⟩, [], ⟨0, none⟩⟩, ⟨0, ⟨.ALLOC, 256, 1, 0⟩, [0], ⟨-1, none⟩⟩] s ∧
      ¬ FifoExact (s.mm 0) := by
  obtain ⟨s, hrun, htest⟩ := exists_run_of_runAll (Config.two 256 0) BreaksOk
    [⟨0, ⟨.ALLOC, 256, 0, 0⟩, [], ⟨0, none⟩⟩, ⟨0, ⟨.ALLOC, 256, 1, 0⟩, [0], ⟨-1, none⟩⟩]
    (fun s => decide ((s.mm 0).fifoPgn = [] ∧ Resident ((s.mm 0).pgd 0))) (by decide +kernel)
  obtain ⟨hfifo, hres⟩ := of_decide_eq_true htest
  refine ⟨s, hrun, fun h => ?_⟩
  have hmem := (h.mem_iff 0).mpr hres
  rw [hfifo] at hmem
  cases hmem

end OsSim.Mem
