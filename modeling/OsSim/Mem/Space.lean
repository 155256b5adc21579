import OsSim.Mem.Loops
import Mathlib.Tactic.NormNum
import Mathlib.Tactic.Ring

/-!
# The regions and the break

What `__alloc` and `__free` do to the regions and to the break of a process.
Unlike `MmInv`, the invariant here holds for allocations of every size, and when
the break is beyond the 22-bit space: `validate_overlap_vm_area` compares `int`s,
so the break stays below `2^31`, and there the arithmetic on regions is exact.

Results:
* `Paged.*`: the functions that handle pages leave the regions alone.
* `alloc_space`, `free_space`: the regions and the break after `__alloc` and
  `__free`.
* `AllocSpace.spaceInv`: `__alloc` keeps the invariant.
-/

namespace OsSim.Mem

open BitField

variable {ι : Type*} [DecidableEq ι]

/-! ## Sizes and page numbers -/

/-- The size of an allocation rounded up to pages. -/
def alignedSize (n : ℕ) : ℕ := (n + 255) / 256 * 256

theorem dvd_alignedSize (n : ℕ) : 256 ∣ alignedSize n := Dvd.intro_left _ rfl

theorem le_alignedSize (n : ℕ) : n ≤ alignedSize n := by
  unfold alignedSize
  omega

theorem alignedSize_le {n : ℕ} (h : n ≤ 2 ^ 22) : alignedSize n ≤ 2 ^ 22 := by
  unfold alignedSize
  omega

theorem alignedSize_lt {n : ℕ} (h : n + 255 < 2 ^ 31) : alignedSize n + 255 < 2 ^ 31 := by
  unfold alignedSize
  omega

theorem alignedSize_of_dvd {n : ℕ} (h : 256 ∣ n) : alignedSize n = n := by
  unfold alignedSize
  omega

theorem i32_natCast {n : ℕ} (h : n < 2 ^ 31) : i32 (n : ℤ) = n :=
  i32_of_range (by omega) (by omega)

theorem pagingPageAlignsz_of_lt {n : ℕ} (h : n + 255 < 2 ^ 31) :
    pagingPageAlignsz (n : ℤ) = alignedSize n := by
  have e : (n : ℤ) + pagingPagesz - 1 = ((n + 255 : ℕ) : ℤ) := by
    push_cast
    ring
  rw [pagingPageAlignsz, e, i32_natCast h, ← Int.ofNat_tdiv, ← Nat.cast_mul]
  refine i32_natCast (lt_of_le_of_lt ?_ h)
  exact Nat.div_mul_le_self ..

theorem pagingPageAlignsz_natCast {n : ℕ} (h : n ≤ 2 ^ 22) :
    pagingPageAlignsz (n : ℤ) = alignedSize n :=
  pagingPageAlignsz_of_lt (by omega)

/-- Rounding to a multiple of 256 goes towards 0. -/
theorem tdiv_mul_256 (y : ℤ) :
    (0 ≤ y ∧ 0 ≤ y.tdiv 256 * 256 ∧ y.tdiv 256 * 256 ≤ y) ∨
      (y ≤ 0 ∧ y ≤ y.tdiv 256 * 256 ∧ y.tdiv 256 * 256 ≤ 0) := by
  rcases Int.le_total 0 y with hpos | hneg
  · rw [Int.tdiv_eq_ediv_of_nonneg hpos]
    omega
  · rw [← neg_neg y, Int.neg_tdiv, Int.tdiv_eq_ediv_of_nonneg (by omega)]
    omega

/-- The rounded size is in the range of `int`, so it is only the sum that wraps around. -/
theorem pagingPageAlignsz_eq (size : ℤ) :
    pagingPageAlignsz size = (i32 (size + 255)).tdiv 256 * 256 := by
  have hrange := i32_eq (size + 255)
  have hround := tdiv_mul_256 (i32 (size + 255))
  have hdiv : -2 ^ 31 ≤ (i32 (size + 255)).tdiv 256 * 256 ∧
      (i32 (size + 255)).tdiv 256 * 256 < 2 ^ 31 := by
    omega
  have e : size + (pagingPagesz : ℕ) - 1 = size + 255 := by
    push_cast
    ring
  rw [pagingPageAlignsz, e]
  exact i32_of_range hdiv.1 hdiv.2

/-- Other `int`s are rounded to 0 or to a negative number. -/
theorem pagingPageAlignsz_nonpos {size : ℤ} (h0 : -2 ^ 31 ≤ size) (h1 : size < 2 ^ 31)
    (h : ¬ (1 ≤ size ∧ size + 255 < 2 ^ 31)) :
    -2 ^ 31 ≤ pagingPageAlignsz size ∧ pagingPageAlignsz size ≤ 0 := by
  have hsum := i32_eq (size + 255)
  have hround := tdiv_mul_256 (i32 (size + 255))
  rw [pagingPageAlignsz_eq]
  omega

theorem pagingPageAlignszU_eq {sz : BitVec 32} (h : sz.toNat ≤ 2 ^ 22) :
    pagingPageAlignszU sz = alignedSize sz.toNat := by
  unfold pagingPageAlignszU alignedSize
  rw [BitVec.toNat_add]
  congr 2
  simp
  omega

theorem argInt_eq {arg : BitVec 32} (h : arg.toNat < 2 ^ 31) : argInt arg = arg.toNat :=
  i32_natCast h

theorem argInt_of_nonneg {arg : BitVec 32} (h : 0 ≤ argInt arg) : argInt arg = arg.toNat := by
  refine argInt_eq ?_
  by_contra hge
  have hlt := arg.isLt
  have hneg : argInt arg = arg.toNat - 2 ^ 32 := by
    unfold argInt i32
    rw [BitVec.toInt_ofInt, Int.bmod_def]
    split_ifs <;> omega
  omega

theorem pagingPgn_natCast {a : ℕ} (h : a < 2 ^ 22) : pagingPgn (a : ℤ) = a / 256 := by
  rw [pagingPgn_eq]
  omega

theorem regionPages_eq {rg : VmRg} (hle : rg.rgStart ≤ rg.rgEnd)
    (hlen : rg.rgEnd - rg.rgStart + 255 < 2 ^ 31) :
    regionPages rg = alignedSize (rg.rgEnd - rg.rgStart) / 256 := by
  unfold regionPages
  rw [← Nat.cast_sub hle, i32_natCast (by omega), pagingPageAlignsz_of_lt hlen,
    ← Int.ofNat_tdiv, Int.toNat_natCast]

/-- The pages of a region are the pages that the loops of `__free` and `tlbfree_data` visit. -/
theorem VmRg.Below.inRange_iff {sbrk : ℕ} {rg : VmRg} (h : rg.Below sbrk) (hs : sbrk ≤ 2 ^ 22)
    (pgn : ℕ) :
    InRange (pagingPgn (i32 rg.rgStart)) (regionPages rg) pgn ↔ rg.HasPage pgn := by
  have hle := h.le
  have hb := h.bound
  rw [regionPages_eq hle (by omega), i32_natCast (by omega)]
  unfold alignedSize
  unfold InRange VmRg.HasPage
  by_cases hlt : rg.rgStart < rg.rgEnd
  · have hal := h.aligned hlt
    rw [pagingPgn_natCast (by omega)]
    omega
  · omega

/-! ## Functions that leave the regions alone -/

/-- The areas and the regions are the same. -/
structure SameSpace (mm mm' : Mm) : Prop where
  mmap : mm'.mmap = mm.mmap
  vmNext : mm'.vmNext = mm.vmNext
  symrgtbl : mm'.symrgtbl = mm.symrgtbl

theorem SameSpace.rfl' (mm : Mm) : SameSpace mm mm := ⟨rfl, rfl, rfl⟩

theorem SameSpace.trans {mm mm' mm'' : Mm} (h : SameSpace mm mm') (h' : SameSpace mm' mm'') :
    SameSpace mm mm'' :=
  ⟨h'.mmap.trans h.mmap, h'.vmNext.trans h.vmNext, h'.symrgtbl.trans h.symrgtbl⟩

/-- Only the memory of process `p` has changed, and not its regions. -/
structure Paged (p : ι) (s s' : System ι) : Prop where
  others : ∀ q, q ≠ p → s'.mm q = s.mm q
  space : SameSpace (s.mm p) (s'.mm p)

section

variable {p : ι} {s s' s'' : System ι}

omit [DecidableEq ι] in
theorem Paged.of_mm (h : s'.mm = s.mm) : Paged p s s' :=
  ⟨fun q _ => congrFun h q, h ▸ .rfl' _⟩

omit [DecidableEq ι] in
theorem Paged.refl (p : ι) (s : System ι) : Paged p s s := .of_mm rfl

omit [DecidableEq ι] in
theorem Paged.trans (h : Paged p s s') (h' : Paged p s' s'') : Paged p s s'' :=
  ⟨fun q hq => (h'.others q hq).trans (h.others q hq), h.space.trans h'.space⟩

theorem Paged.setMm {mm : Mm} (h : SameSpace (s.mm p) mm) : Paged p s (s.setMm p mm) :=
  ⟨fun _ hq => System.setMm_of_ne _ _ _ hq, by rw [System.setMm_self]; exact h⟩

/-- The memory of the process is replaced in both states. -/
theorem Paged.setMm_setMm (h : Paged p s s') {mm mm' : Mm} (hs : SameSpace mm mm') :
    Paged p (s.setMm p mm) (s'.setMm p mm') := by
  refine ⟨fun q hq => ?_, ?_⟩
  · rw [System.setMm_of_ne _ _ _ hq, System.setMm_of_ne _ _ _ hq, h.others q hq]
  · rw [System.setMm_self, System.setMm_self]
    exact hs

theorem Paged.setFifo (s : System ι) (fifo : List ℕ) : Paged p s (s.setFifo p fifo) :=
  .setMm ⟨rfl, rfl, rfl⟩

theorem Paged.setPte (s : System ι) (pgn : ℕ) (pte : Pte) : Paged p s (s.setPte p pgn pte) :=
  .setMm ⟨rfl, rfl, rfl⟩

omit [DecidableEq ι] in
theorem mm_swapSearch (left i : ℕ) (v : ℤ) (s : System ι) :
    (swapSearch left i v s).2.2.mm = s.mm := by
  induction left generalizing i v s with
  | zero => rfl
  | succ left ih =>
    unfold swapSearch
    cases memphyGetFreefp (mswpAdd s.mswp i) with
    | none =>
      simp only
      split_ifs
      · rfl
      · exact ih ..
    | some r =>
      simp only
      split_ifs
      · rfl
      · exact ih ..

theorem Paged.swapOut (s : System ι) (vicpgn i : ℕ) (off : ℤ) :
    Paged p s (swapOut s p vicpgn i off).2 := by
  unfold Mem.swapOut
  refine .trans ?_ (.setPte _ vicpgn _)
  exact .of_mm rfl

theorem Paged.allocPagesRange (raw : List ℤ) (n : ℕ) (held : List ℤ) (s : System ι) :
    Paged p s (allocPagesRange p raw n held s).2.2 := by
  induction n generalizing held s with
  | zero => exact .refl p s
  | succ n ih =>
    unfold Mem.allocPagesRange
    cases memphyGetFreefp s.mram with
    | some r =>
      refine .trans ?_ (ih ..)
      exact .of_mm rfl
    | none =>
      cases findVictimPage (s.mm p).fifoPgn with
      | none => exact .of_mm rfl
      | some v =>
        have hsearch : Paged p s (swapSearch pagingMaxMmswp 0 (-1) (s.setFifo p v.2)).2.2 :=
          .trans (.setFifo s v.2) (.of_mm (mm_swapSearch ..))
        simp only
        split_ifs
        · exact hsearch.trans (.of_mm rfl)
        · exact hsearch.trans (.trans (.swapOut ..) (ih ..))

theorem sameSpace_vmapLoop (pgn left pgit : ℕ) (frames : List ℤ) (mm : Mm) :
    SameSpace mm (vmapLoop pgn left pgit frames mm) := by
  induction left generalizing pgit frames mm with
  | zero => exact .rfl' mm
  | succ left ih =>
    cases frames with
    | nil => exact .rfl' mm
    | cons fpn frames =>
      refine .trans ?_ (ih ..)
      exact ⟨rfl, rfl, rfl⟩

theorem Paged.vmMapRam (s : System ι) (mapstart incpgnum : ℤ) (raw : List ℤ) :
    Paged p s (vmMapRam s p mapstart incpgnum raw).2 := by
  have hrange := Paged.allocPagesRange (p := p) raw incpgnum.toNat [] s
  unfold Mem.vmMapRam
  simp only
  split_ifs
  · exact hrange
  · exact hrange.trans (.setMm (sameSpace_vmapLoop ..))

theorem Paged.pgGetpage (s : System ι) (pgn : ℕ) : Paged p s (pgGetpage s p pgn).2.2 := by
  obtain ⟨-, hr⟩ | ⟨-, hr⟩ | ⟨-, -, -, hr⟩ | ⟨-, -, fpn, rest, -, -, hr⟩ :=
    pgGetpage_cases s p pgn <;> rw [hr]
  · exact .refl p s
  · exact .refl p s
  · exact .setFifo s _
  · refine ⟨(Frame.swapIn p s pgn _ _ fpn rest).mm, ?_⟩
    rw [swapIn_mm]
    exact ⟨rfl, rfl, rfl⟩

theorem Paged.freeLoop (left pgn : ℕ) (s : System ι) : Paged p s (freeLoop p left pgn s).2 := by
  induction left generalizing pgn s with
  | zero => exact .refl p s
  | succ left ih =>
    have hget := Paged.pgGetpage (p := p) s pgn
    unfold Mem.freeLoop
    simp only
    split_ifs
    · exact hget
    · refine .trans ?_ (ih ..)
      refine .trans (.trans ?_ (.setPte ..)) (.setFifo ..)
      exact hget.trans (.of_mm rfl)

theorem Paged.tlbCachePages (left pgn : ℕ) (s : System ι) :
    Paged p s (tlbCachePages p left pgn s).2 := by
  induction left generalizing pgn s with
  | zero => exact .refl p s
  | succ left ih =>
    have hget := Paged.pgGetpage (p := p) s pgn
    unfold Mem.tlbCachePages
    simp only
    split_ifs
    · exact hget
    · exact hget
    · refine .trans ?_ (ih ..)
      exact hget.trans (.of_mm rfl)

theorem Paged.tlbFrame (s : System ι) (pgn : ℕ) : Paged p s (tlbFrame s p pgn).2 := by
  have hget := Paged.pgGetpage (p := p) s pgn
  unfold Mem.tlbFrame
  simp only
  split_ifs
  · exact hget
  · exact hget.trans (.of_mm rfl)
  · exact .refl p s

end

/-! ## The invariant -/

/-- The break is below `2^31`, and the regions lie below it. A live region whose end is not behind
its start holds no bytes, and `__free` does not put it on the list. -/
structure SpaceInv (mm : Mm) : Prop where
  vmNext : mm.vmNext = []
  vmEnd : mm.mmap.vmEnd = mm.mmap.sbrk
  bound : mm.mmap.sbrk < 2 ^ 31
  free : ∀ rg ∈ mm.mmap.vmFreergList, rg.Under mm.mmap.sbrk
  live : ∀ r, (mm.symrgtbl r).rgEnd ≤ mm.mmap.sbrk

theorem MmInv.spaceInv {mm : Mm} (h : MmInv mm) : SpaceInv mm :=
  ⟨h.vmNext, h.vmEnd, lt_of_le_of_lt h.bound (by norm_num), fun rg hm => (h.free.below rg hm).under,
    fun r => (h.live r).bound⟩

/-- The free list is `rgs` and region `r` is `rg`. -/
def Mm.setRegions (mm : Mm) (rgs : List VmRg) (r : Fin pagingMaxSymtblSz) (rg : VmRg) : Mm :=
  { mm with
    mmap := { mm.mmap with vmFreergList := rgs }
    symrgtbl := Function.update mm.symrgtbl r rg }

/-- The region `rgnode` is put back on the free list, and region `r` is cleared. -/
def Mm.putBack (mm : Mm) (r : Fin pagingMaxSymtblSz) (rgnode : VmRg) : Mm :=
  { mm with
    mmap := mm.mmap.enlistRgnode rgnode
    symrgtbl := Function.update mm.symrgtbl r ⟨0, 0⟩ }

/-- The break is `incSz` higher. -/
def Mm.raise (mm : Mm) (incSz : ℕ) : Mm :=
  { mm with mmap := { mm.mmap with
      vmEnd := mm.mmap.vmEnd + incSz, sbrk := mm.mmap.sbrk + incSz } }

section

variable {mm mm' : Mm}

theorem SpaceInv.congr (h : SpaceInv mm) (hs : SameSpace mm mm') : SpaceInv mm' := by
  obtain ⟨hmmap, hnext, hsym⟩ := hs
  constructor
  · rw [hnext, h.vmNext]
  · rw [hmmap, h.vmEnd]
  · rw [hmmap]
    exact h.bound
  · rw [hmmap]
    exact h.free
  · rw [hmmap, hsym]
    exact h.live

theorem SpaceInv.setRegions (h : SpaceInv mm) {rgs : List VmRg} {rg : VmRg}
    (hrgs : ∀ rg ∈ rgs, rg.Under mm.mmap.sbrk) (r : Fin pagingMaxSymtblSz)
    (hrg : rg.rgEnd ≤ mm.mmap.sbrk) : SpaceInv (mm.setRegions rgs r rg) := by
  refine ⟨h.vmNext, h.vmEnd, h.bound, hrgs, fun r' => ?_⟩
  simp only [Mm.setRegions, Function.update_apply]
  split_ifs
  · exact hrg
  · exact h.live r'

theorem SpaceInv.raise (h : SpaceInv mm) {incSz : ℕ} (hlt : mm.mmap.sbrk + incSz < 2 ^ 31) :
    SpaceInv (mm.raise incSz) where
  vmNext := h.vmNext
  vmEnd := by simp only [Mm.raise, h.vmEnd]
  bound := hlt
  free rg hm := ⟨(h.free rg hm).le, (h.free rg hm).bound.trans (Nat.le_add_right ..)⟩
  live r := (h.live r).trans (Nat.le_add_right ..)

theorem under_enlistVmFreergList {sbrk : ℕ} {rgs : List VmRg} {rg : VmRg}
    (hrgs : ∀ rg ∈ rgs, rg.Under sbrk) (hrg : rg.rgEnd ≤ sbrk) :
    ∀ rg' ∈ enlistVmFreergList rgs rg, rg'.Under sbrk := by
  unfold enlistVmFreergList
  split_ifs with hge
  · exact hrgs
  · exact List.forall_mem_cons.mpr ⟨⟨(not_le.mp hge).le, hrg⟩, hrgs⟩

theorem SpaceInv.putBack (h : SpaceInv mm) (r : Fin pagingMaxSymtblSz) {rg : VmRg}
    (hrg : rg.rgEnd ≤ mm.mmap.sbrk) : SpaceInv (mm.putBack r rg) := by
  refine ⟨h.vmNext, h.vmEnd, h.bound, under_enlistVmFreergList h.free hrg, fun r' => ?_⟩
  simp only [Mm.putBack, Function.update_apply]
  split_ifs
  · exact Nat.zero_le _
  · exact h.live r'

end

/-! ## `__alloc` -/

/-- `get_free_vmrg_area` finds a region for a size, rounded up to pages. -/
def Fitting (mm : Mm) (size : ℤ) : Prop :=
  ∃ rg ∈ mm.mmap.vmFreergList, u64 (rg.rgStart + pagingPageAlignsz size) ≤ rg.rgEnd

/-- A free region holds `n` bytes, rounded up to pages. -/
def Fits (mm : Mm) (n : ℕ) : Prop :=
  ∃ rg ∈ mm.mmap.vmFreergList, rg.rgStart + alignedSize n ≤ rg.rgEnd

instance (mm : Mm) (n : ℕ) : Decidable (Fits mm n) := inferInstanceAs (Decidable (∃ _ ∈ _, _))

theorem u64_start {sbrk n : ℕ} (hs : sbrk < 2 ^ 31) (hn : n + 255 < 2 ^ 31) {rg : VmRg}
    (hrg : rg.rgStart ≤ sbrk) :
    u64 (rg.rgStart + pagingPageAlignsz n) = rg.rgStart + alignedSize n := by
  have hle := Nat.div_mul_le_self (n + 255) 256
  rw [pagingPageAlignsz_of_lt hn, ← Nat.cast_add]
  unfold alignedSize
  exact u64_natCast (by omega)

theorem fitting_iff {mm : Mm} (h : SpaceInv mm) {n : ℕ} (hn : n + 255 < 2 ^ 31) :
    Fitting mm n ↔ Fits mm n := by
  refine exists_congr fun rg => and_congr_right fun hm => ?_
  rw [u64_start h.bound hn ((h.free rg hm).le.trans (h.free rg hm).bound)]

/-- How `__alloc` for `size` bytes and region `r` changes the regions and the break: the status,
`*alloc_addr` and the new `mm_struct`, up to its pages. -/
inductive AllocSpace (size : ℤ) (r : Fin pagingMaxSymtblSz) (mm : Mm) : ℤ → ℤ → Mm → Prop
  | reused {rg : VmRg} {rgs : List VmRg} : Fitting mm size → rg.rgStart ≤ mm.mmap.sbrk →
      rg.rgEnd ≤ mm.mmap.sbrk → rg.rgEnd = u64 (rg.rgStart + pagingPageAlignsz size) →
      (∀ rg ∈ rgs, rg.Under mm.mmap.sbrk) →
      AllocSpace size r mm 0 rg.rgStart (mm.setRegions rgs r rg)
  | reuseFailed {rg : VmRg} {rgs : List VmRg} : Fitting mm size → rg.rgEnd ≤ mm.mmap.sbrk →
      (∀ rg ∈ rgs, rg.Under mm.mmap.sbrk) →
      AllocSpace size r mm (-1) 0 ((mm.setRegions rgs r rg).putBack r rg)
  | raised {n : ℕ} : size = n → ¬ Fitting mm size → mm.mmap.sbrk + alignedSize n < 2 ^ 31 →
      AllocSpace size r mm 0 mm.mmap.sbrk ((mm.raise (alignedSize n)).setRegions
        mm.mmap.vmFreergList r ⟨mm.mmap.sbrk, mm.mmap.sbrk + n⟩)
  | raiseFailed {n : ℕ} : size = n → ¬ Fitting mm size → mm.mmap.sbrk + alignedSize n < 2 ^ 31 →
      AllocSpace size r mm (-1) 0 (mm.raise (alignedSize n))
  | refused : ¬ Fitting mm size →
      (∀ n : ℕ, size = n → 1 ≤ n → 2 ^ 31 ≤ mm.mmap.sbrk + alignedSize n) →
      AllocSpace size r mm (-1) 0 mm

theorem AllocSpace.spaceInv {size : ℤ} {r : Fin pagingMaxSymtblSz} {mm mm' : Mm} {stat addr : ℤ}
    (h : AllocSpace size r mm stat addr mm') (hmm : SpaceInv mm) : SpaceInv mm' := by
  cases h with
  | reused _ _ hend _ hrgs => exact hmm.setRegions hrgs r hend
  | reuseFailed _ hend hrgs => exact (hmm.setRegions hrgs r hend).putBack r hend
  | raised _ _ hlt =>
    have hraise := hmm.raise hlt
    refine hraise.setRegions hraise.free r ?_
    exact Nat.add_le_add_left (le_alignedSize _) _
  | raiseFailed _ _ hlt => exact hmm.raise hlt
  | refused => exact hmm

section

variable (s : System ι) (p : ι)

theorem vmMapRam_status (mapstart incpgnum : ℤ) (raw : List ℤ) :
    (vmMapRam s p mapstart incpgnum raw).1 = 0 ∨ (vmMapRam s p mapstart incpgnum raw).1 = -1 := by
  unfold vmMapRam
  simp only
  split_ifs
  · exact .inr rfl
  · exact .inl rfl

/-- `__alloc` with the free region `rg`. -/
theorem allocFreerg_space (r : Fin pagingMaxSymtblSz) (rg : VmRg) (raw : List ℤ) :
    ∃ stat addr s', allocFreerg s p r rg raw = (stat, addr, s') ∧
      let mm := (s.mm p).setRegions (s.mm p).mmap.vmFreergList r rg
      (stat = 0 ∧ addr = i32 rg.rgStart ∧ Paged p (s.setMm p mm) s' ∨
        stat = -1 ∧ addr = 0 ∧ Paged p (s.setMm p (mm.putBack r rg)) s') := by
  unfold allocFreerg
  simp only
  generalize (pagingPageAlignsz (i32 ((rg.rgEnd : ℤ) - rg.rgStart))).tdiv pagingPagesz = incnumpage
  have hmap := Paged.vmMapRam (p := p) (setSymrg s p r rg) (i32 rg.rgStart) incnumpage raw
  have hstat := vmMapRam_status (setSymrg s p r rg) p (i32 rg.rgStart) incnumpage raw
  generalize vmMapRam (setSymrg s p r rg) p (i32 rg.rgStart) incnumpage raw = res at hmap hstat
  obtain ⟨ret, s1⟩ := res
  simp only at hmap hstat ⊢
  obtain rfl | rfl := hstat
  · rw [if_neg (by decide)]
    exact ⟨_, _, _, rfl, .inl ⟨rfl, rfl, hmap⟩⟩
  · rw [if_pos (by decide)]
    refine ⟨_, _, _, rfl, .inr ⟨rfl, rfl, ?_⟩⟩
    obtain ⟨hmmap, hnext, hsym⟩ := hmap.space
    rw [setSymrg_self] at hmmap hnext hsym
    rw [setSymrg_setMm, ← System.setMm_setMm s p { s.mm p with
      symrgtbl := Function.update (s.mm p).symrgtbl r rg }]
    refine hmap.setMm_setMm ⟨?_, hnext, ?_⟩
    · simp only [Mm.putBack, Mm.setRegions, hmmap]
    · simp only [Mm.putBack, Mm.setRegions, hsym]

end

/-! ### Raising the break -/

theorem validateOverlapVmArea_nil (a b : ℤ) :
    validateOverlapVmArea [] a b = if a ≥ b then -1 else 0 := rfl

section

variable {s : System ι} {p : ι} (h : SpaceInv (s.mm p))

include h

/-- `inc_vma_limit` raises the break and maps the new pages. -/
theorem incVmaLimit_eq {incSz : ℕ} (h256 : 256 ∣ incSz) (h0 : 0 < incSz)
    (hlt : (s.mm p).mmap.sbrk + incSz < 2 ^ 31) (raw : List ℤ) :
    incVmaLimit s p incSz raw = vmMapRam (s.setMm p ((s.mm p).raise incSz)) p
      (s.mm p).mmap.sbrk ((incSz / 256 : ℕ) : ℤ) raw := by
  have hsum : u64 (((s.mm p).mmap.sbrk : ℤ) + incSz) = (s.mm p).mmap.sbrk + incSz := by
    rw [← Nat.cast_add, u64_natCast (by omega)]
  have hcount : (pagingPageAlignsz (incSz : ℤ)).tdiv pagingPagesz =
      ((incSz / 256 : ℕ) : ℤ) := by
    rw [pagingPageAlignsz_of_lt (by omega), alignedSize_of_dvd h256]
    rfl
  unfold incVmaLimit
  simp only [hsum, h.vmEnd, hcount]
  rw [h.vmNext, validateOverlapVmArea_nil, i32_natCast h.bound, i32_natCast hlt,
    if_neg (by omega), Mm.raise, h.vmEnd, h.vmNext]

/-- `inc_vma_limit` fails when the new end, as an `int`, is not above the break. -/
theorem incVmaLimit_refused {incSz : ℤ} (h0 : -2 ^ 31 ≤ incSz) (h1 : incSz < 2 ^ 31)
    (hinc : incSz ≤ 0 ∨ 2 ^ 31 ≤ (s.mm p).mmap.sbrk + incSz) (raw : List ℤ) :
    incVmaLimit s p incSz raw = (-1, s) := by
  have hbound := h.bound
  have hend : i32 (u64 ((s.mm p).mmap.sbrk + incSz) : ℤ) ≤ (s.mm p).mmap.sbrk := by
    rw [i32_eq, u64_cast]
    omega
  unfold incVmaLimit
  simp only
  rw [h.vmNext, validateOverlapVmArea_nil, i32_natCast hbound, if_pos hend, if_pos (by decide)]

/-- `__alloc` when it raises the break: nothing remains behind the new region's pages. -/
theorem allocSbrk_eq (r : Fin pagingMaxSymtblSz) {n : ℕ} (hn1 : 1 ≤ n)
    (hlt : (s.mm p).mmap.sbrk + alignedSize n < 2 ^ 31) (raw : List ℤ) :
    allocSbrk s p r n raw =
      match vmMapRam (s.setMm p ((s.mm p).raise (alignedSize n))) p (s.mm p).mmap.sbrk
        ((alignedSize n / 256 : ℕ) : ℤ) raw with
      | (ret, s') => if ret < 0 then (-1, 0, s') else
        (0, (s.mm p).mmap.sbrk,
          setSymrg s' p r ⟨(s.mm p).mmap.sbrk, (s.mm p).mmap.sbrk + n⟩) := by
  have hle := le_alignedSize n
  have hdvd := dvd_alignedSize n
  have hsum : ∀ m : ℕ, m ≤ alignedSize n →
      u64 (i32 ((s.mm p).mmap.sbrk + (m : ℤ))) = (s.mm p).mmap.sbrk + m := by
    intro m hm
    rw [← Nat.cast_add, i32_natCast (by omega), u64_natCast (by omega)]
  have hstart : u64 ((s.mm p).mmap.sbrk : ℤ) = (s.mm p).mmap.sbrk := u64_natCast (by omega)
  have hspace := (Paged.vmMapRam (p := p) (s.setMm p ((s.mm p).raise (alignedSize n)))
    (s.mm p).mmap.sbrk ((alignedSize n / 256 : ℕ) : ℤ) raw).space
  unfold allocSbrk
  simp only [pagingPageAlignsz_of_lt (show n + 255 < 2 ^ 31 by omega),
    incVmaLimit_eq h hdvd (by omega) hlt raw, i32_natCast h.bound]
  generalize vmMapRam _ p _ _ raw = res at hspace
  obtain ⟨ret, s'⟩ := res
  have hbrk : (s'.mm p).mmap.sbrk = (s.mm p).mmap.sbrk + alignedSize n := by
    rw [hspace.mmap, System.setMm_self]
    rfl
  simp only [hsum n hle, hsum _ le_rfl, hstart, setSymrg_self, hbrk, lt_self_iff_false, if_false]

/-- A size for which the break cannot be raised. -/
theorem incVmaLimit_size_refused {size : ℤ} (h0 : -2 ^ 31 ≤ size) (h1 : size < 2 ^ 31)
    (hno : ∀ n : ℕ, size = n → 1 ≤ n → 2 ^ 31 ≤ (s.mm p).mmap.sbrk + alignedSize n)
    (raw : List ℤ) : incVmaLimit s p (pagingPageAlignsz size) raw = (-1, s) := by
  by_cases hpos : 1 ≤ size ∧ size + 255 < 2 ^ 31
  · obtain ⟨n, rfl⟩ : ∃ n : ℕ, size = n := ⟨size.toNat, by omega⟩
    have hge := hno n rfl (by omega)
    have hle := Nat.div_mul_le_self (n + 255) 256
    rw [pagingPageAlignsz_of_lt (by omega)]
    unfold alignedSize at hge ⊢
    exact incVmaLimit_refused h (by omega) (by omega) (.inr (by exact_mod_cast hge)) raw
  · obtain ⟨hlo, hhi⟩ := pagingPageAlignsz_nonpos h0 h1 hpos
    exact incVmaLimit_refused h hlo (by omega) (.inl hhi) raw

/-- `__alloc` when `inc_vma_limit` fails. -/
theorem allocSbrk_refused (r : Fin pagingMaxSymtblSz) {size : ℤ} (h0 : -2 ^ 31 ≤ size)
    (h1 : size < 2 ^ 31) (hno : ∀ n : ℕ, size = n → 1 ≤ n →
      2 ^ 31 ≤ (s.mm p).mmap.sbrk + alignedSize n) (raw : List ℤ) :
    allocSbrk s p r size raw = (-1, 0, s) := by
  unfold allocSbrk
  simp only [incVmaLimit_size_refused h h0 h1 hno raw]
  rw [if_pos (by decide)]

theorem allocSbrk_space (r : Fin pagingMaxSymtblSz) {size : ℤ} (h0 : -2 ^ 31 ≤ size)
    (h1 : size < 2 ^ 31) (hno : ¬ Fitting (s.mm p) size) {raw : List ℤ} {stat addr : ℤ}
    {s' : System ι} (halloc : allocSbrk s p r size raw = (stat, addr, s')) :
    ∃ mm, Paged p (s.setMm p mm) s' ∧ AllocSpace size r (s.mm p) stat addr mm := by
  by_cases hraise : ∃ n : ℕ, size = n ∧ 1 ≤ n ∧ (s.mm p).mmap.sbrk + alignedSize n < 2 ^ 31
  · obtain ⟨n, rfl, hn1, hlt⟩ := hraise
    rw [allocSbrk_eq h r hn1 hlt] at halloc
    have hmap := Paged.vmMapRam (p := p) (s.setMm p ((s.mm p).raise (alignedSize n)))
      (s.mm p).mmap.sbrk ((alignedSize n / 256 : ℕ) : ℤ) raw
    have hstat := vmMapRam_status (s.setMm p ((s.mm p).raise (alignedSize n))) p
      (s.mm p).mmap.sbrk ((alignedSize n / 256 : ℕ) : ℤ) raw
    generalize vmMapRam _ p _ _ raw = res at hmap hstat halloc
    obtain ⟨ret, s1⟩ := res
    simp only at hmap hstat halloc
    obtain rfl | rfl := hstat
    · rw [if_neg (by decide)] at halloc
      cases halloc
      refine ⟨_, ?_, .raised rfl hno hlt⟩
      obtain ⟨hmmap, hnext, hsym⟩ := hmap.space
      rw [System.setMm_self] at hmmap hnext hsym
      rw [setSymrg, ← System.setMm_setMm s p ((s.mm p).raise (alignedSize n))]
      refine hmap.setMm_setMm ⟨hmmap, hnext, ?_⟩
      simp only [hsym]
      rfl
    · rw [if_pos (by decide)] at halloc
      cases halloc
      exact ⟨_, hmap, .raiseFailed rfl hno hlt⟩
  · have hge : ∀ n : ℕ, size = n → 1 ≤ n → 2 ^ 31 ≤ (s.mm p).mmap.sbrk + alignedSize n :=
      fun n hn hn1 => not_lt.mp fun hlt => hraise ⟨n, hn, hn1, hlt⟩
    rw [allocSbrk_refused h r h0 h1 hge] at halloc
    cases halloc
    refine ⟨s.mm p, ?_, .refused hno hge⟩
    rw [System.setMm_eta]
    exact .refl p s

/-- `__alloc` of any size. -/
theorem alloc_space (r : Fin pagingMaxSymtblSz) {size : ℤ} (h0 : -2 ^ 31 ≤ size)
    (h1 : size < 2 ^ 31) {raw : List ℤ} {stat addr : ℤ} {s' : System ι}
    (halloc : alloc s p r size raw = .ok (stat, addr, s')) :
    ∃ mm, Paged p (s.setMm p mm) s' ∧ AllocSpace size r (s.mm p) stat addr mm := by
  have hbound := h.bound
  unfold alloc at halloc
  cases hget : getFreeVmrgArea (s.mm p).mmap.vmFreergList (pagingPageAlignsz size) with
  | none => simp [hget] at halloc
  | some res =>
    obtain ⟨rfl, hno⟩ | ⟨rg, rgs, rfl, hfit, hrgs, hstart, hend, hlen⟩ :=
      getFreeVmrgArea_under hbound h.free hget <;> simp only [hget, Except.ok.injEq] at halloc
    · -- no region fits, and the list is as before
      rw [show setFreerg s p (s.mm p).mmap.vmFreergList = s from System.setMm_eta s p] at halloc
      exact allocSbrk_space h r h0 h1 (fun ⟨rg, hm, hfit⟩ => hno rg hm hfit) halloc
    · obtain ⟨stat', addr', s1, hres, hstat⟩ :=
        allocFreerg_space (setFreerg s p rgs) p r rg raw
      have haddr : i32 (rg.rgStart : ℤ) = rg.rgStart := i32_natCast (by omega)
      rw [hres] at halloc
      cases halloc
      simp only [setFreerg_self] at hstat
      rw [setFreerg, System.setMm_setMm, System.setMm_setMm] at hstat
      obtain ⟨rfl, rfl, hpaged⟩ | ⟨rfl, rfl, hpaged⟩ := hstat
      · rw [haddr]
        exact ⟨_, hpaged, .reused hfit hstart hend hlen hrgs⟩
      · exact ⟨_, hpaged, .reuseFailed hfit hend hrgs⟩

end

/-! ## `__free` -/

theorem free_space (s : System ι) (p : ι) (r : Fin pagingMaxSymtblSz) :
    ((free s p r).1 = -1 ∧ Paged p s (free s p r).2) ∨
      ((free s p r).1 = 0 ∧ Paged p (s.setMm p ((s.mm p).setRegions
        (enlistVmFreergList (s.mm p).mmap.vmFreergList ((s.mm p).symrgtbl r)) r ⟨0, 0⟩))
        (free s p r).2) := by
  have hloop := Paged.freeLoop (p := p) (regionPages ((s.mm p).symrgtbl r))
    (pagingPgn (i32 ((s.mm p).symrgtbl r).rgStart)) s
  unfold free
  simp only
  generalize freeLoop p _ _ s = res at hloop
  obtain ⟨ret, s1⟩ := res
  split_ifs
  · exact .inl ⟨rfl, .refl p s⟩
  · exact .inl ⟨rfl, hloop⟩
  · refine .inr ⟨rfl, ?_⟩
    obtain ⟨hmmap, hnext, hsym⟩ := hloop.space
    simp only at hmmap hnext hsym
    rw [setSymrg_self, setSymrg, setFreerg, System.setMm_setMm, System.setMm_self]
    refine hloop.setMm_setMm ⟨?_, hnext, ?_⟩
    · simp only [Mm.setRegions, hmmap]
    · simp only [Mm.setRegions, hsym]

section

variable {s t : System ι} {p : ι} (h : SpaceInv (s.mm p))

include h

theorem SpaceInv.same (ht : Paged p s t) : ∃ mm, SpaceInv mm ∧ Paged p (s.setMm p mm) t :=
  ⟨s.mm p, h, by rw [System.setMm_eta]; exact ht⟩

theorem SpaceInv.freed (r : Fin pagingMaxSymtblSz) :
    ∃ mm, SpaceInv mm ∧ Paged p (s.setMm p mm) (Mem.free s p r).2 := by
  obtain ⟨-, hpaged⟩ | ⟨-, hpaged⟩ := free_space s p r
  · exact h.same hpaged
  · exact ⟨_, h.setRegions (under_enlistVmFreergList h.free (h.live _)) _ (Nat.zero_le _), hpaged⟩

end

end OsSim.Mem
