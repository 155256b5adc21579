import OsSim.Mem.Area
import Mathlib.Data.List.Basic

/-!
# The invariant of an `mm_struct`

The regions of a process lie below the break, start at page borders and share
no pages, whether they are in the symbol table or on the free list; a page of a
free region and a page above the break are not present; the FIFO list holds
resident pages, each once. Nothing is said about frames, so the invariant also
holds where two pages share one.

Results: `MmInv` is kept by each way in which the memory functions change an
`mm_struct`: its pages (`MmInv.mapPage`, `MmInv.swapOutPage`, `MmInv.swapInPage`,
`MmInv.releasePage`) and its regions (`MmInv.setFree`, `MmInv.setLive`,
`MmInv.grow`, `MmInv.retire`).
-/

namespace OsSim.Mem

/-- The invariant of the memory of one process. -/
structure MmInv (mm : Mm) : Prop where
  vmNext : mm.vmNext = []
  vmEnd : mm.mmap.vmEnd = mm.mmap.sbrk
  aligned : 256 ∣ mm.mmap.sbrk
  bound : mm.mmap.sbrk ≤ 2 ^ 22
  free : RegionsApart mm.mmap.sbrk mm.mmap.vmFreergList
  live : ∀ r, (mm.symrgtbl r).Below mm.mmap.sbrk
  live_apart : ∀ r r', r ≠ r' → (mm.symrgtbl r).Apart (mm.symrgtbl r')
  live_free : ∀ r pgn, (mm.symrgtbl r).HasPage pgn → ¬ HasPages mm.mmap.vmFreergList pgn
  free_absent : ∀ pgn, HasPages mm.mmap.vmFreergList pgn → ¬ Present (mm.pgd pgn)
  above_absent : ∀ pgn, mm.mmap.sbrk ≤ pgn * 256 → ¬ Present (mm.pgd pgn)
  fifo_nodup : mm.fifoPgn.Nodup
  fifo_resident : ∀ pgn ∈ mm.fifoPgn, Resident (mm.pgd pgn)

variable {mm : Mm}

/-- The cleared region `[0, 0)`. -/
theorem VmRg.below_cleared (sbrk : ℕ) : VmRg.Below sbrk ⟨0, 0⟩ :=
  ⟨le_rfl, fun h => absurd h (by simp), Nat.zero_le _⟩

theorem VmRg.not_hasPage_cleared (pgn : ℕ) : ¬ VmRg.HasPage ⟨0, 0⟩ pgn :=
  VmRg.not_hasPage_of_le le_rfl pgn

theorem not_present_zero : ¬ Present 0 := by decide

/-- A new process. -/
theorem MmInv.initMm : MmInv (initMm Mm.zero) where
  vmNext := rfl
  vmEnd := rfl
  aligned := by decide
  bound := Nat.zero_le _
  free := regionsApart_cons.mpr ⟨VmRg.below_cleared _, fun pgn h => absurd h
    (VmRg.not_hasPage_cleared pgn), .nil _⟩
  live _ := VmRg.below_cleared _
  live_apart _ _ _ pgn h := absurd h (VmRg.not_hasPage_cleared pgn)
  live_free _ pgn h := absurd h (VmRg.not_hasPage_cleared pgn)
  free_absent _ _ := not_present_zero
  above_absent _ _ := not_present_zero
  fifo_nodup := List.nodup_nil
  fifo_resident _ h := absurd h List.not_mem_nil

/-- Two regions of the symbol table have no byte in common. -/
theorem MmInv.byte_unique (h : MmInv mm) {r r' : Fin pagingMaxSymtblSz} {off off' : ℕ}
    (hlt : off < (mm.symrgtbl r).rgEnd - (mm.symrgtbl r).rgStart)
    (hlt' : off' < (mm.symrgtbl r').rgEnd - (mm.symrgtbl r').rgStart)
    (heq : (mm.symrgtbl r).rgStart + off = (mm.symrgtbl r').rgStart + off') :
    r = r' ∧ off = off' := by
  have hr : r = r' := by
    by_contra hne
    refine h.live_apart r r' hne (((mm.symrgtbl r).rgStart + off) / 256)
      (VmRg.hasPage_of_byte (Nat.le_add_right ..) (by omega)) ?_
    rw [heq]
    exact VmRg.hasPage_of_byte (Nat.le_add_right ..) (by omega)
  subst hr
  exact ⟨rfl, by omega⟩

/-! ## Pages -/

/-- Changes of entries that make no absent page present. -/
theorem MmInv.setPages (h : MmInv mm) {pgd : ℕ → Pte} {fifo : List ℕ}
    (habs : ∀ pgn, ¬ Present (mm.pgd pgn) → ¬ Present (pgd pgn)) (hnd : fifo.Nodup)
    (hres : ∀ pgn ∈ fifo, Resident (pgd pgn)) :
    MmInv { mm with pgd := pgd, fifoPgn := fifo } :=
  { h with
    free_absent := fun pgn hp => habs pgn (h.free_absent pgn hp)
    above_absent := fun pgn hp => habs pgn (h.above_absent pgn hp)
    fifo_nodup := hnd
    fifo_resident := hres }

/-- An absent page below the break that is in no free region gets a frame. -/
theorem MmInv.mapPage (h : MmInv mm) {pgn : ℕ} (habs : ¬ Present (mm.pgd pgn))
    (hfree : ¬ HasPages mm.mmap.vmFreergList pgn) (hbrk : pgn * 256 < mm.mmap.sbrk) (fpn : ℤ) :
    MmInv { mm with
      pgd := Function.update mm.pgd pgn (pteSetFpn (mm.pgd pgn) fpn)
      fifoPgn := enlistPgnNode mm.fifoPgn pgn } := by
  have hnot : pgn ∉ mm.fifoPgn := fun hm => habs (h.fifo_resident pgn hm).1
  refine { h with
    free_absent := fun k hk => ?_
    above_absent := fun k hk => ?_
    fifo_nodup := List.nodup_cons.mpr ⟨hnot, h.fifo_nodup⟩
    fifo_resident := fun k hk => ?_ }
  · have hne : k ≠ pgn := fun e => hfree (e ▸ hk)
    simp only [Function.update_of_ne hne]
    exact h.free_absent k hk
  · have hne : k ≠ pgn := by
      simp only at hk
      omega
    simp only [Function.update_of_ne hne]
    exact h.above_absent k hk
  · rcases List.mem_cons.mp hk with rfl | hk
    · simp
    · have hne : k ≠ pgn := fun e => hnot (e ▸ hk)
      simp only [Function.update_of_ne hne]
      exact h.fifo_resident k hk

/-- The victim leaves the FIFO list. -/
theorem MmInv.dropVictim (h : MmInv mm) : MmInv { mm with fifoPgn := mm.fifoPgn.dropLast } :=
  h.setPages (fun _ hp => hp) (h.fifo_nodup.sublist (List.dropLast_sublist _))
    fun pgn hp => h.fifo_resident pgn (List.dropLast_subset _ hp)

theorem length_of_getLast? {α : Type*} {l : List α} {x : α} (h : l.getLast? = some x) :
    l.length = l.dropLast.length + 1 := by
  conv_lhs => rw [← List.dropLast_append_getLast? x h]
  simp

/-- The victim goes to a swap slot. -/
theorem MmInv.swapOutPage (h : MmInv mm) {vicpgn : ℕ} (hlast : mm.fifoPgn.getLast? = some vicpgn)
    (swptyp swpoff : ℤ) :
    MmInv { mm with
      pgd := Function.update mm.pgd vicpgn (pteSetSwap (mm.pgd vicpgn) swptyp swpoff)
      fifoPgn := mm.fifoPgn.dropLast } := by
  have hnd := h.fifo_nodup
  rw [← List.dropLast_append_getLast? vicpgn hlast, List.nodup_append] at hnd
  have hmem : vicpgn ∈ mm.fifoPgn := List.mem_of_getLast? hlast
  refine h.setPages (fun pgn hp => ?_) (h.fifo_nodup.sublist (List.dropLast_sublist _))
    fun pgn hp => ?_
  · have hne : pgn ≠ vicpgn := fun e => hp (e ▸ (h.fifo_resident _ hmem).1)
    rwa [Function.update_of_ne hne]
  · rw [Function.update_of_ne (hnd.2.2 pgn hp vicpgn (by simp))]
    exact h.fifo_resident pgn (List.dropLast_subset _ hp)

/-- A page in swap gets a frame. -/
theorem MmInv.swapInPage (h : MmInv mm) {pgn : ℕ} (hp : Present (mm.pgd pgn))
    (hsw : Swapped (mm.pgd pgn)) (fpn : ℤ) :
    MmInv { mm with
      pgd := Function.update mm.pgd pgn (pteSetFpn (mm.pgd pgn) fpn)
      fifoPgn := enlistPgnNode mm.fifoPgn pgn } := by
  have hnot : pgn ∉ mm.fifoPgn := fun hm => (h.fifo_resident pgn hm).2 hsw
  refine h.setPages (fun k hk => ?_) (List.nodup_cons.mpr ⟨hnot, h.fifo_nodup⟩) fun k hk => ?_
  · have hne : k ≠ pgn := fun e => hk (e ▸ hp)
    rwa [Function.update_of_ne hne]
  · rcases List.mem_cons.mp hk with rfl | hk
    · simp
    · have hne : k ≠ pgn := fun e => hnot (e ▸ hk)
      rw [Function.update_of_ne hne]
      exact h.fifo_resident k hk

/-- A page gives up its frame. -/
theorem MmInv.releasePage (h : MmInv mm) (pgn : ℕ) :
    MmInv { mm with
      pgd := Function.update mm.pgd pgn (BitField.clrbit (mm.pgd pgn) presentMask)
      fifoPgn := clearPgnNode mm.fifoPgn pgn } := by
  refine h.setPages (fun k hk => ?_) (h.fifo_nodup.erase pgn) fun k hk => ?_
  · rw [Function.update_apply]
    split_ifs
    · exact not_present_clrbit _
    · exact hk
  · rw [clearPgnNode, h.fifo_nodup.mem_erase_iff] at hk
    rw [Function.update_of_ne hk.1]
    exact h.fifo_resident k hk.2

/-! ## Regions -/

/-- The free list shrinks to parts of its regions. -/
theorem MmInv.setFree (h : MmInv mm) {rgs : List VmRg} (hr : RegionsApart mm.mmap.sbrk rgs)
    (hsub : ∀ pgn, HasPages rgs pgn → HasPages mm.mmap.vmFreergList pgn) :
    MmInv { mm with mmap := { mm.mmap with vmFreergList := rgs } } :=
  { h with
    free := hr
    live_free := fun r pgn hp hp' => h.live_free r pgn hp (hsub pgn hp')
    free_absent := fun pgn hp => h.free_absent pgn (hsub pgn hp) }

/-- A region none of whose pages is in another region enters the symbol table. -/
theorem MmInv.setLive (h : MmInv mm) (rg : VmRg) (r : Fin pagingMaxSymtblSz)
    (hb : rg.Below mm.mmap.sbrk)
    (hlive : ∀ r', r' ≠ r → rg.Apart (mm.symrgtbl r'))
    (hfree : ∀ pgn, rg.HasPage pgn → ¬ HasPages mm.mmap.vmFreergList pgn) :
    MmInv { mm with symrgtbl := Function.update mm.symrgtbl r rg } := by
  refine { h with live := fun r' => ?_, live_apart := fun r1 r2 hne => ?_,
                  live_free := fun r' => ?_ }
  · simp only [Function.update_apply]
    split_ifs
    · exact hb
    · exact h.live r'
  · simp only [Function.update_apply]
    split_ifs with e1 e2 e2
    · exact absurd (e1.trans e2.symm) hne
    · exact hlive r2 e2
    · exact (hlive r1 e1).symm
    · exact h.live_apart r1 r2 hne
  · simp only [Function.update_apply]
    split_ifs
    · exact hfree
    · exact h.live_free r'

/-- The break moves up. -/
theorem MmInv.grow (h : MmInv mm) {incSz : ℕ} (h256 : 256 ∣ incSz)
    (hb : mm.mmap.sbrk + incSz ≤ 2 ^ 22) :
    MmInv { mm with mmap := { mm.mmap with
      vmEnd := mm.mmap.vmEnd + incSz, sbrk := mm.mmap.sbrk + incSz } } :=
  { h with
    vmEnd := by simp only [h.vmEnd]
    aligned := Nat.dvd_add h.aligned h256
    bound := hb
    free := ⟨fun rg hm => (h.free.below rg hm).mono (Nat.le_add_right ..), h.free.apart⟩
    live := fun r => (h.live r).mono (Nat.le_add_right ..)
    above_absent := fun pgn hp => h.above_absent pgn ((Nat.le_add_right ..).trans hp) }

theorem hasPages_enlistVmFreergList (rgs : List VmRg) (rg : VmRg) (pgn : ℕ) :
    HasPages (enlistVmFreergList rgs rg) pgn ↔ rg.HasPage pgn ∨ HasPages rgs pgn := by
  unfold enlistVmFreergList
  split_ifs with h
  · simp [VmRg.not_hasPage_of_le h]
  · exact hasPages_cons ..

/-- A region whose pages are absent goes from the symbol table to the free list. -/
theorem MmInv.retire (h : MmInv mm) (r : Fin pagingMaxSymtblSz)
    (habs : ∀ pgn, (mm.symrgtbl r).HasPage pgn → ¬ Present (mm.pgd pgn)) :
    MmInv { mm with
      symrgtbl := Function.update mm.symrgtbl r ⟨0, 0⟩
      mmap := { mm.mmap with
        vmFreergList := enlistVmFreergList mm.mmap.vmFreergList (mm.symrgtbl r) } } := by
  have hfree : RegionsApart mm.mmap.sbrk
      (enlistVmFreergList mm.mmap.vmFreergList (mm.symrgtbl r)) := by
    unfold enlistVmFreergList
    split_ifs
    · exact h.free
    · exact regionsApart_cons.mpr ⟨h.live r, h.live_free r, h.free⟩
  refine { h with free := hfree, live := fun r' => ?_, live_apart := fun r1 r2 hne => ?_,
                  live_free := fun r' pgn hp => ?_, free_absent := fun pgn hp => ?_ }
  · simp only [Function.update_apply]
    split_ifs
    · exact VmRg.below_cleared _
    · exact h.live r'
  · simp only [Function.update_apply]
    split_ifs with e1 e2 e2
    · exact absurd (e1.trans e2.symm) hne
    · exact fun pgn hp => absurd hp (VmRg.not_hasPage_cleared pgn)
    · exact fun pgn _ hp => VmRg.not_hasPage_cleared pgn hp
    · exact h.live_apart r1 r2 hne
  · simp only [Function.update_apply] at hp
    split_ifs at hp with e
    · exact absurd hp (VmRg.not_hasPage_cleared pgn)
    · simp only [hasPages_enlistVmFreergList, not_or]
      exact ⟨h.live_apart r' r e pgn hp, h.live_free r' pgn hp⟩
  · obtain hp | hp := (hasPages_enlistVmFreergList ..).mp hp
    · exact habs pgn hp
    · exact h.free_absent pgn hp

end OsSim.Mem
