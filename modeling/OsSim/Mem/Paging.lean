import OsSim.Mem.System

/-!
# Paging

Models of the page-level functions of `src/mm.c` and `src/mm-vm.c`: the FIFO
list of resident pages, allocation of frames with eviction, the mapping of a
range of pages, and `pg_getpage`.

A function that returns through pointers returns a tuple: its status, the
values it stores, the new state. `raw` is the list of frame numbers that the
code reads from the uninitialised node `newfp_str` and its `fp_next` chain when
no swap device has a free slot (`mm.c`, lines 173–183).
-/

namespace OsSim.Mem

open BitField

variable {ι : Type*} [DecidableEq ι]

/-! ## The FIFO list -/

/-- `enlist_pgn_node` (`mm.c`, lines 328–337). -/
def enlistPgnNode (plist : List ℕ) (pgn : ℕ) : List ℕ := pgn :: plist

/-- `clear_pgn_node` (`mm-vm.c`, lines 168–193): the first node of `pgn` is unlinked. -/
def clearPgnNode (plist : List ℕ) (pgn : ℕ) : List ℕ := plist.erase pgn

/-- `find_victim_page` (`mm-vm.c`, lines 636–667): the last node is unlinked. -/
def findVictimPage (fifoPgn : List ℕ) : Option (ℕ × List ℕ) :=
  match fifoPgn.getLast? with
  | some pgn => some (pgn, fifoPgn.dropLast)
  | none => none

/-! ## Frames for new pages -/

/-- The search for a swap device with a free slot (`mm.c`, lines 164–170), from `swapIndex` on
with `left` turns left: the index, `vicSwapOff`, the state. -/
def swapSearch : (left swapIndex : ℕ) → (vicSwapOff : ℤ) → System ι → ℕ × ℤ × System ι
  | 0, swapIndex, vicSwapOff, s => (swapIndex, vicSwapOff, s)
  | left + 1, swapIndex, vicSwapOff, s =>
    match memphyGetFreefp (mswpAdd s.mswp swapIndex) with
    | some (off, mp) =>
      let s := { s with mswp := setMswpAdd s.mswp swapIndex mp }
      if off ≥ 0 then (swapIndex, off, s) else swapSearch left (swapIndex + 1) off s
    | none =>
      if vicSwapOff ≥ 0 then (swapIndex, vicSwapOff, s)
      else swapSearch left (swapIndex + 1) vicSwapOff s

/-- Lines 187–200 of `alloc_pages_range`: page `vicpgn` is copied to slot `vicSwapOff` of the
device at `mswp + swapIndex`; the result is the frame it leaves. -/
def swapOut (s : System ι) (caller : ι) (vicpgn swapIndex : ℕ) (vicSwapOff : ℤ) :
    ℤ × System ι :=
  let s := { s with tlb := (tlbCacheInvalidate s.tlb (s.pidInt caller) vicpgn).2 }
  let vicpte := (s.mm caller).pgd vicpgn
  let vicfpn := pteFpn vicpte
  let (mram, mswp) := swapCpPage s.mram vicfpn (mswpAdd s.mswp swapIndex) vicSwapOff
  let s := { s with mram := mram, mswp := setMswpAdd s.mswp swapIndex mswp }
  (vicfpn, s.setPte caller vicpgn (pteSetSwap vicpte swapIndex vicSwapOff))

/-- `alloc_pages_range` (`mm.c`, lines 132–207) with `left` pages still to get: the status,
`*frm_lst`, the state. -/
def allocPagesRange (caller : ι) (raw : List ℤ) :
    (left : ℕ) → (frmLst : List ℤ) → System ι → ℤ × List ℤ × System ι
  | 0, frmLst, s => (0, frmLst, s)
  | left + 1, frmLst, s =>
    match memphyGetFreefp s.mram with
    | some (fpn, mram) =>
      allocPagesRange caller raw left (fpn :: frmLst) { s with mram := mram }
    | none =>
      match findVictimPage (s.mm caller).fifoPgn with
      | none => (-3000, frmLst, { s with mram := memphyPutAll s.mram frmLst })
      | some (vicpgn, fifoPgn) =>
        let (swapIndex, vicSwapOff, s) := swapSearch pagingMaxMmswp 0 (-1) (s.setFifo caller fifoPgn)
        -- the node put back here is `newfp_str`, not the list `*frm_lst`
        if vicSwapOff < 0 then (-3000, frmLst, { s with mram := memphyPutAll s.mram raw })
        else
          let (vicfpn, s) := swapOut s caller vicpgn swapIndex vicSwapOff
          allocPagesRange caller raw left (vicfpn :: frmLst) s

/-- The loop of `vmap_page_range` (`mm.c`, lines 106–120). -/
def vmapLoop (pgn : ℕ) : (left pgit : ℕ) → (frames : List ℤ) → Mm → Mm
  | 0, _, _, mm => mm
  | _ + 1, _, [], mm => mm
  | left + 1, pgit, fpn :: frames, mm =>
    vmapLoop pgn left (pgit + 1) frames
      { mm with
        pgd := Function.update mm.pgd (pgn + pgit) (pteSetFpn (mm.pgd (pgn + pgit)) fpn)
        fifoPgn := enlistPgnNode mm.fifoPgn (pgn + pgit) }

/-- `vmap_page_range` (`mm.c`, lines 86–123); the region it returns is not used. -/
def vmapPageRange (mm : Mm) (addr : ℤ) (pgnum : ℕ) (frames : List ℤ) : Mm :=
  vmapLoop (pagingPgn addr) pgnum 0 frames mm

/-- `vm_map_ram` (`mm.c`, lines 219–250). -/
def vmMapRam (s : System ι) (caller : ι) (mapstart incpgnum : ℤ) (raw : List ℤ) :
    ℤ × System ι :=
  match allocPagesRange caller raw incpgnum.toNat [] s with
  | (retAlloc, frmLst, s) =>
    if retAlloc < 0 then (-1, s)
    else (0, s.setMm caller (vmapPageRange (s.mm caller) mapstart incpgnum.toNat frmLst))

/-! ## `pg_getpage` -/

/-- Lines 286–300 of `pg_getpage`: the page in slot `swapOff` of the device at `mswp + swapType`
is copied to the frame `fpn` just taken from RAM, and the slot is put back. -/
def swapIn (s : System ι) (caller : ι) (pgn swapType : ℕ) (swapOff fpn : ℤ) : System ι :=
  let (mswp, mram) := swapCpPage (mswpAdd s.mswp swapType) swapOff s.mram fpn
  let s := { s with mram := mram, mswp := setMswpAdd s.mswp swapType mswp }
  let s := s.setPte caller pgn (pteSetFpn ((s.mm caller).pgd pgn) fpn)
  let s := { s with
    mswp := setMswpAdd s.mswp swapType (memphyPutFreefp (mswpAdd s.mswp swapType) swapOff) }
  s.setFifo caller (enlistPgnNode (s.mm caller).fifoPgn pgn)

/-- Lines 328–355 of `pg_getpage`: the page in slot `swapOff` takes the frame of page `vicpgn`. -/
def swapExchange (s : System ι) (caller : ι) (pgn swapType : ℕ) (swapOff : ℤ)
    (vicpgn swapIndex : ℕ) (vicSwapOff : ℤ) : ℤ × System ι :=
  let vicpte := (s.mm caller).pgd vicpgn
  let vicfpn := pteFpn vicpte
  let s := { s with tlb := (tlbCacheInvalidate s.tlb (s.pidInt caller) vicpgn).2 }
  let (mram, mswp) := swapCpPage s.mram vicfpn (mswpAdd s.mswp swapIndex) vicSwapOff
  let s := { s with mram := mram, mswp := setMswpAdd s.mswp swapIndex mswp }
  let (_, mram) := swapCpPage (mswpIndex s.mswp swapType) swapOff s.mram vicfpn
  let s := { s with mram := mram }
  let s := s.setPte caller vicpgn (pteSetSwap vicpte swapIndex vicSwapOff)
  let s := s.setPte caller pgn (pteSetFpn ((s.mm caller).pgd pgn) vicfpn)
  let pte := (s.mm caller).pgd pgn
  let s := s.setFifo caller (enlistPgnNode (s.mm caller).fifoPgn pgn)
  (pteFpn pte, s)

/-- `pg_getpage` (`mm-vm.c`, lines 266–358): the status, `*fpn`, the state. -/
def pgGetpage (s : System ι) (caller : ι) (pgn : ℕ) : ℤ × ℤ × System ι :=
  let pte := (s.mm caller).pgd pgn
  if ¬ Present pte then (-1, -1, s)
  else if Swapped pte then
    let swapType := pteSwptyp pte
    let swapOff := pagingSwp pte
    match memphyGetFreefp s.mram with
    | some (fpn, mram) => (0, fpn, swapIn { s with mram := mram } caller pgn swapType swapOff fpn)
    | none =>
      let failed : ℤ := 0
      match findVictimPage (s.mm caller).fifoPgn with
      | none => (-1, -1, s)
      | some (vicpgn, fifoPgn) =>
        -- the loop runs while `failed < 0`, which is never the case
        let (swapIndex, vicSwapOff, s) :=
          swapSearch (if failed < 0 then pagingMaxMmswp else 0) 0 (-1) (s.setFifo caller fifoPgn)
        if vicSwapOff < 0 then (-1, -1, s)
        else
          let (fpn, s) := swapExchange s caller pgn swapType swapOff vicpgn swapIndex vicSwapOff
          (0, fpn, s)
  else (0, pteFpn pte, s)

/-! ## New processes -/

/-- `init_mm` (`mm.c`, lines 287–307) on memory whose bytes were `raw`: the page table, the
symbol table, the FIFO list and the list that `vm_freerg_list` points to are not written. -/
def initMm (raw : Mm) : Mm :=
  { raw with
    mmap := { vmStart := 0, vmEnd := 0, sbrk := 0,
              vmFreergList := ⟨0, 0⟩ :: raw.mmap.vmFreergList }
    vmNext := [] }

/-- An `mm_struct` and a page table all of whose bytes are 0. -/
def Mm.zero : Mm :=
  { pgd := fun _ => 0, mmap := ⟨0, 0, 0, [], false⟩, vmNext := [], symrgtbl := fun _ => ⟨0, 0⟩,
    fifoPgn := [] }

end OsSim.Mem
