import OsSim.Mem.Memphy
import OsSim.Mem.TlbCache

/-!
# The memory state

What the memory functions reach through `struct pcb_t *caller`: the RAM and
swap devices and the TLB, shared by all processes, and the `mm_struct` of each
process (`include/os-mm.h`, `include/common.h`). Processes are named by an
index type `ι`, so any number of them can share the devices.

`active_mswp` is left out: the modelled functions assign it right before each
use.
-/

namespace OsSim.Mem

/-- `PAGING_MAX_MMSWP`. -/
abbrev pagingMaxMmswp : ℕ := 4

/-- There is a first swap device. -/
instance : NeZero pagingMaxMmswp := ⟨by decide⟩

/-- `PAGING_MAX_SYMTBL_SZ`. -/
abbrev pagingMaxSymtblSz : ℕ := 30

/-- `struct vm_rg_struct`; a list of regions is a `List`. -/
structure VmRg where
  rgStart : ℕ
  rgEnd : ℕ
  deriving DecidableEq, Repr

/-- `struct vm_area_struct`. `dangling` is not a field of it: it records that `vm_freerg_list` leads
to the variable `rgnode` of an `__alloc` that has returned. -/
structure VmArea where
  vmStart : ℕ
  vmEnd : ℕ
  sbrk : ℕ
  vmFreergList : List VmRg
  dangling : Bool := false

/-- `struct mm_struct`. `mmap` is the first area, `vmNext` the areas behind it. The table that `pgd`
points to ends at `PAGING_MAX_PGN`; `Defined` says which instructions stay inside it. -/
structure Mm where
  pgd : ℕ → Pte
  mmap : VmArea
  vmNext : List VmArea
  symrgtbl : Fin pagingMaxSymtblSz → VmRg
  fifoPgn : List ℕ

/-- The devices, the TLB, and the `pid` and `mm` of every process. -/
structure System (ι : Type*) where
  mram : Memphy
  mswp : Fin pagingMaxMmswp → Memphy
  tlb : Tlb
  pid : ι → BitVec 32
  mm : ι → Mm

/-- How a call can fail to return. -/
inductive Fault where
  | diverges
  | outOfBounds
  | nullPointer
  deriving DecidableEq, Repr

namespace System

variable {ι : Type*} [DecidableEq ι]

/-- Replace the `mm_struct` of a process. -/
def setMm (s : System ι) (p : ι) (mm : Mm) : System ι :=
  { s with mm := Function.update s.mm p mm }

/-- `mm->pgd[pgn] = pte`. -/
def setPte (s : System ι) (p : ι) (pgn : ℕ) (pte : Pte) : System ι :=
  s.setMm p { s.mm p with pgd := Function.update (s.mm p).pgd pgn pte }

/-- `mm->fifo_pgn = fifo`. -/
def setFifo (s : System ι) (p : ι) (fifo : List ℕ) : System ι :=
  s.setMm p { s.mm p with fifoPgn := fifo }

/-- The list of free frames of RAM becomes `frames`. -/
def setFrames (s : System ι) (frames : List ℤ) : System ι :=
  { s with mram := s.mram.setFree frames }

/-- The list of free slots of the first swap device becomes `slots`. -/
def setSlots (s : System ι) (slots : List ℤ) : System ι :=
  { s with mswp := Function.update s.mswp 0 ((s.mswp 0).setFree slots) }

/-- The `pid` as the `int` that the TLB functions take. -/
def pidInt (s : System ι) (p : ι) : ℤ := i32 (s.pid p).toNat

section

variable (s : System ι) (p : ι) (mm : Mm) (pgn : ℕ) (pte : Pte) (fifo : List ℕ)

@[simp] theorem setMm_mram : (s.setMm p mm).mram = s.mram := rfl
@[simp] theorem setMm_mswp : (s.setMm p mm).mswp = s.mswp := rfl
@[simp] theorem setMm_tlb : (s.setMm p mm).tlb = s.tlb := rfl
@[simp] theorem setMm_pid : (s.setMm p mm).pid = s.pid := rfl
@[simp] theorem setMm_self : (s.setMm p mm).mm p = mm := Function.update_self ..

theorem setMm_of_ne {q : ι} (h : q ≠ p) : (s.setMm p mm).mm q = s.mm q :=
  Function.update_of_ne h ..

@[simp] theorem setPte_mram : (s.setPte p pgn pte).mram = s.mram := rfl
@[simp] theorem setPte_mswp : (s.setPte p pgn pte).mswp = s.mswp := rfl
@[simp] theorem setPte_tlb : (s.setPte p pgn pte).tlb = s.tlb := rfl
@[simp] theorem setPte_pid : (s.setPte p pgn pte).pid = s.pid := rfl
@[simp] theorem setFifo_mram : (s.setFifo p fifo).mram = s.mram := rfl
@[simp] theorem setFifo_mswp : (s.setFifo p fifo).mswp = s.mswp := rfl
@[simp] theorem setFifo_tlb : (s.setFifo p fifo).tlb = s.tlb := rfl
@[simp] theorem setFifo_pid : (s.setFifo p fifo).pid = s.pid := rfl

@[simp] theorem setPte_self : (s.setPte p pgn pte).mm p =
    { s.mm p with pgd := Function.update (s.mm p).pgd pgn pte } := setMm_self ..

omit [DecidableEq ι] in
@[simp] theorem setFrames_mram (frames : List ℤ) :
    (s.setFrames frames).mram = s.mram.setFree frames := rfl
omit [DecidableEq ι] in
@[simp] theorem setFrames_mswp (frames : List ℤ) : (s.setFrames frames).mswp = s.mswp := rfl
omit [DecidableEq ι] in
@[simp] theorem setFrames_tlb (frames : List ℤ) : (s.setFrames frames).tlb = s.tlb := rfl
omit [DecidableEq ι] in
@[simp] theorem setFrames_pid (frames : List ℤ) : (s.setFrames frames).pid = s.pid := rfl
omit [DecidableEq ι] in
@[simp] theorem setFrames_mm (frames : List ℤ) : (s.setFrames frames).mm = s.mm := rfl
omit [DecidableEq ι] in
@[simp] theorem setSlots_mram (slots : List ℤ) : (s.setSlots slots).mram = s.mram := rfl
omit [DecidableEq ι] in
@[simp] theorem setSlots_mswp (slots : List ℤ) :
    (s.setSlots slots).mswp = Function.update s.mswp 0 ((s.mswp 0).setFree slots) := rfl
omit [DecidableEq ι] in
@[simp] theorem setSlots_tlb (slots : List ℤ) : (s.setSlots slots).tlb = s.tlb := rfl
omit [DecidableEq ι] in
@[simp] theorem setSlots_pid (slots : List ℤ) : (s.setSlots slots).pid = s.pid := rfl
omit [DecidableEq ι] in
@[simp] theorem setSlots_mm (slots : List ℤ) : (s.setSlots slots).mm = s.mm := rfl

@[simp] theorem setFifo_self : (s.setFifo p fifo).mm p = { s.mm p with fifoPgn := fifo } :=
  setMm_self ..

theorem setMm_setMm (mm' : Mm) : (s.setMm p mm).setMm p mm' = s.setMm p mm' := by
  simp [System.setMm]

theorem setMm_eta : s.setMm p (s.mm p) = s := by simp [System.setMm]

end

end System

/-! ## The array of swap devices -/

/-- The struct at `(struct memphy_struct *)(caller->mswp + k)`. `main` passes the array
`struct memphy_struct mswp[4]` cast to `struct memphy_struct **`, so `+ k` moves by `k` pointers,
not by `k` structs: only `k = 0` is a device. At `k = 1, 2, 3` the code reads as `maxsz` the
`cursor`, half of `free_fp_list` and half of `used_fp_list` of `mswp[0]`. When the search for a
free slot gets there these are 0, and it finds no device. -/
def mswpAdd (mswp : Fin pagingMaxMmswp → Memphy) (k : ℕ) : Memphy :=
  if k = 0 then mswp 0 else Memphy.zero

/-- The array after a write to the struct at `mswp + k`. -/
def setMswpAdd (mswp : Fin pagingMaxMmswp → Memphy) (k : ℕ) (mp : Memphy) :
    Fin pagingMaxMmswp → Memphy :=
  if k = 0 then Function.update mswp 0 mp else mswp

/-- The struct at `caller->mswp[k]`: the pointer is the first bytes of `mswp[0]` (for `k = 0` its
`storage`), so what it points to is not a device. -/
def mswpIndex (_mswp : Fin pagingMaxMmswp → Memphy) (_k : ℕ) : Memphy := Memphy.zero

@[simp] theorem mswpAdd_zero (mswp : Fin pagingMaxMmswp → Memphy) : mswpAdd mswp 0 = mswp 0 := rfl

@[simp] theorem setMswpAdd_zero (mswp : Fin pagingMaxMmswp → Memphy) (mp : Memphy) :
    setMswpAdd mswp 0 mp = Function.update mswp 0 mp := rfl

theorem memphyGetFreefp_mswpAdd {mswp : Fin pagingMaxMmswp → Memphy} {k : ℕ} (h : k ≠ 0) :
    memphyGetFreefp (mswpAdd mswp k) = none := by
  rw [mswpAdd, if_neg h, memphyGetFreefp_eq_none]
  exact Or.inl le_rfl

end OsSim.Mem
