import OsSim.Mem.Paging

/-!
# Regions

Models of the region-level functions of `src/mm-vm.c`: the free list of the
area, `__alloc`, `__free`, `__read`, `__write` and the plain paging entry points
`pgalloc`, `pgfree_data`, `pgread`, `pgwrite`.

A list of free regions holds the regions by value. `enlist_vm_freerg_list`
links the node that it is given, which is the local variable `rgnode` when
`__alloc` puts a region back. That variable is gone when `__alloc` returns. From
then on `dangling` is set, and the list is the one that there would be if the
variable had been kept.
-/

namespace OsSim.Mem

open BitField

variable {ι : Type*} [DecidableEq ι]

/-! ## The free list -/

/-- `enlist_vm_freerg_list` (lines 24–40). -/
def enlistVmFreergList (freerg : List VmRg) (rgElmt : VmRg) : List VmRg :=
  if rgElmt.rgStart ≥ rgElmt.rgEnd then freerg else rgElmt :: freerg

/-- The loop of `get_free_vmrg_area` (lines 688–726) from the node `rgit` on: the list from there
on and `newrg`, or `none` when `fuel` turns are not enough. -/
def getFreeVmrgLoop (size : ℤ) : (fuel : ℕ) → List VmRg → VmRg → Option (List VmRg × VmRg)
  | _, [], newrg => some ([], newrg)
  | 0, _ :: _, _ => none
  | fuel + 1, rgit :: rgNext, newrg =>
    if u64 (rgit.rgStart + size) ≤ rgit.rgEnd then
      let newrg := ⟨rgit.rgStart, u64 (rgit.rgStart + size)⟩
      -- `rgit` is not moved: the rest of the region is tried next
      if u64 (rgit.rgStart + size) < rgit.rgEnd then
        getFreeVmrgLoop size fuel (⟨u64 (rgit.rgStart + size), rgit.rgEnd⟩ :: rgNext) newrg
      else
        match rgNext with
        | nextrg :: rest => getFreeVmrgLoop size fuel (nextrg :: rest) newrg
        | [] => getFreeVmrgLoop size fuel [⟨rgit.rgEnd, rgit.rgEnd⟩] newrg
    else
      (getFreeVmrgLoop size fuel rgNext newrg).map fun r => (rgit :: r.1, r.2)

/-- Turns that are enough for the loop whenever it ends. -/
def getFreeVmrgFuel (freerg : List VmRg) : ℕ :=
  (freerg.map fun rg => rg.rgStart + rg.rgEnd + 2).sum + 1

/-- `-1` as an `unsigned long`. -/
abbrev ulongMax : ℕ := 2 ^ 64 - 1

/-- `get_free_vmrg_area` (lines 675–732): the region found, if one is, and the list; `none` when
the loop does not end. -/
def getFreeVmrgArea (freerg : List VmRg) (size : ℤ) : Option (Option VmRg × List VmRg) :=
  match freerg with
  | [] => some (none, [])
  | _ :: _ =>
    match getFreeVmrgLoop size (getFreeVmrgFuel freerg) freerg ⟨ulongMax, ulongMax⟩ with
    | none => none
    | some (freerg, newrg) =>
      if newrg.rgStart = ulongMax then some (none, freerg) else some (some newrg, freerg)

/-! ## The break -/

/-- `OVERLAP(x1, x2, y1, y2)` on two `int` and two `unsigned long`: differences and product are
`unsigned long`. -/
def overlap (x1 x2 : ℤ) (y1 y2 : ℕ) : Bool :=
  decide (0 ≤ u64 ((u64 (y2 - x1) : ℤ) * u64 (x2 - y1)))

/-- `validate_overlap_vm_area` (lines 569–594) for the first area; `vmNext` are the others. -/
def validateOverlapVmArea (vmNext : List VmArea) (vmastart vmaend : ℤ) : ℤ :=
  if vmastart ≥ vmaend then -1
  else if vmNext.any fun vma => overlap vmastart vmaend vma.vmStart vma.vmEnd then -1
  else 0

/-- `inc_vma_limit` (lines 602–629). -/
def incVmaLimit (s : System ι) (caller : ι) (incSz : ℤ) (raw : List ℤ) : ℤ × System ι :=
  let incAmt := pagingPageAlignsz incSz
  let incnumpage := incAmt.tdiv pagingPagesz
  let mm := s.mm caller
  let area : VmRg := ⟨mm.mmap.sbrk, u64 (mm.mmap.sbrk + incSz)⟩
  let oldEnd := i32 mm.mmap.vmEnd
  if validateOverlapVmArea mm.vmNext (i32 area.rgStart) (i32 area.rgEnd) < 0 then (-1, s)
  else
    let s := s.setMm caller { mm with
      mmap := { mm.mmap with
        vmEnd := u64 (mm.mmap.vmEnd + incSz), sbrk := u64 (mm.mmap.sbrk + incSz) } }
    vmMapRam s caller oldEnd incnumpage raw

/-! ## Allocation and release -/

/-- `symrgtbl[rgid] = rg`. -/
def setSymrg (s : System ι) (p : ι) (rgid : Fin pagingMaxSymtblSz) (rg : VmRg) : System ι :=
  s.setMm p { s.mm p with symrgtbl := Function.update (s.mm p).symrgtbl rgid rg }

/-- `vm_freerg_list = freerg`. -/
def setFreerg (s : System ι) (p : ι) (freerg : List VmRg) : System ι :=
  s.setMm p { s.mm p with mmap := { (s.mm p).mmap with vmFreergList := freerg } }

section

variable (s : System ι) (p : ι) (rgid : Fin pagingMaxSymtblSz) (rg : VmRg) (freerg : List VmRg)

@[simp] theorem setSymrg_mram : (setSymrg s p rgid rg).mram = s.mram := rfl
@[simp] theorem setSymrg_mswp : (setSymrg s p rgid rg).mswp = s.mswp := rfl
@[simp] theorem setSymrg_tlb : (setSymrg s p rgid rg).tlb = s.tlb := rfl
@[simp] theorem setFreerg_mram : (setFreerg s p freerg).mram = s.mram := rfl
@[simp] theorem setFreerg_mswp : (setFreerg s p freerg).mswp = s.mswp := rfl
@[simp] theorem setFreerg_tlb : (setFreerg s p freerg).tlb = s.tlb := rfl

@[simp] theorem setSymrg_self : (setSymrg s p rgid rg).mm p =
    { s.mm p with symrgtbl := Function.update (s.mm p).symrgtbl rgid rg } := System.setMm_self ..

theorem setSymrg_setMm (mm : Mm) : setSymrg (s.setMm p mm) p rgid rg =
    s.setMm p { mm with symrgtbl := Function.update mm.symrgtbl rgid rg } := by
  simp only [setSymrg, System.setMm_self, System.setMm_setMm]

theorem setSymrg_setFreerg : setSymrg (setFreerg s p freerg) p rgid rg = s.setMm p { s.mm p with
    mmap := { (s.mm p).mmap with vmFreergList := freerg }
    symrgtbl := Function.update (s.mm p).symrgtbl rgid rg } := setSymrg_setMm ..

@[simp] theorem setFreerg_self : (setFreerg s p freerg).mm p =
    { s.mm p with mmap := { (s.mm p).mmap with vmFreergList := freerg } } := System.setMm_self ..

end

/-- The area after `enlist_vm_freerg_list(caller->mm, &rgnode)` in `__alloc` (line 114). The list
starts with the variable, unless the region has no bytes. -/
def VmArea.enlistRgnode (vma : VmArea) (rgnode : VmRg) : VmArea :=
  { vma with
    vmFreergList := enlistVmFreergList vma.vmFreergList rgnode
    dangling := vma.dangling || decide (rgnode.rgStart < rgnode.rgEnd) }

/-- `__alloc` with the free region `rgnode` (lines 102–126): the status, `*alloc_addr`, the
state. -/
def allocFreerg (s : System ι) (caller : ι) (rgid : Fin pagingMaxSymtblSz) (rgnode : VmRg)
    (raw : List ℤ) : ℤ × ℤ × System ι :=
  let s := setSymrg s caller rgid rgnode
  let incSz := i32 (rgnode.rgEnd - rgnode.rgStart)
  let incAmt := pagingPageAlignsz incSz
  let incnumpage := incAmt.tdiv pagingPagesz
  match vmMapRam s caller (i32 rgnode.rgStart) incnumpage raw with
  | (ret, s) =>
    if ret < 0 then
      let s := s.setMm caller { s.mm caller with mmap := (s.mm caller).mmap.enlistRgnode rgnode }
      (-1, 0, setSymrg s caller rgid ⟨0, 0⟩)
    else (0, i32 rgnode.rgStart, s)

/-- `__alloc` when no free region was found (lines 128–158). -/
def allocSbrk (s : System ι) (caller : ι) (rgid : Fin pagingMaxSymtblSz) (size : ℤ)
    (raw : List ℤ) : ℤ × ℤ × System ι :=
  let incSz := pagingPageAlignsz size
  let oldSbrk := i32 (s.mm caller).mmap.sbrk
  match incVmaLimit s caller incSz raw with
  | (ret, s) =>
    if ret < 0 then (-1, 0, s)
    else
      let s := setSymrg s caller rgid ⟨u64 oldSbrk, u64 (i32 (oldSbrk + size))⟩
      let sbrk := (s.mm caller).mmap.sbrk
      let remain := u64 (i32 (oldSbrk + incSz))
      if remain < sbrk then
        (0, oldSbrk, setFreerg s caller
          (enlistVmFreergList (s.mm caller).mmap.vmFreergList ⟨remain, sbrk⟩))
      else (0, oldSbrk, s)

/-- `__alloc` (lines 89–159) for a region id inside the table. -/
def alloc (s : System ι) (caller : ι) (rgid : Fin pagingMaxSymtblSz) (size : ℤ)
    (raw : List ℤ) : Except Fault (ℤ × ℤ × System ι) :=
  match getFreeVmrgArea (s.mm caller).mmap.vmFreergList (pagingPageAlignsz size) with
  | none => .error .diverges
  | some (some rgnode, freerg) =>
    .ok (allocFreerg (setFreerg s caller freerg) caller rgid rgnode raw)
  | some (none, freerg) => .ok (allocSbrk (setFreerg s caller freerg) caller rgid size raw)

/-- An index of `symrgtbl` that the code uses without a test. -/
def symrgIndex (rgid : ℤ) : Except Fault (Fin pagingMaxSymtblSz) :=
  if h : 0 ≤ rgid ∧ rgid.toNat < pagingMaxSymtblSz then .ok ⟨rgid.toNat, h.2⟩
  else .error .outOfBounds

/-- `__alloc` for a region id outside the table, which it does not test: the first write to
`symrgtbl[rgid]` is out of bounds. It is not reached if no free region is found and the break cannot
be raised. -/
def allocOutside (s : System ι) (caller : ι) (size : ℤ) (raw : List ℤ) :
    Except Fault (ℤ × ℤ × System ι) :=
  match getFreeVmrgArea (s.mm caller).mmap.vmFreergList (pagingPageAlignsz size) with
  | none => .error .diverges
  | some (some _, _) => .error .outOfBounds
  | some (none, freerg) =>
    match incVmaLimit (setFreerg s caller freerg) caller (pagingPageAlignsz size) raw with
    | (ret, s) => if ret < 0 then .ok (-1, 0, s) else .error .outOfBounds

/-- `__alloc` for any region id. -/
def allocRgid (s : System ι) (caller : ι) (rgid size : ℤ) (raw : List ℤ) :
    Except Fault (ℤ × ℤ × System ι) :=
  match symrgIndex rgid with
  | .error _ => allocOutside s caller size raw
  | .ok r => alloc s caller r size raw

/-- The loop of `__free` (lines 214–221) from page `pgn` on, with `left` pages to release. -/
def freeLoop (caller : ι) : (left pgn : ℕ) → System ι → ℤ × System ι
  | 0, _, s => (0, s)
  | left + 1, pgn, s =>
    match pgGetpage s caller pgn with
    | (ret, fpn, s) =>
      if ret ≠ 0 then (-1, s)
      else
        let s := { s with mram := memphyPutFreefp s.mram fpn }
        let s := s.setPte caller pgn (clrbit ((s.mm caller).pgd pgn) presentMask)
        let s := s.setFifo caller (clearPgnNode (s.mm caller).fifoPgn pgn)
        freeLoop caller left (pgn + 1) s

/-- The number of pages of a region, as `__free` and `tlbfree_data` compute it. -/
def regionPages (rg : VmRg) : ℕ :=
  ((pagingPageAlignsz (i32 (rg.rgEnd - rg.rgStart))).tdiv pagingPagesz).toNat

/-- `__free` (lines 194–233) for a region id inside the table. -/
def free (s : System ι) (caller : ι) (rgid : Fin pagingMaxSymtblSz) : ℤ × System ι :=
  let temp := (s.mm caller).symrgtbl rgid
  if temp.rgEnd = 0 then (-1, s)
  else
    match freeLoop caller (regionPages temp) (pagingPgn (i32 temp.rgStart)) s with
    | (ret, s) =>
      if ret ≠ 0 then (-1, s)
      else
        let s := setSymrg s caller rgid ⟨0, 0⟩
        (0, setFreerg s caller (enlistVmFreergList (s.mm caller).mmap.vmFreergList temp))

/-! ## Reading and writing -/

/-- `get_symrg_byid` (lines 73–79): `NULL`, a pointer to an element, or the pointer behind the
table that the test `rgid > PAGING_MAX_SYMTBL_SZ` lets through. -/
def getSymrgById (rgid : ℤ) : Except Fault (Option (Fin pagingMaxSymtblSz)) :=
  if rgid < 0 ∨ rgid > pagingMaxSymtblSz then .ok none
  else if h : rgid.toNat < pagingMaxSymtblSz then .ok (some ⟨rgid.toNat, h⟩)
  else .error .outOfBounds

/-- The `int` of a region id or an offset of an instruction. -/
def argInt (arg : BitVec 32) : ℤ := i32 arg.toNat

/-- `int addr = currg->rg_start + offset`. -/
def rgAddr (currg : VmRg) (offset : BitVec 32) : ℤ := i32 (currg.rgStart + offset.toNat)

/-- `addr > currg->rg_end`, compared as `unsigned long`. -/
def OutOfRange (currg : VmRg) (offset : BitVec 32) : Prop :=
  u64 (rgAddr currg offset) > currg.rgEnd

instance (currg : VmRg) (offset : BitVec 32) : Decidable (OutOfRange currg offset) :=
  inferInstanceAs (Decidable (_ > _))

/-- `(fpn << PAGING_ADDR_FPN_LOBIT) + off`. -/
def phyaddr (fpn off : ℤ) : ℤ := fpn * 256 + off

/-- `pg_getval` (lines 366–381): the status, the byte if one is read, the state. -/
def pgGetval (s : System ι) (caller : ι) (addr : ℤ) : ℤ × Option Byte × System ι :=
  match pgGetpage s caller (pagingPgn addr) with
  | (ret, fpn, s) =>
    if ret ≠ 0 then (-1, none, s)
    else (0, (memphyRead s.mram (phyaddr fpn (pagingOffst addr))).2.1, s)

/-- `pg_setval` (lines 389–404). -/
def pgSetval (s : System ι) (caller : ι) (addr : ℤ) (value : Byte) : ℤ × System ι :=
  match pgGetpage s caller (pagingPgn addr) with
  | (ret, fpn, s) =>
    if ret ≠ 0 then (-1, s)
    else (0, { s with mram := (memphyWrite s.mram (phyaddr fpn (pagingOffst addr)) value).2 })

/-- `__read` (lines 414–435): `currg` is dereferenced before it is compared with `NULL`. -/
def read (s : System ι) (caller : ι) (rgid offset : BitVec 32) :
    Except Fault (ℤ × Option Byte × System ι) :=
  match getSymrgById (argInt rgid) with
  | .error e => .error e
  | .ok none => .error .nullPointer
  | .ok (some r) =>
    let currg := (s.mm caller).symrgtbl r
    if currg.rgStart ≥ currg.rgEnd then .ok (-1, none, s)
    else if OutOfRange currg offset then .ok (-1, none, s)
    else
      -- the status of `pg_getval` is ignored
      match pgGetval s caller (rgAddr currg offset) with
      | (_, data, s) => .ok (0, data, s)

/-- `__write` (lines 468–490). -/
def write (s : System ι) (caller : ι) (rgid offset : BitVec 32) (value : Byte) :
    Except Fault (ℤ × System ι) :=
  match getSymrgById (argInt rgid) with
  | .error e => .error e
  | .ok none => .ok (-1, s)
  | .ok (some r) =>
    let currg := (s.mm caller).symrgtbl r
    if OutOfRange currg offset then .ok (-1, s)
    else
      -- the status of `pg_setval` is ignored
      match pgSetval s caller (rgAddr currg offset) value with
      | (_, s) => .ok (0, s)

/-! ## Plain paging entry points -/

/-- `pgalloc` (lines 240–246). -/
def pgalloc (s : System ι) (proc : ι) (size regIndex : BitVec 32) (raw : List ℤ) :
    Except Fault (ℤ × System ι) :=
  match allocRgid s proc (argInt regIndex) (argInt size) raw with
  | .error e => .error e
  | .ok (ret, _, s) => .ok (ret, s)

/-- `pgfree_data` (lines 254–257) with the tests of `__free` (lines 198–203). -/
def pgfreeData (s : System ι) (proc : ι) (regIndex : BitVec 32) :
    Except Fault (ℤ × System ι) :=
  match getSymrgById (argInt regIndex) with
  | .error e => .error e
  | .ok none => .ok (-1, s)
  | .ok (some r) => .ok (free s proc r)

/-- `pgread` (lines 439–458): the status, the byte if one is fetched, the state. -/
def pgread (s : System ι) (proc : ι) (source offset : BitVec 32) :
    Except Fault (ℤ × Option Byte × System ι) :=
  read s proc source offset

/-- `pgwrite` (lines 493–510). -/
def pgwrite (s : System ι) (proc : ι) (data : Byte) (destination offset : BitVec 32) :
    Except Fault (ℤ × System ι) :=
  write s proc destination offset data

end OsSim.Mem
