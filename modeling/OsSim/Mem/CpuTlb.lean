import OsSim.Mem.Region

/-!
# Instructions

Models of `src/cpu-tlb.c`, the entry points of the `CPU_TLB` build, and of the
memory part of `run` (`src/cpu.c`, lines 50–104), in that build and in the plain
`MM_PAGING` build: one instruction of a process is one step of the memory system.
The TLB lock is not part of the state, since an instruction runs as a whole.
-/

namespace OsSim.Mem

variable {ι : Type*} [DecidableEq ι]

/-- The loop of `tlballoc` (lines 98–127) from page `pgn` on, with `left` pages to cache. -/
def tlbCachePages (proc : ι) : (left pgn : ℕ) → System ι → ℤ × System ι
  | 0, _, s => (0, s)
  | left + 1, pgn, s =>
    match pgGetpage s proc pgn with
    | (ret, frmnum, s) =>
      if ret ≠ 0 then (-1, s)
      else if frmnum = -1 then (-1, s)
      else
        tlbCachePages proc left (pgn + 1)
          { s with tlb := tlbCacheWrite s.tlb (s.pidInt proc) pgn frmnum }

/-- `tlballoc` (lines 49–144). -/
def tlballoc (s : System ι) (proc : ι) (size regIndex : BitVec 32) (raw : List ℤ) :
    Except Fault (ℤ × System ι) :=
  match allocRgid s proc (argInt regIndex) (argInt size) raw with
  | .error e => .error e
  | .ok (ret, addr, s) =>
    if ret ≠ 0 then .ok (-1, s)
    else .ok (tlbCachePages proc (pagingPageAlignszU size / pagingPagesz) (pagingPgn addr) s)

/-- The loop of `tlbfree_data` (lines 182–188) from page `pgn` on. -/
def tlbFreePages (pid : ℤ) : (left pgn : ℕ) → Tlb → Tlb
  | 0, _, tlb => tlb
  | left + 1, pgn, tlb => tlbFreePages pid left (pgn + 1) (tlbCacheInvalidate tlb pid pgn).2

/-- `tlbfree_data` (lines 151–208): the status of `pgfree_data` is ignored. -/
def tlbfreeData (s : System ι) (proc : ι) (regIndex : BitVec 32) :
    Except Fault (ℤ × System ι) :=
  match getSymrgById (argInt regIndex) with
  | .error e => .error e
  | .ok none => .ok (-1, s)
  | .ok (some r) =>
    let currg := (s.mm proc).symrgtbl r
    let s := { s with
      tlb := tlbFreePages (s.pidInt proc) (regionPages currg) (pagingPgn (i32 currg.rgStart)) s.tlb }
    .ok (0, (free s proc r).2)

/-- The frame of page `pgn` for `tlbread` (lines 253–299) and `tlbwrite` (lines 366–422): from the
TLB, else from the page table, and then the TLB is updated; `none` is a page fault. -/
def tlbFrame (s : System ι) (proc : ι) (pgn : ℕ) : Option ℤ × System ι :=
  let frmnum := tlbCacheRead s.tlb (s.pidInt proc) pgn
  if frmnum < 0 then
    match pgGetpage s proc pgn with
    | (ret, frmnum, s) =>
      if ret ≠ 0 ∨ frmnum < 0 then (none, s)
      else (some frmnum, { s with tlb := tlbCacheWrite s.tlb (s.pidInt proc) pgn frmnum })
  else (some frmnum, s)

/-- `tlbread` (lines 217–318): the status, the byte if one is fetched, the state. -/
def tlbread (s : System ι) (proc : ι) (source offset : BitVec 32) :
    Except Fault (ℤ × Option Byte × System ι) :=
  match getSymrgById (argInt source) with
  | .error e => .error e
  | .ok none => .ok (-1, none, s)
  | .ok (some r) =>
    let currg := (s.mm proc).symrgtbl r
    if OutOfRange currg offset then .ok (-1, none, s)
    else
      let addr := rgAddr currg offset
      match tlbFrame s proc (pagingPgn addr) with
      | (none, s) => .ok (-1, none, s)
      | (some frmnum, s) =>
        .ok (0, (memphyRead s.mram (phyaddr frmnum (pagingOffst addr))).2.1, s)

/-- `tlbwrite` (lines 326–437). -/
def tlbwrite (s : System ι) (proc : ι) (data : Byte) (destination offset : BitVec 32) :
    Except Fault (ℤ × System ι) :=
  match getSymrgById (argInt destination) with
  | .error e => .error e
  | .ok none => .ok (-1, s)
  | .ok (some r) =>
    let currg := (s.mm proc).symrgtbl r
    if OutOfRange currg offset then .ok (-1, s)
    else
      let addr := rgAddr currg offset
      match tlbFrame s proc (pagingPgn addr) with
      | (none, s) => .ok (-1, s)
      | (some frmnum, s) =>
        .ok (0, { s with
          mram := (memphyWrite s.mram (phyaddr frmnum (pagingOffst addr)) data).2 })

/-! ## `run` -/

/-- `enum ins_opcode_t`. -/
inductive InsOpcode where
  | CALC
  | ALLOC
  | FREE
  | READ
  | WRITE
  deriving DecidableEq, Repr

/-- `struct inst_t`. -/
structure Inst where
  opcode : InsOpcode
  arg0 : BitVec 32 := 0
  arg1 : BitVec 32 := 0
  arg2 : BitVec 32 := 0
  deriving DecidableEq, Repr

/-- What an instruction returns: its status and the byte that a `READ` fetched. -/
structure Outcome where
  stat : ℤ
  data : Option Byte := none
  deriving DecidableEq

/-- The `switch` of `run` (lines 59–102) in the `CPU_TLB` build. -/
def run (s : System ι) (proc : ι) (ins : Inst) (raw : List ℤ) :
    Except Fault (Outcome × System ι) :=
  match ins.opcode with
  | .CALC => .ok (⟨0, none⟩, s)
  | .ALLOC => (tlballoc s proc ins.arg0 ins.arg1 raw).map fun r => (⟨r.1, none⟩, r.2)
  | .FREE => (tlbfreeData s proc ins.arg0).map fun r => (⟨r.1, none⟩, r.2)
  | .READ => (tlbread s proc ins.arg0 ins.arg1).map fun r => (⟨r.1, r.2.1⟩, r.2.2)
  | .WRITE =>
    (tlbwrite s proc (ins.arg0.setWidth 8) ins.arg1 ins.arg2).map fun r => (⟨r.1, none⟩, r.2)

/-- The `switch` of `run` in the `MM_PAGING` build. That build has no TLB: what `alloc_pages_range`
does to the one of the state has no effect. -/
def runPaging (s : System ι) (proc : ι) (ins : Inst) (raw : List ℤ) :
    Except Fault (Outcome × System ι) :=
  match ins.opcode with
  | .CALC => .ok (⟨0, none⟩, s)
  | .ALLOC => (pgalloc s proc ins.arg0 ins.arg1 raw).map fun r => (⟨r.1, none⟩, r.2)
  | .FREE => (pgfreeData s proc ins.arg0).map fun r => (⟨r.1, none⟩, r.2)
  | .READ => (pgread s proc ins.arg0 ins.arg1).map fun r => (⟨r.1, r.2.1⟩, r.2.2)
  | .WRITE =>
    (pgwrite s proc (ins.arg0.setWidth 8) ins.arg1 ins.arg2).map fun r => (⟨r.1, none⟩, r.2)

/-- The two builds that page memory. -/
inductive Build
  | cpuTlb
  | mmPaging
  deriving DecidableEq

/-- `run` in a build. -/
def Build.run (b : Build) (s : System ι) (proc : ι) (ins : Inst) (raw : List ℤ) :
    Except Fault (Outcome × System ι) :=
  match b with
  | .cpuTlb => Mem.run s proc ins raw
  | .mmPaging => runPaging s proc ins raw

end OsSim.Mem
