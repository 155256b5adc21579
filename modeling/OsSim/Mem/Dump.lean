import OsSim.Lib.Printf
import OsSim.Mem.Transparency

/-!
# The dumps

What the simulator prints of the memory: `MEMPHY_dump` (`mm-memphy.c`, lines
170–185), `TLBMEMPHY_dump` and `print_entry` (`cpu-tlbcache.c`, 29–36 and 213–236)
and `print_pgtbl` (`mm.c`, 401–425). `BYTE` is a signed `char`.

Results:
* `hasLine_memphyDump`, `hasLine_tlbMemphyDump`, `hasLine_printPgtbl`: which lines are
  printed.
* `tlbDump_of_run`: in every run, the lines of the TLB agree with those of the page
  tables.
* `dumps_of_run`: the bytes that a process has stored are found by means of the dumps of
  its page table and of RAM.
-/

namespace OsSim.Mem

open Printf

variable {ι : Type*} [DecidableEq ι]

/-! ## What is printed -/

/-- `printf("BYTE %08x: %d\n", i, mp->storage[i])`, without the end of the line. -/
def byteLine (i : ℕ) (v : Byte) : List Char :=
  "BYTE ".toList ++ (padded 16 8 i ++ ':' :: ' ' :: decimal v.toInt)

/-- `MEMPHY_dump`. -/
def memphyDump (mp : Memphy) : List Char :=
  lines ("MEMPHY_DUMP:".toList ::
    (((List.range mp.maxsz.toNat).filter fun i => mp.storage (i : ℕ) ≠ 0).map
      fun i => byteLine i (mp.storage (i : ℕ))) ++ ["--------------".toList])

/-- What `print_entry` prints for these fields. -/
def entryLine (valid pid pgn frmnum : ℕ) : List Char :=
  padded 10 1 valid ++ ' ' :: (padded 10 5 pid ++ ' ' :: (padded 10 5 pgn ++ ' ' ::
    padded 10 5 frmnum))

/-- `print_entry`. -/
def printEntry (entry : TlbEntry) : List Char :=
  entryLine (tlbValid entry).toNat (tlbPid entry).toNat (tlbTag entry).toNat
    (tlbFrmnum entry).toNat

/-- `TLBMEMPHY_dump`. -/
def tlbMemphyDump (tlb : Tlb) : List Char :=
  lines ((tlb.entries.filter fun entry => tlbValid entry != 0).map printEntry)

/-- `printf("%08ld: %08x\n", pgit * sizeof(uint32_t), pgd[pgit])`, without the end of the line. -/
def pteLine (pgit : ℕ) (pte : Pte) : List Char :=
  padded 10 8 (pgit * 4) ++ ':' :: ' ' :: padded 16 8 pte.toNat

/-- The line with which `print_pgtbl` begins. -/
def pgtblHeader (start stop : BitVec 32) : List Char :=
  "print_pgtbl: ".toList ++ (decimal start.toInt ++ " - ".toList ++ decimal stop.toInt)

/-- `print_pgtbl`. -/
def printPgtbl (mm : Mm) (start stop : BitVec 32) : List Char :=
  let stop := if stop = -1 then BitVec.ofNat 32 mm.mmap.vmEnd else stop
  let pgnStart := pagingPgn start.toNat
  let pgnEnd := pagingPgn stop.toNat
  lines (pgtblHeader start stop ::
    (List.range' pgnStart (pgnEnd - pgnStart)).map fun pgit => pteLine pgit (mm.pgd pgit))

/-! ## Lines -/

theorem not_mem_dec {c : Char} (hc : ∀ d < 16, c ≠ Nat.digitChar d) (w n : ℕ) :
    c ∉ padded 10 w n := not_mem_padded (by decide) (by decide) hc w n

theorem not_mem_hex {c : Char} (hc : ∀ d < 16, c ≠ Nat.digitChar d) (w n : ℕ) :
    c ∉ padded 16 w n := not_mem_padded (by decide) (by decide) hc w n

theorem newline_ne : ∀ d < 16, '\n' ≠ Nat.digitChar d := by decide
theorem space_ne : ∀ d < 16, ' ' ≠ Nat.digitChar d := by decide
theorem colon_ne : ∀ d < 16, ':' ≠ Nat.digitChar d := by decide

theorem byteLine_inj {i j : ℕ} {v w : Byte} (h : byteLine i v = byteLine j w) : i = j ∧ v = w := by
  obtain ⟨hi, hv⟩ := append_sep_inj (not_mem_hex colon_ne 8 i) (not_mem_hex colon_ne 8 j)
    (List.append_cancel_left h)
  exact ⟨padded_inj (by decide) (by decide) hi,
    BitVec.eq_of_toInt_eq (decimal_inj (List.cons_inj_right ' ' |>.mp hv))⟩

theorem entryLine_inj {valid valid' pid pid' pgn pgn' frmnum frmnum' : ℕ}
    (h : entryLine valid pid pgn frmnum = entryLine valid' pid' pgn' frmnum') :
    valid = valid' ∧ pid = pid' ∧ pgn = pgn' ∧ frmnum = frmnum' := by
  have hsp := fun w n => not_mem_dec space_ne w n
  obtain ⟨h1, h⟩ := append_sep_inj (hsp 1 valid) (hsp 1 valid') h
  obtain ⟨h2, h⟩ := append_sep_inj (hsp 5 pid) (hsp 5 pid') h
  obtain ⟨h3, h4⟩ := append_sep_inj (hsp 5 pgn) (hsp 5 pgn') h
  have hinj : ∀ w m n, padded 10 w m = padded 10 w n → m = n :=
    fun w m n => padded_inj (by decide) (by decide)
  exact ⟨hinj _ _ _ h1, hinj _ _ _ h2, hinj _ _ _ h3, hinj _ _ _ h4⟩

theorem pteLine_inj {pgn pgn' : ℕ} {pte pte' : Pte} (h : pteLine pgn pte = pteLine pgn' pte') :
    pgn = pgn' ∧ pte = pte' := by
  obtain ⟨h1, h2⟩ := append_sep_inj (not_mem_dec colon_ne 8 _) (not_mem_dec colon_ne 8 _) h
  have hpgn := padded_inj (by decide) (by decide) h1
  have hpte := padded_inj (by decide) (by decide) (List.cons_inj_right ' ' |>.mp h2)
  exact ⟨by omega, BitVec.eq_of_toNat_eq hpte⟩

theorem newline_not_mem_byteLine (i : ℕ) (v : Byte) : '\n' ∉ byteLine i v := by
  simp [byteLine, not_mem_hex newline_ne, not_mem_decimal (by decide) newline_ne]

theorem newline_not_mem_entryLine (valid pid pgn frmnum : ℕ) :
    '\n' ∉ entryLine valid pid pgn frmnum := by
  simp [entryLine, not_mem_dec newline_ne]

theorem newline_not_mem_pteLine (pgn : ℕ) (pte : Pte) : '\n' ∉ pteLine pgn pte := by
  simp [pteLine, not_mem_dec newline_ne, not_mem_hex newline_ne]

theorem newline_not_mem_pgtblHeader (start stop : BitVec 32) : '\n' ∉ pgtblHeader start stop := by
  have hdec : ∀ v, '\n' ∉ decimal v := not_mem_decimal (by decide) newline_ne
  intro hmem
  obtain h | h := List.mem_append.mp hmem
  · exact absurd h (by decide)
  obtain h | h := List.mem_append.mp h
  · obtain h | h := List.mem_append.mp h
    · exact hdec _ h
    · exact absurd h (by decide)
  · exact hdec _ h

theorem newline_not_mem_entries (entries : List TlbEntry) :
    ∀ l ∈ entries.map printEntry, '\n' ∉ l := by
  intro l hl
  obtain ⟨e, -, rfl⟩ := List.mem_map.mp hl
  exact newline_not_mem_entryLine _ _ _ _

theorem newline_not_mem_ptes (start stop : BitVec 32) (pgns : List ℕ) (pgd : ℕ → Pte) :
    ∀ l ∈ pgtblHeader start stop :: pgns.map fun pgit => pteLine pgit (pgd pgit), '\n' ∉ l := by
  intro l hl
  rw [List.mem_cons, List.mem_map] at hl
  obtain rfl | ⟨k, -, rfl⟩ := hl
  · exact newline_not_mem_pgtblHeader _ _
  · exact newline_not_mem_pteLine k _

/-- `MEMPHY_dump` prints the bytes that are not 0, each with its address. -/
theorem hasLine_memphyDump {mp : Memphy} {i : ℕ} {v : Byte} :
    HasLine (byteLine i v) (memphyDump mp) ↔ (i : ℤ) < mp.maxsz ∧ v ≠ 0 ∧ mp.storage i = v := by
  rw [memphyDump, hasLine_lines]
  · simp only [List.mem_append, List.mem_cons, List.mem_map, List.mem_filter, List.mem_range,
      List.not_mem_nil, or_false, decide_eq_true_iff]
    constructor
    · rintro ((h | ⟨j, ⟨hj, hne⟩, h⟩) | h)
      · simp [byteLine] at h
      · obtain ⟨rfl, rfl⟩ := byteLine_inj h
        exact ⟨by omega, hne, rfl⟩
      · simp [byteLine] at h
    · rintro ⟨hi, hne, rfl⟩
      exact .inl (.inr ⟨i, ⟨by omega, hne⟩, rfl⟩)
  · intro l hl
    simp only [List.mem_append, List.mem_cons, List.mem_map, List.not_mem_nil, or_false] at hl
    obtain (rfl | ⟨j, -, rfl⟩) | rfl := hl
    · decide
    · exact newline_not_mem_byteLine j _
    · decide

theorem tlbValid_of_valid {e : TlbEntry} (h : e.Valid) : (tlbValid e).toNat = 1 := by
  have hlt : (tlbValid e).toNat < 2 := by
    unfold tlbValid
    rw [tlbEntryValidMask_eq, BitField.getval_genmask_toNat (by norm_num) (by norm_num)]
    omega
  have hne : (tlbValid e).toNat ≠ 0 := fun h0 => h (BitVec.eq_of_toNat_eq h0)
  omega

/-- `TLBMEMPHY_dump` prints what `tlb_cache_read` finds. -/
theorem hasLine_tlbMemphyDump {tlb : Tlb} (hu : TlbUnique tlb) {pid pgn frmnum : ℕ}
    (hpid : pid < 2 ^ 64) (hpgn : pgn < 2 ^ 64) :
    HasLine (entryLine 1 pid pgn frmnum) (tlbMemphyDump tlb) ↔
      tlbCacheRead tlb pid pgn = frmnum := by
  have hkey : ∀ e : TlbEntry,
      e.key = tlbKey pid pgn ↔ (tlbPid e).toNat = pid ∧ (tlbTag e).toNat = pgn := by
    intro e
    rw [TlbEntry.key, tlbKey, Prod.mk.injEq, ← BitVec.toNat_inj, ← BitVec.toNat_inj,
      BitVec.toNat_ofInt, BitVec.toNat_ofInt]
    omega
  rw [tlbMemphyDump, hasLine_lines]
  · simp only [List.mem_map, List.mem_filter, bne_iff_ne]
    constructor
    · rintro ⟨e, ⟨he, hv⟩, h⟩
      obtain ⟨-, hp, hg, rfl⟩ := entryLine_inj h
      have hk := (hkey e).mpr ⟨hp, hg⟩
      have hpos : 0 ≤ tlbCacheRead tlb pid pgn := by
        by_contra hneg
        exact tlbCacheRead_miss (not_le.mp hneg) e he hv hk
      obtain ⟨e', he', hv', hk', hread⟩ := tlbCacheRead_hit hpos
      obtain ⟨i, hi⟩ := List.mem_iff_getElem?.mp he
      obtain ⟨j, hj⟩ := List.mem_iff_getElem?.mp he'
      obtain rfl := hu i j e e' hi hj hv hv' (hk.trans hk'.symm)
      rw [hread, Option.some.inj (hi.symm.trans hj)]
    · intro hread
      obtain ⟨e, he, hv, hk, hfrm⟩ := tlbCacheRead_hit (by omega : 0 ≤ tlbCacheRead tlb pid pgn)
      obtain ⟨hp, hg⟩ := (hkey e).mp hk
      refine ⟨e, ⟨he, hv⟩, ?_⟩
      rw [printEntry, tlbValid_of_valid hv, hp, hg]
      congr 1
      omega
  · exact newline_not_mem_entries _

theorem pgtblHeader_ne (start stop : BitVec 32) (pgn : ℕ) (pte : Pte) :
    pgtblHeader start stop ≠ pteLine pgn pte := by
  intro h
  have h' : "print_pgtbl".toList ++ ':' :: ' ' :: _ = pteLine pgn pte := h
  obtain ⟨heq, -⟩ := append_sep_inj (by decide) (not_mem_dec colon_ne 8 _) h'
  have hp : 'p' ∈ padded 10 8 (pgn * 4) := heq ▸ by decide
  exact not_mem_dec (by decide) 8 _ hp

/-- `print_pgtbl(proc, 0, -1)` prints the entries of the pages below the break, which must not be
`2^22`: `PAGING_PGN` of this address is 0. -/
theorem hasLine_printPgtbl {mm : Mm} (hend : mm.mmap.vmEnd < 2 ^ 22) {pgn : ℕ} {pte : Pte} :
    HasLine (pteLine pgn pte) (printPgtbl mm 0 (-1)) ↔
      pgn < mm.mmap.vmEnd / 256 ∧ mm.pgd pgn = pte := by
  have hstart : pagingPgn ((0 : BitVec 32).toNat : ℤ) = 0 := by decide
  have hstop : pagingPgn ((BitVec.ofNat 32 mm.mmap.vmEnd).toNat : ℤ) = mm.mmap.vmEnd / 256 := by
    rw [pagingPgn_eq, BitVec.toNat_ofNat]
    omega
  rw [printPgtbl, if_pos rfl]
  simp only [hstart, hstop]
  rw [hasLine_lines]
  · rw [List.mem_cons, List.mem_map]
    constructor
    · rintro (h | ⟨k, hk, h⟩)
      · exact absurd h.symm (pgtblHeader_ne 0 _ pgn pte)
      · obtain ⟨rfl, rfl⟩ := pteLine_inj h
        rw [List.mem_range'_1] at hk
        exact ⟨by omega, rfl⟩
    · rintro ⟨hlt, rfl⟩
      exact .inr ⟨pgn, by rw [List.mem_range'_1]; omega, rfl⟩
  · exact newline_not_mem_ptes _ _ _ _

/-! ## Runs -/

omit [DecidableEq ι] in
/-- The page table dump has one line for a page below the break. -/
theorem RunInv.hasLine_printPgtbl {s : System ι} (h : RunInv s) {p : ι}
    (hbrk : (s.mm p).mmap.sbrk < 2 ^ 22) {pgn : ℕ} (hpgn : pgn * 256 < (s.mm p).mmap.sbrk)
    (pte : Pte) :
    HasLine (pteLine pgn pte) (printPgtbl (s.mm p) 0 (-1)) ↔ pte = (s.mm p).pgd pgn := by
  have hmm := (h.proc p).mm
  have haligned := hmm.aligned
  rw [Mem.hasLine_printPgtbl (by rw [hmm.vmEnd]; exact hbrk), hmm.vmEnd]
  constructor
  · rintro ⟨-, rfl⟩
    rfl
  · rintro rfl
    exact ⟨by omega, rfl⟩

/-- The line of a page in the page table dump of a process has the frame `frmnum`. -/
structure DumpsAgree (s : System ι) (p : ι) (pgn frmnum : ℕ) : Prop where
  resident : Resident ((s.mm p).pgd pgn)
  fpn : pteFpn ((s.mm p).pgd pgn) = frmnum
  printed : (s.mm p).mmap.sbrk < 2 ^ 22 → ∀ pte,
    HasLine (pteLine pgn pte) (printPgtbl (s.mm p) 0 (-1)) ↔ pte = (s.mm p).pgd pgn

/-- The dumps of the TLB and of the page table of `p` can be cut into lines, and the lines into
numbers, in one way only. -/
structure Legible (s : System ι) (p : ι) : Prop where
  tlb : ∃! ls, (∀ l ∈ ls, '\n' ∉ l) ∧ lines ls = tlbMemphyDump s.tlb
  entry : ∀ valid pid pgn frmnum valid' pid' pgn' frmnum',
    entryLine valid pid pgn frmnum = entryLine valid' pid' pgn' frmnum' →
      valid = valid' ∧ pid = pid' ∧ pgn = pgn' ∧ frmnum = frmnum'
  pgtbl : ∃! ls, (∀ l ∈ ls, '\n' ∉ l) ∧ lines ls = printPgtbl (s.mm p) 0 (-1)
  pte : ∀ pgn pte pgn' pte', pteLine pgn pte = pteLine pgn' pte' → pgn = pgn' ∧ pte = pte'

omit [DecidableEq ι] in
theorem legible (s : System ι) (p : ι) : Legible s p where
  tlb := existsUnique_lines (newline_not_mem_entries _)
  entry _ _ _ _ _ _ _ _ := entryLine_inj
  pgtbl := existsUnique_lines (newline_not_mem_ptes _ _ _ _)
  pte _ _ _ _ := pteLine_inj

/-- In every state of every run in which `ALLOC`s ask for 1 to `2^22` bytes and every break stays
within `2^22`: the TLB dump has a line for a page of a process exactly if `tlb_cache_read` finds
the page, and then the page table dump of the process has the frame; and the dumps can be read in
one way only. -/
theorem tlbDump_of_run {c : Config ι} {tr : List (Label ι)} {s : System ι}
    (h : ((memLts c).guard BreaksOk).Run tr s) (p : ι) {pgn : ℕ} (hpgn : pgn < 2 ^ 14)
    (frmnum : ℕ) :
    (HasLine (entryLine 1 (s.pid p).toNat pgn frmnum) (tlbMemphyDump s.tlb) ↔
      tlbCacheRead s.tlb (s.pidInt p) pgn = frmnum) ∧
    (HasLine (entryLine 1 (s.pid p).toNat pgn frmnum) (tlbMemphyDump s.tlb) →
      DumpsAgree s p pgn frmnum) ∧ Legible s p := by
  have hinv := runInv_of_run h
  have hpid := hinv.tlb.pid_lt p
  have hline : HasLine (entryLine 1 (s.pid p).toNat pgn frmnum) (tlbMemphyDump s.tlb) ↔
      tlbCacheRead s.tlb (s.pidInt p) pgn = frmnum := by
    rw [hasLine_tlbMemphyDump hinv.tlb.unique (by omega) (by omega), pidInt_eq hpid]
  refine ⟨hline, fun hl => ?_, legible s p⟩
  have hhit := hline.mp hl
  obtain ⟨e, he, hv, hk, hfrm⟩ :=
    tlbCacheRead_hit (by omega : 0 ≤ tlbCacheRead s.tlb (s.pidInt p) pgn)
  obtain ⟨hp, hg⟩ := (key_eq_tlbKey hpid hpgn e).mp hk
  obtain ⟨hres, hfpn⟩ := hinv.tlb.coherent e he hv p hp
  rw [hg] at hres hfpn
  refine ⟨hres, by omega, fun hbrk pte => ?_⟩
  refine hinv.hasLine_printPgtbl hbrk ?_ pte
  by_contra hge
  exact (hinv.proc p).mm.above_absent pgn (by omega) hres.1

/-- The page of a region is evicted and fetched again; the TLB dump has its line. -/
theorem tlbDump_evicted : ∃ s,
    ((memLts (Config.two 256 256)).guard BreaksOk).Run
      [⟨0, ⟨.ALLOC, 256, 0, 0⟩, [], ⟨0, none⟩⟩, ⟨0, ⟨.ALLOC, 256, 1, 0⟩, [], ⟨0, none⟩⟩,
        ⟨0, ⟨.FREE, 1, 0, 0⟩, [], ⟨0, none⟩⟩, ⟨0, ⟨.READ, 0, 0, 0⟩, [], ⟨0, some 0⟩⟩] s ∧
      HasLine (entryLine 1 (s.pid 0).toNat 0 0) (tlbMemphyDump s.tlb) ∧ DumpsAgree s 0 0 0 ∧
      Legible s 0 := by
  obtain ⟨s, hrun, hhit⟩ := exists_run_of_runAll (Config.two 256 256) BreaksOk
    [⟨0, ⟨.ALLOC, 256, 0, 0⟩, [], ⟨0, none⟩⟩, ⟨0, ⟨.ALLOC, 256, 1, 0⟩, [], ⟨0, none⟩⟩,
      ⟨0, ⟨.FREE, 1, 0, 0⟩, [], ⟨0, none⟩⟩, ⟨0, ⟨.READ, 0, 0, 0⟩, [], ⟨0, some 0⟩⟩]
    (fun s => tlbCacheRead s.tlb (s.pidInt 0) 0 = 0) (by decide +kernel)
  obtain ⟨hline, hagree, hlegible⟩ := tlbDump_of_run hrun 0 (show 0 < 2 ^ 14 by decide) 0
  have hl := hline.mpr (of_decide_eq_true hhit)
  exact ⟨s, hrun, hl, hagree hl, hlegible⟩

/-- What the dumps of the page table of `p` and of RAM say about a byte `b` at the address `a`. -/
structure DumpsByte (s : System ι) (p : ι) (a : ℕ) (b : Byte) : Prop where
  page : (s.mm p).mmap.sbrk < 2 ^ 22 → ∀ pte,
    HasLine (pteLine (a / 256) pte) (printPgtbl (s.mm p) 0 (-1)) ↔ pte = (s.mm p).pgd (a / 256)
  byte : Resident ((s.mm p).pgd (a / 256)) → ∀ v,
    HasLine (byteLine ((pteFpn ((s.mm p).pgd (a / 256))).toNat * 256 + a % 256) v)
      (memphyDump s.mram) ↔ v = b ∧ b ≠ 0

/-- In every run of disciplined programs in which each `ALLOC` finds its frames without losing
track of any: a byte that a process has stored in a live region is found in the dumps. The line
of its page says in which frame the page is, and the line of RAM for its address has the byte; there
is no such line exactly if the byte is 0. -/
theorem dumps_of_run {c : Config ι} (hram : numfp c.ramSz ≤ 8192) {tr : List (Label ι)}
    {s : System ι} (h : ((memLts c).guard TransparentOk).Run tr s) {p : ι}
    {r : Fin pagingMaxSymtblSz} {off : ℕ} {b : Byte} (hstored : lastStored tr p r off = some b)
    (hlt : off < ((s.mm p).symrgtbl r).rgEnd - ((s.mm p).symrgtbl r).rgStart) :
    DumpsByte s p (((s.mm p).symrgtbl r).rgStart + off) b := by
  have hinv := storedInv_of_run hram h
  have hbase := hinv.owned.base
  have hbelow := ((hbase.proc p).mm.live r).bound
  generalize ha : ((s.mm p).symrgtbl r).rgStart + off = a
  refine ⟨fun hbrk => hbase.hasLine_printPgtbl hbrk (by omega), fun hres v => ?_⟩
  have hbyte := hinv.holds p r off b hstored hlt
  rw [ha, System.byte, page_of_resident hres, Option.map_some] at hbyte
  have hcell := hbyte _ rfl
  have hvalid : Loc.Valid _ _ (.ram (pteFpn ((s.mm p).pgd (a / 256)))) :=
    hinv.owned.owned.within.used (p, a / 256) _ (pteLoc_of_resident hres)
  obtain ⟨h0, h1⟩ := hvalid
  generalize pteFpn ((s.mm p).pgd (a / 256)) = fpn at hcell h0 h1 ⊢
  have haddr : ((fpn.toNat * 256 + a % 256 : ℕ) : ℤ) = fpn * 256 + (a % 256 : ℕ) := by omega
  rw [Memphy.frame] at hcell
  rw [hasLine_memphyDump, haddr, hcell, hinv.owned.ramSize]
  have hsize := maxsz_pos_of_numfp (show 0 < numfp c.ramSz by omega)
  have hlt' : fpn * 256 + (a % 256 : ℕ) < c.ramSz := by
    rw [numfp, Int.tdiv_eq_ediv_of_nonneg hsize.le, show (pagingPagesz : ℤ) = 256 from rfl] at h1
    omega
  constructor
  · rintro ⟨-, hne, rfl⟩
    exact ⟨rfl, hne⟩
  · rintro ⟨rfl, hne⟩
    exact ⟨hlt', hne, rfl⟩

/-- A byte is stored in a page that is evicted and fetched again. -/
theorem dumps_evicted : ∃ s,
    ((memLts (Config.two 256 256)).guard TransparentOk).Run
      [⟨0, ⟨.ALLOC, 256, 0, 0⟩, [], ⟨0, none⟩⟩, ⟨0, ⟨.WRITE, 7, 0, 5⟩, [], ⟨0, none⟩⟩,
        ⟨0, ⟨.ALLOC, 256, 1, 0⟩, [], ⟨0, none⟩⟩, ⟨0, ⟨.FREE, 1, 0, 0⟩, [], ⟨0, none⟩⟩,
        ⟨0, ⟨.READ, 0, 5, 0⟩, [], ⟨0, some 7⟩⟩] s ∧
      Resident ((s.mm 0).pgd 0) ∧ DumpsByte s 0 (((s.mm 0).symrgtbl 0).rgStart + 5) 7 := by
  obtain ⟨s, hrun, hs⟩ := exists_run_of_runAll (Config.two 256 256) TransparentOk
    [⟨0, ⟨.ALLOC, 256, 0, 0⟩, [], ⟨0, none⟩⟩, ⟨0, ⟨.WRITE, 7, 0, 5⟩, [], ⟨0, none⟩⟩,
      ⟨0, ⟨.ALLOC, 256, 1, 0⟩, [], ⟨0, none⟩⟩, ⟨0, ⟨.FREE, 1, 0, 0⟩, [], ⟨0, none⟩⟩,
      ⟨0, ⟨.READ, 0, 5, 0⟩, [], ⟨0, some 7⟩⟩]
    (fun s => decide (Resident ((s.mm 0).pgd 0)) &&
      decide (5 < ((s.mm 0).symrgtbl 0).rgEnd - ((s.mm 0).symrgtbl 0).rgStart))
    (by decide +kernel)
  obtain ⟨hres, hlt⟩ := Bool.and_eq_true_iff.mp hs
  exact ⟨s, hrun, of_decide_eq_true hres,
    dumps_of_run (by decide) hrun (b := 7) (by decide) (of_decide_eq_true hlt)⟩

end OsSim.Mem
