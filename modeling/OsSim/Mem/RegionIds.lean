import OsSim.Mem.Defined
import OsSim.Mem.PlainRuns

/-!
# Region ids outside the table

The region ids of an instruction are `uint32_t`, the functions take an `int`, and
`symrgtbl` has 30 elements. `__alloc` does not test the id. `get_symrg_byid` and
`__free` let id 30 through, which is behind the table, and `__read` compares the
pointer with `NULL` after it has read through it.

Results:
* `refuses_iff`: for each instruction and either build, when an id outside the
  table is refused.
-/

namespace OsSim.Mem

variable {ι : Type*} [DecidableEq ι]

/-! ## What is asked for -/

/-- The region id of an instruction. -/
def Inst.regionId (ins : Inst) : Option (BitVec 32) :=
  match ins.opcode with
  | .CALC => none
  | .ALLOC => some ins.arg1
  | .FREE => some ins.arg0
  | .READ => some ins.arg0
  | .WRITE => some ins.arg1

/-- The free lists of the devices, and the regions, page tables and lists of all processes are the
same. -/
structure Untouched (s t : System ι) : Prop where
  ram : t.mram.freeFpList = s.mram.freeFpList
  swp : ∀ i, (t.mswp i).freeFpList = (s.mswp i).freeFpList
  freerg : ∀ p, (t.mm p).mmap.vmFreergList = (s.mm p).mmap.vmFreergList
  symrgtbl : ∀ p, (t.mm p).symrgtbl = (s.mm p).symrgtbl
  pgd : ∀ p, (t.mm p).pgd = (s.mm p).pgd
  fifoPgn : ∀ p, (t.mm p).fifoPgn = (s.mm p).fifoPgn

omit [DecidableEq ι] in
theorem Untouched.refl (s : System ι) : Untouched s s :=
  ⟨rfl, fun _ => rfl, fun _ => rfl, fun _ => rfl, fun _ => rfl, fun _ => rfl⟩

/-- The instruction returns an error, without a fault and without a change. -/
def Refuses (s : System ι) (res : Except Fault (Outcome × System ι)) : Prop :=
  ∃ o t, res = .ok (o, t) ∧ o.stat ≠ 0 ∧ Untouched s t

/-- `__alloc` of `size` bytes fails before it changes anything: no free region fits, and either the
break cannot be raised, or there is no page to evict and RAM has not enough free frames. -/
def NoRoom (s : System ι) (p : ι) (size : ℤ) : Prop :=
  ¬ Fitting (s.mm p) size ∧
    ((∀ n : ℕ, size = n → 1 ≤ n → 2 ^ 31 ≤ (s.mm p).mmap.sbrk + alignedSize n) ∨
      ((s.mm p).fifoPgn = [] ∧ s.mram.avail.length < alignedSize size.toNat / 256))

/-- When a region id outside the table is refused. `__alloc` walks through the list of free regions
first. -/
def RefusesId (b : Build) (s : System ι) (p : ι) (ins : Inst) (rgid : BitVec 32) : Prop :=
  match ins.opcode with
  | .CALC => False
  | .ALLOC => (s.mm p).mmap.dangling = false ∧ NoRoom s p (argInt ins.arg0)
  | .FREE => pagingMaxSymtblSz < rgid.toNat
  | .READ => b = .cpuTlb ∧ pagingMaxSymtblSz < rgid.toNat
  | .WRITE => pagingMaxSymtblSz < rgid.toNat

/-! ## The lookups -/

theorem symrgIndex_outside {rgid : BitVec 32} (h : pagingMaxSymtblSz ≤ rgid.toNat) :
    symrgIndex (argInt rgid) = .error .outOfBounds := by
  refine dif_neg fun h0 => ?_
  have hlt := h0.2
  rw [argInt_of_nonneg h0.1, Int.toNat_natCast] at hlt
  exact absurd h (not_le.mpr hlt)

/-- Id 30 is let through, the others are not. -/
theorem getSymrgById_outside {rgid : BitVec 32} (h : pagingMaxSymtblSz ≤ rgid.toNat) :
    getSymrgById (argInt rgid) =
      if pagingMaxSymtblSz < rgid.toNat then .ok none else .error .outOfBounds := by
  have hrange := argInt_range rgid
  unfold getSymrgById
  by_cases hneg : argInt rgid < 0
  · have hbig : ¬ rgid.toNat < 2 ^ 31 := fun hlt => by
      rw [argInt_eq hlt] at hneg
      omega
    rw [if_pos (.inl hneg), if_pos (by unfold pagingMaxSymtblSz; omega)]
  · have heq := argInt_of_nonneg (not_lt.mp hneg)
    rw [heq]
    by_cases hgt : pagingMaxSymtblSz < rgid.toNat
    · rw [if_pos (.inr (by exact_mod_cast hgt)), if_pos hgt]
    · have hle : ¬ ((rgid.toNat : ℤ) < 0 ∨ (pagingMaxSymtblSz : ℤ) < rgid.toNat) := by omega
      rw [if_neg hle, if_neg hgt, dif_neg (by simpa using h)]

/-! ## Frames that cannot be found -/

/-- Without pages to evict, frames that were taken in vain are put back in their order. -/
theorem allocPagesRange_nil (p : ι) (raw : List ℤ) (n : ℕ) (held : List ℤ) (s : System ι)
    (hnil : (s.mm p).fifoPgn = []) (hlt : s.mram.avail.length < n) :
    ∃ frames mram, allocPagesRange p raw n held s = (-3000, frames, { s with mram := mram }) ∧
      mram.freeFpList = held.reverse ++ s.mram.freeFpList := by
  induction n generalizing held s with
  | zero => exact absurd hlt (Nat.not_lt_zero _)
  | succ n ih =>
    unfold allocPagesRange
    obtain ⟨hget, hav⟩ | ⟨fpn, rest, hget, hl, hav, hav'⟩ := memphyGetFreefp_eq s.mram
    · simp only [hget, hnil, findVictimPage, List.getLast?_nil]
      refine ⟨held, _, rfl, ?_⟩
      rw [memphyPutAll_eq]
      rfl
    · rw [hav, List.length_cons] at hlt
      obtain ⟨frames, mram, hr, hfree⟩ := ih (fpn :: held) { s with mram := s.mram.setFree rest }
        hnil (by simp only [hav']; omega)
      simp only [hget]
      refine ⟨frames, mram, hr, ?_⟩
      rw [hfree, hl, List.reverse_cons, List.append_assoc]
      rfl

/-- With pages to evict, frames are not missed before one of them has been taken off the list. -/
theorem length_fifoPgn_allocPagesRange (p : ι) (raw : List ℤ) (n : ℕ) (held : List ℤ)
    (s : System ι) :
    let r := allocPagesRange p raw n held s
    (r.2.2.mm p).fifoPgn.length ≤ (s.mm p).fifoPgn.length ∧
      (r.1 < 0 → (s.mm p).fifoPgn ≠ [] →
        (r.2.2.mm p).fifoPgn.length < (s.mm p).fifoPgn.length) := by
  induction n generalizing held s with
  | zero => exact ⟨le_rfl, fun h => absurd h (lt_irrefl 0)⟩
  | succ n ih =>
    unfold allocPagesRange
    cases memphyGetFreefp s.mram with
    | some r => exact ih (r.1 :: held) { s with mram := r.2 }
    | none =>
      simp only [findVictimPage]
      cases hlast : (s.mm p).fifoPgn.getLast? with
      | none => exact ⟨le_rfl, fun _ hne => absurd (List.getLast?_eq_none_iff.mp hlast) hne⟩
      | some vicpgn =>
        have hlen : (s.mm p).fifoPgn.dropLast.length < (s.mm p).fifoPgn.length := by
          rw [length_of_getLast? hlast]
          omega
        have hmm := mm_swapSearch pagingMaxMmswp 0 (-1)
          (s.setFifo p (s.mm p).fifoPgn.dropLast)
        have hfifo : ((swapSearch pagingMaxMmswp 0 (-1)
            (s.setFifo p (s.mm p).fifoPgn.dropLast)).2.2.mm p).fifoPgn =
              (s.mm p).fifoPgn.dropLast := by
          rw [hmm, System.setFifo_self]
        simp only
        split_ifs
        · rw [hfifo]
          exact ⟨hlen.le, fun _ _ => hlen⟩
        · generalize hout : swapOut _ p vicpgn _ _ = out
          have hfifo' : (out.2.mm p).fifoPgn = (s.mm p).fifoPgn.dropLast := by
            rw [← hout, swapOut]
            simp only [System.setPte_self]
            exact hfifo
          have := ih (out.1 :: held) out.2
          rw [hfifo'] at this
          exact ⟨this.1.trans hlen.le, fun _ _ => lt_of_le_of_lt this.1 hlen⟩

/-! ## `__alloc` -/

section

variable {s : System ι} {p : ι}

/-- If no region fits, `get_free_vmrg_area` ends and leaves the list as it is. -/
theorem getFreeVmrgArea_of_not_fit {size : ℤ} {freerg : List VmRg}
    (hno : ∀ rg ∈ freerg, ¬ u64 (rg.rgStart + size) ≤ rg.rgEnd) :
    getFreeVmrgArea freerg size = some (none, freerg) := by
  have hloop : ∀ (fuel : ℕ) (rgs : List VmRg) (newrg : VmRg), rgs.length ≤ fuel →
      (∀ rg ∈ rgs, ¬ u64 (rg.rgStart + size) ≤ rg.rgEnd) →
      getFreeVmrgLoop size fuel rgs newrg = some (rgs, newrg) := by
    intro fuel rgs newrg hlen hno
    induction rgs generalizing fuel with
    | nil => cases fuel <;> rfl
    | cons rgit rgNext ih =>
      obtain ⟨hrg, hno⟩ := List.forall_mem_cons.mp hno
      obtain ⟨fuel, rfl⟩ := Nat.exists_eq_succ_of_ne_zero (Nat.ne_of_gt (Nat.lt_of_lt_of_le
        (Nat.succ_pos rgNext.length) hlen))
      rw [getFreeVmrgLoop, if_neg hrg, ih fuel (Nat.le_of_succ_le_succ hlen) hno]
      rfl
  have hfuel : freerg.length ≤ getFreeVmrgFuel freerg := by
    unfold getFreeVmrgFuel
    induction freerg with
    | nil => exact Nat.zero_le _
    | cons rg rgs ih =>
      have := ih fun rg hm => hno rg (List.mem_cons_of_mem _ hm)
      simp only [List.length_cons, List.map_cons, List.sum_cons]
      omega
  unfold getFreeVmrgArea
  cases freerg with
  | nil => rfl
  | cons rgit rgNext =>
    simp only [hloop _ _ _ hfuel hno, if_true]

/-- If a region fits, `__alloc` gets to the symbol table, unless the search does not end. -/
theorem allocOutside_of_fitting (h : SpaceInv (s.mm p)) {size : ℤ} (hfit : Fitting (s.mm p) size)
    (raw : List ℤ) : ∃ e, allocOutside s p size raw = .error e := by
  unfold allocOutside
  cases hget : getFreeVmrgArea (s.mm p).mmap.vmFreergList (pagingPageAlignsz size) with
  | none => exact ⟨_, rfl⟩
  | some res =>
    obtain ⟨rfl, hno⟩ | ⟨rg, rgs, rfl, -⟩ := getFreeVmrgArea_under h.bound h.free hget
    · obtain ⟨rg, hm, hle⟩ := hfit
      exact absurd hle (hno rg hm)
    · exact ⟨_, rfl⟩

/-- If none does, it raises the break, or cannot. -/
theorem allocOutside_of_not_fitting {size : ℤ} (hno : ¬ Fitting (s.mm p) size) (raw : List ℤ) :
    allocOutside s p size raw =
      if (incVmaLimit s p (pagingPageAlignsz size) raw).1 < 0
      then .ok (-1, 0, (incVmaLimit s p (pagingPageAlignsz size) raw).2)
      else .error .outOfBounds := by
  have hget : getFreeVmrgArea (s.mm p).mmap.vmFreergList (pagingPageAlignsz size) =
      some (none, (s.mm p).mmap.vmFreergList) :=
    getFreeVmrgArea_of_not_fit fun rg hm hle => hno ⟨rg, hm, hle⟩
  unfold allocOutside
  simp only [hget]
  rw [show setFreerg s p (s.mm p).mmap.vmFreergList = s from System.setMm_eta s p]

/-- A failing `alloc_pages_range` of a process without pages to evict changes nothing. -/
theorem vmMapRam_nil {s : System ι} {n : ℕ} (hnil : (s.mm p).fifoPgn = [])
    (hlt : s.mram.avail.length < n) (mapstart : ℤ) (raw : List ℤ) : ∃ mram : Memphy,
      vmMapRam s p mapstart n raw = (-1, { s with mram := mram }) ∧
        mram.freeFpList = s.mram.freeFpList := by
  obtain ⟨frames, mram, hr, hfree⟩ := allocPagesRange_nil p raw n [] s hnil hlt
  refine ⟨mram, ?_, hfree⟩
  unfold vmMapRam
  simp only [Int.toNat_natCast, hr]
  rw [if_pos (by decide)]

/-- With pages to evict, one of them has been taken off the list. -/
theorem length_fifoPgn_vmMapRam (s : System ι) (p : ι) (mapstart incpgnum : ℤ) (raw : List ℤ)
    (hfail : (vmMapRam s p mapstart incpgnum raw).1 < 0) (hne : (s.mm p).fifoPgn ≠ []) :
    ((vmMapRam s p mapstart incpgnum raw).2.mm p).fifoPgn.length < (s.mm p).fifoPgn.length := by
  have hstep := (length_fifoPgn_allocPagesRange p raw incpgnum.toNat [] s).2
  unfold vmMapRam at hfail ⊢
  generalize allocPagesRange p raw incpgnum.toNat [] s = res at hstep hfail ⊢
  obtain ⟨retAlloc, frmLst, s1⟩ := res
  simp only at hstep hfail ⊢
  split_ifs at hfail ⊢ with hret
  · exact hstep hret hne
  · exact absurd hfail (lt_irrefl 0)

/-- The break is none of the things that are to stay. -/
theorem untouched_raise {incSz : ℕ} {mram : Memphy}
    (hfree : mram.freeFpList = s.mram.freeFpList) :
    Untouched s { s.setMm p ((s.mm p).raise incSz) with mram := mram } := by
  have hmm : ∀ q, (s.setMm p ((s.mm p).raise incSz)).mm q = s.mm q ∨
      (s.setMm p ((s.mm p).raise incSz)).mm q = (s.mm q).raise incSz := by
    intro q
    by_cases hq : q = p
    · rw [hq, System.setMm_self]
      exact .inr rfl
    · exact .inl (System.setMm_of_ne _ _ _ hq)
  constructor
  · exact hfree
  · exact fun _ => rfl
  all_goals
    intro q
    obtain hq | hq := hmm q
    · simp only [hq]
    · simp only [hq]
      rfl

theorem allocOutside_untouched_iff (h : SpaceInv (s.mm p)) {size : ℤ} (h0 : -2 ^ 31 ≤ size)
    (h1 : size < 2 ^ 31) (raw : List ℤ) :
    (∃ addr t, allocOutside s p size raw = .ok (-1, addr, t) ∧ Untouched s t) ↔ NoRoom s p size := by
  unfold NoRoom
  by_cases hfit : Fitting (s.mm p) size
  · obtain ⟨e, he⟩ := allocOutside_of_fitting h hfit raw
    refine iff_of_false ?_ fun hno => hno.1 hfit
    rintro ⟨addr, t, ht, -⟩
    rw [he] at ht
    cases ht
  rw [allocOutside_of_not_fitting hfit]
  by_cases hraise : ∀ n : ℕ, size = n → 1 ≤ n → 2 ^ 31 ≤ (s.mm p).mmap.sbrk + alignedSize n
  · rw [incVmaLimit_size_refused h h0 h1 hraise]
    exact iff_of_true ⟨0, s, rfl, .refl s⟩ ⟨hfit, .inl hraise⟩
  -- the break is raised, and `n` pages are to be mapped
  simp only [hraise, false_or, hfit, not_false_eq_true, true_and]
  obtain ⟨n, rfl, hn1, hlt⟩ :
      ∃ n : ℕ, size = n ∧ 1 ≤ n ∧ (s.mm p).mmap.sbrk + alignedSize n < 2 ^ 31 := by
    by_contra hno
    exact hraise fun n hn hn1 => not_lt.mp fun hlt => hno ⟨n, hn, hn1, hlt⟩
  have hle := le_alignedSize n
  rw [pagingPageAlignsz_of_lt (by unfold alignedSize at hlt; omega),
    incVmaLimit_eq h (dvd_alignedSize n) (by omega) hlt, Int.toNat_natCast]
  have hfifo : ((s.setMm p ((s.mm p).raise (alignedSize n))).mm p).fifoPgn = (s.mm p).fifoPgn := by
    rw [System.setMm_self]
    rfl
  by_cases hnil : (s.mm p).fifoPgn = []
  · by_cases hfew : s.mram.avail.length < alignedSize n / 256
    · obtain ⟨mram, hmap, hfree⟩ := vmMapRam_nil (hfifo.trans hnil) hfew
        (s.mm p).mmap.sbrk raw
      rw [hmap]
      exact iff_of_true ⟨0, _, rfl, untouched_raise hfree⟩ ⟨hnil, hfew⟩
    · refine iff_of_false ?_ fun hno => hfew hno.2
      rintro ⟨addr, t, ht, -⟩
      obtain ⟨-, t', hmap, -⟩ | ⟨hf, -⟩ := vmMapRam_plain (s.setMm p ((s.mm p).raise (alignedSize n)))
        p (s.mm p).mmap.sbrk ((alignedSize n / 256 : ℕ) : ℤ) raw
      · rw [hmap] at ht
        cases ht
      · refine hf ?_
        rw [Int.toNat_natCast, Found, System.setMm_mram, Nat.sub_eq_zero_of_le (not_lt.mp hfew)]
        exact ⟨Nat.zero_le _, Nat.zero_le _⟩
  · refine iff_of_false ?_ fun hno => hnil hno.1
    rintro ⟨addr, t, ht, hun⟩
    have hshort := length_fifoPgn_vmMapRam (s.setMm p ((s.mm p).raise (alignedSize n))) p
      (s.mm p).mmap.sbrk ((alignedSize n / 256 : ℕ) : ℤ) raw
    rw [hfifo] at hshort
    generalize vmMapRam _ p _ _ raw = res at ht hshort
    split_ifs at ht with hfail
    cases ht
    exact absurd (congrArg List.length (hun.fifoPgn p)) (hshort hfail hnil).ne

end

/-! ## The instructions -/

section

variable {s : System ι} {p : ι} {ins : Inst} {rgid : BitVec 32}

omit [DecidableEq ι] in
theorem refuses_same {o : Outcome} : Refuses s (.ok (o, s)) ↔ o.stat ≠ 0 := by
  constructor
  · rintro ⟨o', t, heq, h, -⟩
    cases heq
    exact h
  · exact fun h => ⟨o, s, rfl, h, .refl s⟩

omit [DecidableEq ι] in
theorem not_refuses_error (e : Fault) : ¬ Refuses s (.error e) := by
  rintro ⟨o, t, heq, -⟩
  cases heq

theorem allocRgid_outside (hout : pagingMaxSymtblSz ≤ rgid.toNat) (size : ℤ) (raw : List ℤ) :
    allocRgid s p (argInt rgid) size raw = allocOutside s p size raw := by
  unfold allocRgid
  simp only [symrgIndex_outside hout]

/-- Neither build caches pages for an allocation that has failed. -/
theorem refuses_alloc_iff (b : Build) (h : SpaceInv (s.mm p)) (hop : ins.opcode = .ALLOC)
    (hout : pagingMaxSymtblSz ≤ ins.arg1.toNat) (raw : List ℤ) :
    Refuses s (b.run s p ins raw) ↔ NoRoom s p (argInt ins.arg0) := by
  obtain ⟨h0, h1⟩ := argInt_range ins.arg0
  rw [← allocOutside_untouched_iff h h0 h1 raw]
  have hret : ∀ {ret addr : ℤ} {t : System ι},
      allocOutside s p (argInt ins.arg0) raw = .ok (ret, addr, t) → ret = -1 :=
    fun heq => (allocOutside_spec heq 0).1
  have hrun : b.run s p ins raw =
      (allocOutside s p (argInt ins.arg0) raw).map fun r => (⟨-1, none⟩, r.2.2) := by
    cases b with
    | cpuTlb =>
      simp only [Build.run, run, hop, tlballoc, allocRgid_outside hout]
      cases halloc : allocOutside s p (argInt ins.arg0) raw with
      | error e => rfl
      | ok res =>
        obtain ⟨ret, addr, t⟩ := res
        obtain rfl := hret halloc
        rfl
    | mmPaging =>
      simp only [Build.run, runPaging, hop, pgalloc, allocRgid_outside hout]
      cases halloc : allocOutside s p (argInt ins.arg0) raw with
      | error e => rfl
      | ok res =>
        obtain ⟨ret, addr, t⟩ := res
        obtain rfl := hret halloc
        rfl
  rw [hrun]
  cases halloc : allocOutside s p (argInt ins.arg0) raw with
  | error e =>
    refine iff_of_false (not_refuses_error e) ?_
    rintro ⟨addr, t, heq, -⟩
    cases heq
  | ok res =>
    obtain ⟨ret, addr, t⟩ := res
    obtain rfl := hret halloc
    constructor
    · rintro ⟨o, t', heq, -, hun⟩
      cases heq
      exact ⟨addr, t, rfl, hun⟩
    · rintro ⟨addr', t', heq, hun⟩
      cases heq
      exact ⟨_, t, rfl, by decide, hun⟩

/-- An `ALLOC` for which `__alloc` fails has a meaning if the list of free regions can be walked
through. -/
theorem defined_alloc_of_outside (b : Build) (hop : ins.opcode = .ALLOC)
    (hout : pagingMaxSymtblSz ≤ ins.arg1.toNat) {raw : List ℤ}
    (hkept : (s.mm p).mmap.dangling = false) {addr : ℤ} {t : System ι}
    (halloc : allocOutside s p (argInt ins.arg0) raw = .ok (-1, addr, t)) :
    Defined b s p ins raw := by
  refine ⟨fun _ => ⟨hkept, ?_⟩, fun _ _ => ?_, fun hfree => by simp [hop] at hfree⟩
  · obtain ⟨herr, -⟩ | ⟨res, heq, ⟨⟨-, hno⟩ | ⟨h0, -⟩⟩⟩ :=
      alloc_plain s p 0 (argInt ins.arg0) raw <;>
      rw [(allocOutside_spec halloc 0).2] at *
    · cases herr
    · unfold MapsInTable
      split
      · trivial
      · next plan hplan => exact fun hf => absurd hf (hno plan hplan)
    · cases heq
      cases h0
  · unfold CachesInTable
    rw [allocRgid_outside hout, halloc]
    exact fun h0 => absurd h0 (by decide)

/-- The other instructions make no such access when the id is outside the table. -/
theorem defined_of_outside (b : Build) (hop : ins.opcode ≠ .ALLOC)
    (hid : ins.regionId = some rgid) (hout : pagingMaxSymtblSz ≤ rgid.toNat) (raw : List ℤ) :
    Defined b s p ins raw := by
  refine ⟨fun h => absurd h hop, fun h => absurd h hop, fun hfree => ?_⟩
  unfold Inst.regionId at hid
  simp only [hfree, Option.some.injEq] at hid
  unfold FreesInTable
  rw [hid, symrgIndex_outside hout]
  trivial

omit [DecidableEq ι] in
/-- An entry point that looks the region up and tests the pointer. -/
theorem refuses_lookup_iff (hout : pagingMaxSymtblSz ≤ rgid.toNat)
    {res : Except Fault (Outcome × System ι)}
    (hnone : getSymrgById (argInt rgid) = .ok none → res = .ok (⟨-1, none⟩, s))
    (herr : getSymrgById (argInt rgid) = .error .outOfBounds → res = .error .outOfBounds) :
    Refuses s res ↔ pagingMaxSymtblSz < rgid.toNat := by
  have hsym := getSymrgById_outside hout
  by_cases hgt : pagingMaxSymtblSz < rgid.toNat
  · rw [if_pos hgt] at hsym
    rw [hnone hsym, refuses_same]
    exact iff_of_true (by decide) hgt
  · rw [if_neg hgt] at hsym
    rw [herr hsym]
    exact iff_of_false (not_refuses_error _) hgt

/-- When an id outside the table is refused: for each instruction, in either build, in every state
reached. -/
theorem refuses_iff {b : Build} {c : Config ι} {tr : List (Label ι)}
    (h : (definedLts b c).Run tr s) (hid : ins.regionId = some rgid)
    (hout : pagingMaxSymtblSz ≤ rgid.toNat) (raw : List ℤ) :
    Defined b s p ins raw ∧ Refuses s (b.run s p ins raw) ↔ RefusesId b s p ins rgid := by
  have hinv := allSpaceInv_of_buildRun h.of_guard p
  have hdef : ins.opcode ≠ .ALLOC → Defined b s p ins raw :=
    fun hop => defined_of_outside b hop hid hout raw
  unfold Inst.regionId at hid
  unfold RefusesId
  cases hop : ins.opcode with
  | CALC => simp [hop] at hid
  | ALLOC =>
    simp only [hop, Option.some.injEq] at hid ⊢
    subst hid
    have hiff := refuses_alloc_iff b hinv hop hout raw
    constructor
    · rintro ⟨hmeaning, href⟩
      exact ⟨(hmeaning.alloc hop).kept, hiff.mp href⟩
    · rintro ⟨hkept, hno⟩
      obtain ⟨h0, h1⟩ := argInt_range ins.arg0
      obtain ⟨addr, t, halloc, -⟩ := (allocOutside_untouched_iff hinv h0 h1 raw).mpr hno
      exact ⟨defined_alloc_of_outside b hop hout hkept halloc, hiff.mpr hno⟩
  | FREE =>
    simp only [hop, Option.some.injEq] at hid ⊢
    subst hid
    rw [and_iff_right (hdef (by simp [hop]))]
    cases b with
    | cpuTlb =>
      refine refuses_lookup_iff hout (fun hsym => ?_) fun hsym => ?_ <;>
        simp only [Build.run, run, hop, tlbfreeData, hsym] <;> rfl
    | mmPaging =>
      refine refuses_lookup_iff hout (fun hsym => ?_) fun hsym => ?_ <;>
        simp only [Build.run, runPaging, hop, pgfreeData, hsym] <;> rfl
  | READ =>
    simp only [hop, Option.some.injEq] at hid ⊢
    subst hid
    rw [and_iff_right (hdef (by simp [hop]))]
    cases b with
    | cpuTlb =>
      rw [eq_self_iff_true, true_and]
      refine refuses_lookup_iff hout (fun hsym => ?_) fun hsym => ?_ <;>
        simp only [Build.run, run, hop, tlbread, hsym] <;> rfl
    | mmPaging =>
      -- the pointer is used before it is compared with `NULL`
      refine iff_of_false ?_ fun hb => absurd hb.1 (by decide)
      have hsym := getSymrgById_outside hout
      simp only [Build.run, runPaging, hop, pgread, read, hsym]
      split_ifs
      · exact not_refuses_error _
      · exact not_refuses_error _
  | WRITE =>
    simp only [hop, Option.some.injEq] at hid ⊢
    subst hid
    rw [and_iff_right (hdef (by simp [hop]))]
    cases b with
    | cpuTlb =>
      refine refuses_lookup_iff hout (fun hsym => ?_) fun hsym => ?_ <;>
        simp only [Build.run, run, hop, tlbwrite, hsym] <;> rfl
    | mmPaging =>
      refine refuses_lookup_iff hout (fun hsym => ?_) fun hsym => ?_ <;>
        simp only [Build.run, runPaging, hop, pgwrite, write, hsym] <;> rfl

end

/-- In the first state of a system, the TLB build refuses to read region 31. -/
theorem refuses_thirtyOne : Defined .cpuTlb (Config.two 512 256).init 0 ⟨.READ, 31, 0, 0⟩ [] ∧
    Refuses (Config.two 512 256).init
      (Build.cpuTlb.run (Config.two 512 256).init 0 ⟨.READ, 31, 0, 0⟩ []) :=
  (refuses_iff (p := 0) (show (definedLts .cpuTlb (Config.two 512 256)).Run [] _ from
    ⟨_, rfl, .nil⟩) rfl (by decide) []).mpr ⟨rfl, by decide⟩

/-- It does not refuse to free region 30. -/
theorem not_refuses_thirty : ¬ Refuses (Config.two 512 256).init
    (Build.cpuTlb.run (Config.two 512 256).init 0 ⟨.FREE, 30, 0, 0⟩ []) :=
  not_refuses_error .outOfBounds

end OsSim.Mem
