import OsSim.Mem.Plain

/-!
# Accesses that the language does not define

Two kinds of accesses have no meaning. `get_free_vmrg_area` walks through the list of free
regions, also where it leads to the variable `rgnode` of an `__alloc` that has returned.
And the page table has `PAGING_MAX_PGN` entries (`mm.c`, line 291): `vmap_page_range` maps
page after page, and `tlballoc` and `__free` look one up after the other, without a test of
the page number. `definedLts` is the system without such steps.

Results:
* `tlbCachePages_status_iff`: when the loop of `tlballoc` gets to the end.
* `Defined.of_sizeOk`: as long as the break is within `2^22`, an instruction stays inside
  the page table.
-/

namespace OsSim.Mem

variable {ι : Type*} [DecidableEq ι]

/-! ## The accesses -/

omit [DecidableEq ι] in
instance (s : System ι) (p : ι) (n : ℕ) : Decidable (Found s p n) :=
  inferInstanceAs (Decidable (_ ∧ _))

/-- The pages that `__alloc` maps have entries in the page table. -/
def MapsInTable (s : System ι) (p : ι) (size : ℤ) : Prop :=
  match allocPlan (s.mm p) size with
  | none => True
  | some plan => Found s p plan.count → plan.base + plan.count ≤ pagingMaxPgn

/-- The pages that `tlballoc` looks up have entries in the page table, or it finds one that it
cannot bring to RAM before it gets to the end of the table. -/
def CachesInTable (s : System ι) (p : ι) (size regIndex : BitVec 32) (raw : List ℤ) : Prop :=
  match allocRgid s p (argInt regIndex) (argInt size) raw with
  | .error _ => True
  | .ok (ret, addr, t) => ret = 0 →
    pagingPgn addr + pagingPageAlignszU size / pagingPagesz ≤ pagingMaxPgn ∨
      (tlbCachePages p (pagingMaxPgn - pagingPgn addr) (pagingPgn addr) t).1 ≠ 0

/-- The pages that `__free` looks up have entries in the page table, or it comes to one that it cannot
bring to RAM before it gets to the end of the table. -/
def FreesInTable (s : System ι) (p : ι) (rgid : BitVec 32) : Prop :=
  match symrgIndex (argInt rgid) with
  | .error _ => True
  | .ok r =>
    let pgn := pagingPgn (i32 ((s.mm p).symrgtbl r).rgStart)
    pgn + regionPages ((s.mm p).symrgtbl r) ≤ pagingMaxPgn ∨
      (freeLoop p (pagingMaxPgn - pgn) pgn s).1 ≠ 0

/-- `__alloc` makes no access that has no meaning. -/
structure AllocDefined (s : System ι) (p : ι) (size : ℤ) : Prop where
  kept : (s.mm p).mmap.dangling = false
  maps : MapsInTable s p size

/-- Nor does the instruction. -/
structure Defined (b : Build) (s : System ι) (p : ι) (ins : Inst) (raw : List ℤ) : Prop where
  alloc : ins.opcode = .ALLOC → AllocDefined s p (argInt ins.arg0)
  caches : ins.opcode = .ALLOC → b = .cpuTlb → CachesInTable s p ins.arg0 ins.arg1 raw
  frees : ins.opcode = .FREE → FreesInTable s p ins.arg0

omit [DecidableEq ι] in
instance (s : System ι) (p : ι) (size : ℤ) : Decidable (MapsInTable s p size) := by
  unfold MapsInTable
  split <;> infer_instance

instance (s : System ι) (p : ι) (size regIndex : BitVec 32) (raw : List ℤ) :
    Decidable (CachesInTable s p size regIndex raw) := by
  unfold CachesInTable
  split <;> infer_instance

instance (s : System ι) (p : ι) (rgid : BitVec 32) : Decidable (FreesInTable s p rgid) := by
  unfold FreesInTable
  split <;> infer_instance

omit [DecidableEq ι] in
theorem allocDefined_iff {s : System ι} {p : ι} {size : ℤ} : AllocDefined s p size ↔
    (s.mm p).mmap.dangling = false ∧ MapsInTable s p size :=
  ⟨fun h => ⟨h.kept, h.maps⟩, fun h => ⟨h.1, h.2⟩⟩

instance (s : System ι) (p : ι) (size : ℤ) : Decidable (AllocDefined s p size) :=
  decidable_of_iff' _ allocDefined_iff

theorem defined_iff {b : Build} {s : System ι} {p : ι} {ins : Inst} {raw : List ℤ} :
    Defined b s p ins raw ↔ (ins.opcode = .ALLOC → AllocDefined s p (argInt ins.arg0)) ∧
      (ins.opcode = .ALLOC → b = .cpuTlb → CachesInTable s p ins.arg0 ins.arg1 raw) ∧
      (ins.opcode = .FREE → FreesInTable s p ins.arg0) :=
  ⟨fun h => ⟨h.alloc, h.caches, h.frees⟩, fun h => ⟨h.1, h.2.1, h.2.2⟩⟩

instance (b : Build) (s : System ι) (p : ι) (ins : Inst) (raw : List ℤ) :
    Decidable (Defined b s p ins raw) :=
  decidable_of_iff' _ defined_iff

/-- Of an `ALLOC` the accesses of `__alloc`, and in one build those of `tlballoc`, have to have a
meaning. -/
theorem defined_alloc_iff {b : Build} {s : System ι} {p : ι} {size rgid : BitVec 32}
    {arg2 : BitVec 32} {raw : List ℤ} : Defined b s p ⟨.ALLOC, size, rgid, arg2⟩ raw ↔
      AllocDefined s p (argInt size) ∧ (b = .cpuTlb → CachesInTable s p size rgid raw) := by
  simp [defined_iff]

/-- The memory system, in either build, as far as what it does has a meaning. -/
def definedLts (b : Build) (c : Config ι) : Lts (System ι) (Label ι) :=
  (buildLts b c).guard fun s a _ => Defined b s a.proc a.ins a.raw

section

variable {c : Config ι} {P : System ι → Label ι → System ι → Prop} {tr : List (Label ι)}
  {s : System ι}

/-- The runs of the system are runs of the build. -/
theorem run_of_defined {b : Build} (h : ((definedLts b c).guard P).Run tr s) :
    ((buildLts b c).guard P).Run tr s :=
  Lts.Run.guard_mono (fun _ _ _ hok => hok.2) (Lts.Run.guard_guard.mp h)

/-- A run in which each step has a meaning, that has been executed and whose last state passes a
test. -/
theorem exists_defined_run_of_runAll (c : Config ι) (P : System ι → Label ι → System ι → Prop)
    [∀ s a s', Decidable (P s a s')] (tr : List (Label ι)) (test : System ι → Bool)
    (h : (runAll (fun s a s' => decide (Defined .cpuTlb s a.proc a.ins a.raw ∧ P s a s'))
      c.init tr).any test = true) :
    ∃ s, ((definedLts .cpuTlb c).guard P).Run tr s ∧ test s = true := by
  obtain ⟨s, hrun, htest⟩ := exists_run_of_runAll c _ tr test h
  exact ⟨s, Lts.Run.guard_guard.mpr hrun, htest⟩

end

/-! ## The loop of `tlballoc` -/

/-- The pages in swap among the `left` pages from `pgn` on. -/
def swappedPages (s : System ι) (p : ι) (pgn left : ℕ) : List ℕ :=
  (List.range' pgn left).filter fun k => decide (Swapped ((s.mm p).pgd k))

/-- The `left` pages from `pgn` on can be brought to RAM one after the other: they are present, and
there are frames for those in swap. `tlballoc` takes frame -1 for a failure. -/
structure Cacheable (s : System ι) (p : ι) (pgn left : ℕ) : Prop where
  present : ∀ k, InRange pgn left k → Present ((s.mm p).pgd k)
  enough : (swappedPages s p pgn left).length ≤ s.mram.avail.length
  frames : -1 ∉ s.mram.avail.take (swappedPages s p pgn left).length

section

variable {s : System ι} {p : ι}

omit [DecidableEq ι] in
theorem swappedPages_succ (s : System ι) (p : ι) (pgn left : ℕ) :
    swappedPages s p pgn (left + 1) =
      if Swapped ((s.mm p).pgd pgn) then pgn :: swappedPages s p (pgn + 1) left
      else swappedPages s p (pgn + 1) left := by
  simp only [swappedPages, List.range'_succ, List.filter_cons, decide_eq_true_eq]

omit [DecidableEq ι] in
/-- It depends on the entries of the pages and on the frames only. -/
theorem Cacheable.congr {t : System ι} {pgn left : ℕ} (h : Cacheable s p pgn left)
    (hpgd : ∀ k, InRange pgn left k → (t.mm p).pgd k = (s.mm p).pgd k)
    (hav : t.mram.avail = s.mram.avail) : Cacheable t p pgn left := by
  have hsame : swappedPages t p pgn left = swappedPages s p pgn left := by
    refine List.filter_congr fun k hk => ?_
    rw [hpgd k (List.mem_range'_1.mp hk)]
  refine ⟨fun k hk => ?_, ?_, ?_⟩
  · rw [hpgd k hk]
    exact h.present k hk
  · rw [hsame, hav]
    exact h.enough
  · rw [hsame, hav]
    exact h.frames

omit [DecidableEq ι] in
theorem cacheable_congr {t : System ι} {pgn left : ℕ}
    (hpgd : ∀ k, InRange pgn left k → (t.mm p).pgd k = (s.mm p).pgd k)
    (hav : t.mram.avail = s.mram.avail) : Cacheable t p pgn left ↔ Cacheable s p pgn left :=
  ⟨fun h => h.congr (fun k hk => (hpgd k hk).symm) hav.symm, fun h => h.congr hpgd hav⟩

omit [DecidableEq ι] in
/-- The first page is in RAM, or it takes a frame. -/
theorem cacheable_succ_iff {pgn left : ℕ} : Cacheable s p pgn (left + 1) ↔
    (Resident ((s.mm p).pgd pgn) ∧ Cacheable s p (pgn + 1) left) ∨
      (Present ((s.mm p).pgd pgn) ∧ Swapped ((s.mm p).pgd pgn) ∧
        ∃ fpn rest, s.mram.avail = fpn :: rest ∧ fpn ≠ -1 ∧
          (∀ k, InRange (pgn + 1) left k → Present ((s.mm p).pgd k)) ∧
          (swappedPages s p (pgn + 1) left).length ≤ rest.length ∧
          -1 ∉ rest.take (swappedPages s p (pgn + 1) left).length) := by
  have hin : ∀ k, InRange pgn (left + 1) k ↔ k = pgn ∨ InRange (pgn + 1) left k := by
    intro k
    unfold InRange
    omega
  have hall : (∀ k, InRange pgn (left + 1) k → Present ((s.mm p).pgd k)) ↔
      Present ((s.mm p).pgd pgn) ∧ ∀ k, InRange (pgn + 1) left k → Present ((s.mm p).pgd k) := by
    simp only [hin, forall_eq_or_imp]
  have hsucc := swappedPages_succ s p pgn left
  constructor
  · rintro ⟨hp, he, hf⟩
    obtain ⟨h0, hp⟩ := hall.mp hp
    rw [hsucc] at he hf
    split_ifs at he hf with hsw
    · obtain ⟨fpn, rest, hav⟩ := List.exists_cons_of_length_pos
        (Nat.lt_of_lt_of_le (Nat.succ_pos _) he)
      rw [hav] at he hf
      rw [List.length_cons, List.take_succ_cons, List.mem_cons, not_or] at hf
      exact .inr ⟨h0, hsw, fpn, rest, hav, Ne.symm hf.1, hp, Nat.le_of_succ_le_succ he, hf.2⟩
    · exact .inl ⟨⟨h0, hsw⟩, hp, he, hf⟩
  · rintro (⟨⟨h0, hsw⟩, hp, he, hf⟩ | ⟨h0, hsw, fpn, rest, hav, hne, hp, he, hf⟩)
    · rw [if_neg hsw] at hsucc
      exact ⟨hall.mpr ⟨h0, hp⟩, hsucc ▸ he, hsucc ▸ hf⟩
    · rw [if_pos hsw] at hsucc
      refine ⟨hall.mpr ⟨h0, hp⟩, ?_, ?_⟩
      · rw [hsucc, hav]
        exact Nat.succ_le_succ he
      · rw [hsucc, hav, List.length_cons, List.take_succ_cons, List.mem_cons, not_or]
        exact ⟨Ne.symm hne, hf⟩

/-- The loop of `tlballoc` gets to the end exactly if its pages can be brought to RAM. -/
theorem tlbCachePages_status_iff (p : ι) (left pgn : ℕ) (s : System ι) :
    (tlbCachePages p left pgn s).1 = 0 ↔ Cacheable s p pgn left := by
  induction left generalizing pgn s with
  | zero =>
    refine iff_of_true rfl ⟨fun k hk => absurd hk.2 ?_, Nat.zero_le _, by simp [swappedPages]⟩
    have := hk.1
    omega
  | succ left ih =>
    rw [cacheable_succ_iff]
    unfold tlbCachePages
    obtain ⟨hp, hr⟩ | ⟨hres, hr⟩ | ⟨hp, hsw, hav, hr⟩ | ⟨hp, hsw, fpn, rest, hl, hav, hr⟩ :=
      pgGetpage_cases s p pgn <;> simp only [hr]
    · simp [Resident, hp]
    · have h0 := pteFpn_nonneg ((s.mm p).pgd pgn)
      rw [if_neg (not_not.mpr rfl), if_neg (by omega), ih]
      simp only [hres, hres.2, true_and, false_and, and_false, or_false]
      exact cacheable_congr (fun _ _ => rfl) rfl
    · simp [Resident, hsw, hav]
    · rw [if_neg (not_not.mpr rfl)]
      by_cases hfpn : fpn = -1
      · rw [if_pos hfpn]
        refine iff_of_false (by simp) ?_
        rintro (⟨hres, -⟩ | ⟨-, -, fpn', rest', hav', hne, -⟩)
        · exact hres.2 hsw
        · rw [hav] at hav'
          cases hav'
          exact hne hfpn
      · -- the page is fetched into the first free frame
        rw [if_neg hfpn, ih]
        generalize hs1 : swapIn (s.setFrames rest) p pgn (pteSwptyp ((s.mm p).pgd pgn))
          (pagingSwp ((s.mm p).pgd pgn)) fpn = s1
        have hpgd : ∀ k, InRange (pgn + 1) left k → (s1.mm p).pgd k = (s.mm p).pgd k := by
          intro k hk
          have hother := (pgGetpage_others s p pgn).2 k (by have := hk.1; omega)
          rw [hr, hs1] at hother
          exact hother
        have hav1 : s1.mram.avail = rest := by
          have hfree := swapIn_frames (s.setFrames rest) p pgn (pteSwptyp ((s.mm p).pgd pgn))
            (pagingSwp ((s.mm p).pgd pgn)) fpn
          have hsz := (pgGetpage_others s p pgn).1
          rw [hr, hs1] at hsz
          rw [hs1] at hfree
          unfold Memphy.avail at hav ⊢
          split_ifs at hav with hneg
          rw [if_neg (hsz ▸ hneg), hfree]
          rfl
        have hpres : (∀ k, InRange (pgn + 1) left k → Present ((s1.mm p).pgd k)) ↔
            ∀ k, InRange (pgn + 1) left k → Present ((s.mm p).pgd k) :=
          forall₂_congr fun k hk => by rw [hpgd k hk]
        have hswp : swappedPages s1 p (pgn + 1) left = swappedPages s p (pgn + 1) left :=
          List.filter_congr fun k hk => by rw [hpgd k (List.mem_range'_1.mp hk)]
        rw [or_iff_right fun h => h.1.2 hsw]
        constructor
        · rintro ⟨h1, h2, h3⟩
          change (swappedPages s1 p (pgn + 1) left).length ≤ s1.mram.avail.length at h2
          change -1 ∉ s1.mram.avail.take (swappedPages s1 p (pgn + 1) left).length at h3
          rw [hswp, hav1] at h2 h3
          exact ⟨hp, hsw, fpn, rest, hav, hfpn, hpres.mp h1, h2, h3⟩
        · rintro ⟨-, -, fpn', rest', hav', -, h1, h2, h3⟩
          rw [hav] at hav'
          cases hav'
          rw [← hswp, ← hav1] at h2 h3
          exact ⟨hpres.mpr h1, h2, h3⟩

end

/-! ## The pages of `tlballoc` -/

section

variable {s : System ι} {p : ι}

/-- `__alloc` has carried out its plan, whatever the region id. -/
theorem allocRgid_plan {rgid size addr : ℤ} {raw : List ℤ} {t : System ι}
    (h : allocRgid s p rgid size raw = .ok (0, addr, t)) : ∃ plan,
      allocPlan (s.mm p) size = some plan ∧ Found s p plan.count ∧ addr = plan.addr := by
  unfold allocRgid at h
  cases hr : symrgIndex rgid with
  | error e =>
    simp only [hr] at h
    cases (allocOutside_spec h 0).1
  | ok r =>
    simp only [hr] at h
    obtain ⟨herr, -⟩ | ⟨res, heq, hres⟩ := alloc_plain s p r size raw
    · rw [h] at herr
      cases herr
    · rw [h] at heq
      cases heq
      obtain ⟨hneg, -⟩ | ⟨-, plan, hplan, hfound, haddr, -⟩ := hres.ending
      · cases hneg
      · exact ⟨plan, hplan, hfound, haddr⟩

/-- If the pages mapped have entries and `tlballoc` counts the same pages, those that it looks up
have entries. -/
theorem MapsInTable.caches {size : BitVec 32} (h : MapsInTable s p (argInt size))
    (hplan : ∀ plan, allocPlan (s.mm p) (argInt size) = some plan →
      plan.base = pagingPgn plan.addr ∧ plan.count = pagingPageAlignszU size / pagingPagesz)
    (regIndex : BitVec 32) (raw : List ℤ) : CachesInTable s p size regIndex raw := by
  unfold CachesInTable
  split
  · trivial
  · next ret addr t heq =>
    rintro rfl
    obtain ⟨plan, hp, hfound, rfl⟩ := allocRgid_plan heq
    obtain ⟨hbase, hcount⟩ := hplan plan hp
    unfold MapsInTable at h
    rw [hp] at h
    rw [← hbase, ← hcount]
    exact .inl (h hfound)

end

/-! ## Allocations within the address space -/

section

variable {s : System ι} {p : ι} {n : ℕ}

/-- What `__alloc` is going to map: the pages of the block that it has found. -/
theorem allocPlan_eq {mm : Mm} (h : MmInv mm) (hn1 : 1 ≤ n) (hn : n ≤ 2 ^ 22) :
    ∃ start : ℕ, allocPlan mm n = some ⟨pagingPgn start, alignedSize n / 256, start⟩ ∧
      (BreakOk mm n → start + alignedSize n ≤ 2 ^ 22) := by
  have hle := le_alignedSize n
  have hsz := alignedSize_le hn
  have hbound := h.bound
  obtain ⟨newrg, rgs, heq, -, -, hfit, hnew⟩ := getFreeVmrgArea_spec h.bound (by omega) hsz
    (dvd_alignedSize n) h.free
  unfold allocPlan
  rw [pagingPageAlignsz_natCast hn, heq]
  cases newrg with
  | some rg =>
    obtain ⟨hbelow, hend, -⟩ := hnew rg rfl
    have hstart : i32 (rg.rgStart : ℤ) = rg.rgStart := by
      have := hbelow.bound
      exact i32_natCast (by omega)
    have hcount : regionPages rg = alignedSize n / 256 := by
      rw [regionPages, pages_of_end hn hend, Int.toNat_natCast]
    refine ⟨rg.rgStart, ?_, fun _ => ?_⟩
    · simp only [hstart, hcount]
    · rw [← hend]
      exact hbelow.bound.trans hbound
  | none =>
    have hraise : ¬ validateOverlapVmArea mm.vmNext (i32 mm.mmap.sbrk)
        (i32 (u64 (mm.mmap.sbrk + (alignedSize n : ℤ)))) < 0 := by
      rw [h.spaceInv.vmNext, validateOverlapVmArea_nil, ← Nat.cast_add, u64_natCast (by omega),
        i32_natCast (by omega), i32_natCast (by omega), if_neg (by omega)]
      omega
    refine ⟨mm.mmap.sbrk, ?_, fun hbrk => ?_⟩
    · simp only [if_neg hraise, h.vmEnd]
      rw [pagingPageAlignsz_natCast hsz, alignedSize_of_dvd (dvd_alignedSize n),
        show (alignedSize n : ℤ).tdiv pagingPagesz = ((alignedSize n / 256 : ℕ) : ℤ) from rfl,
        Int.toNat_natCast, i32_natCast (by omega)]
    · exact hbrk.resolve_left fun hex => by simpa using hfit.mpr hex

/-- Below `2^22` there is an entry for every page. -/
theorem pagingPgn_add_le {start : ℕ} (hn1 : 1 ≤ n) (hend : start + alignedSize n ≤ 2 ^ 22) :
    pagingPgn (start : ℤ) + alignedSize n / 256 ≤ pagingMaxPgn := by
  have hle := le_alignedSize n
  rw [pagingPgn_natCast (by omega)]
  unfold pagingMaxPgn
  omega

omit [DecidableEq ι] in
/-- As long as the break is within `2^22` the pages of a region have entries. -/
theorem pagingPgn_region_le (h : MmInv (s.mm p)) (r : Fin pagingMaxSymtblSz) :
    pagingPgn (i32 ((s.mm p).symrgtbl r).rgStart) + regionPages ((s.mm p).symrgtbl r) ≤
      pagingMaxPgn := by
  have hr := h.live r
  generalize (s.mm p).symrgtbl r = rg at hr
  have hbound := h.bound
  have hle := hr.le
  have hend := hr.bound
  rw [regionPages_eq hle (by omega), i32_natCast (by omega)]
  by_cases hlt : rg.rgStart < rg.rgEnd
  · have hal := hr.aligned hlt
    rw [pagingPgn_natCast (by omega)]
    unfold alignedSize pagingMaxPgn
    omega
  · have hpgn := pagingPgn_lt rg.rgStart
    unfold alignedSize
    omega

/-- As long as the break is within `2^22` an instruction stays inside the page table. -/
theorem Defined.of_sizeOk {b : Build} {ins : Inst} (h : ProcOk s p) (hsize : SizeOk s p ins)
    (hkept : ListKept s p ins) (raw : List ℤ) : Defined b s p ins raw := by
  have hmaps : ins.opcode = .ALLOC → MapsInTable s p (argInt ins.arg0) ∧
      ∀ plan, allocPlan (s.mm p) (argInt ins.arg0) = some plan → plan.base = pagingPgn plan.addr ∧
        plan.count = pagingPageAlignszU ins.arg0 / pagingPagesz := by
    intro hop
    obtain ⟨hn1, hn, hbrk⟩ := hsize hop
    obtain ⟨start, hplan, hend⟩ := allocPlan_eq h.mm hn1 hn
    unfold MapsInTable
    rw [argInt_eq (by omega), hplan]
    refine ⟨fun _ => pagingPgn_add_le hn1 (hend hbrk), ?_⟩
    rintro _ ⟨⟩
    exact ⟨rfl, by rw [pagingPageAlignszU_eq hn]⟩
  refine ⟨fun hop => ⟨hkept hop, (hmaps hop).1⟩, fun hop _ => ?_, fun _ => ?_⟩
  · exact (hmaps hop).1.caches (hmaps hop).2 _ raw
  · unfold FreesInTable
    split
    · trivial
    · exact .inl (pagingPgn_region_le h.mm _)

theorem defined_iff_listKept {b : Build} {ins : Inst} (h : ProcOk s p) (hsize : SizeOk s p ins)
    {raw : List ℤ} : Defined b s p ins raw ↔ ListKept s p ins :=
  ⟨fun hdef hop => (hdef.alloc hop).kept, fun hkept => .of_sizeOk h hsize hkept raw⟩

end

end OsSim.Mem
