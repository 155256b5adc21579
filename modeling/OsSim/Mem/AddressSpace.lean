import OsSim.Mem.Coherence

/-!
# The address space of a process

The regions of a process, live or free, rounded up to pages. As long as the break
stays within `2^22` they are disjoint and below the break, and all of their pages
have an entry of the page table. Nothing stops an `ALLOC` from raising the break
beyond `2^22`: addresses are then cut to 22 bits when they are turned into page
numbers, so that a region gets the entries of another part of the space.

Results:
* `allocatorSound_of_run`: regions are aligned, below the break and disjoint.
* `inSpace_of_run`: as long as no `ALLOC` would exceed the space, live regions lie
  in it and use different entries.
* `not_inSpace_exceeded`: an `ALLOC` that exceeds it.
-/

namespace OsSim.Mem

variable {ι : Type*} [DecidableEq ι]

/-! ## Regions and free regions -/

/-- The live regions of the symbol table, and the non-empty ones of the free list. -/
def Mm.regions (mm : Mm) : List VmRg :=
  (List.ofFn mm.symrgtbl ++ mm.mmap.vmFreergList).filter fun rg => rg.rgStart < rg.rgEnd

/-- The ranges of two regions, up to the end of a page, do not meet. -/
def VmRg.Disjoint (rg rg' : VmRg) : Prop :=
  alignedSize rg.rgEnd ≤ rg'.rgStart ∨ alignedSize rg'.rgEnd ≤ rg.rgStart

/-- The regions start at page borders, lie below the break, and are disjoint. -/
structure AllocatorSound (mm : Mm) : Prop where
  aligned : ∀ rg ∈ mm.regions, 256 ∣ rg.rgStart
  below : ∀ rg ∈ mm.regions, alignedSize rg.rgEnd ≤ mm.mmap.sbrk
  disjoint : mm.regions.Pairwise VmRg.Disjoint

theorem VmRg.Apart.disjoint {rg rg' : VmRg} (h : rg.Apart rg') (h1 : rg.rgStart < rg.rgEnd)
    (h1' : rg'.rgStart < rg'.rgEnd) (h2 : 256 ∣ rg.rgStart) (h2' : 256 ∣ rg'.rgStart) :
    rg.Disjoint rg' := by
  unfold VmRg.Disjoint alignedSize
  by_contra hmeet
  rw [not_or, not_le, not_le] at hmeet
  -- the later one of the first pages is in both
  rcases Nat.le_total rg.rgStart rg'.rgStart with hle | hle
  · exact h (rg'.rgStart / 256) ⟨h1, by omega, by omega⟩ ⟨h1', le_rfl, by omega⟩
  · exact h (rg.rgStart / 256) ⟨h1, le_rfl, by omega⟩ ⟨h1', by omega, by omega⟩

theorem alignedSize_le_of_dvd {n m : ℕ} (hm : 256 ∣ m) (h : n ≤ m) : alignedSize n ≤ m := by
  unfold alignedSize
  omega

theorem MmInv.allocatorSound {mm : Mm} (h : MmInv mm) : AllocatorSound mm := by
  have hmem : ∀ rg ∈ mm.regions, rg.rgStart < rg.rgEnd ∧ rg.Below mm.mmap.sbrk := by
    intro rg hrg
    rw [Mm.regions, List.mem_filter, List.mem_append, List.mem_ofFn, decide_eq_true_eq] at hrg
    obtain ⟨⟨r, rfl⟩ | hfree, hlt⟩ := hrg
    · exact ⟨hlt, h.live r⟩
    · exact ⟨hlt, h.free.below rg hfree⟩
  refine ⟨fun rg hrg => (hmem rg hrg).2.aligned (hmem rg hrg).1,
    fun rg hrg => alignedSize_le_of_dvd h.aligned (hmem rg hrg).2.bound, ?_⟩
  have hapart : (List.ofFn mm.symrgtbl ++ mm.mmap.vmFreergList).Pairwise VmRg.Apart := by
    rw [List.pairwise_append, List.pairwise_ofFn]
    refine ⟨fun r r' hlt => h.live_apart r r' (Fin.ne_of_lt hlt), h.free.apart, ?_⟩
    rintro rg hrg rg' hrg' pgn hp hp'
    obtain ⟨r, rfl⟩ := List.mem_ofFn.mp hrg
    exact h.live_free r pgn hp ⟨rg', hrg', hp'⟩
  refine (hapart.sublist List.filter_sublist).imp_of_mem ?_
  intro rg rg' hrg hrg' ha
  obtain ⟨hlt, hb⟩ := hmem rg hrg
  obtain ⟨hlt', hb'⟩ := hmem rg' hrg'
  exact ha.disjoint hlt hlt' (hb.aligned hlt) (hb'.aligned hlt')

/-- In every run in which `ALLOC`s ask for 1 to `2^22` bytes and every break stays within `2^22`,
the allocator is sound. -/
theorem allocatorSound_of_run {c : Config ι} {tr : List (Label ι)} {s : System ι}
    (h : ((memLts c).guard BreaksOk).Run tr s) (p : ι) : AllocatorSound (s.mm p) :=
  ((runInv_of_run h).proc p).mm.allocatorSound

/-- A run with a carved free region, a failed allocation and a region put back. -/
theorem allocatorSound_carved : ∃ s,
    ((memLts (Config.two 512 0)).guard BreaksOk).Run
      [⟨0, ⟨.ALLOC, 512, 0, 0⟩, [], ⟨0, none⟩⟩, ⟨0, ⟨.FREE, 0, 0, 0⟩, [], ⟨0, none⟩⟩,
        ⟨0, ⟨.ALLOC, 300, 1, 0⟩, [], ⟨0, none⟩⟩, ⟨0, ⟨.ALLOC, 256, 2, 0⟩, [0], ⟨-1, none⟩⟩] s ∧
      AllocatorSound (s.mm 0) := by
  obtain ⟨s, hrun, -⟩ := exists_run_of_runAll (Config.two 512 0) BreaksOk
    [⟨0, ⟨.ALLOC, 512, 0, 0⟩, [], ⟨0, none⟩⟩, ⟨0, ⟨.FREE, 0, 0, 0⟩, [], ⟨0, none⟩⟩,
      ⟨0, ⟨.ALLOC, 300, 1, 0⟩, [], ⟨0, none⟩⟩, ⟨0, ⟨.ALLOC, 256, 2, 0⟩, [0], ⟨-1, none⟩⟩]
    (fun _ => true) (by decide +kernel)
  exact ⟨s, hrun, allocatorSound_of_run hrun 0⟩

/-! ## The limit of the space -/

/-- Region `r` uses entry `pgn` of the page table: `vmap_page_range`, `__free` and `tlballoc` go
from `PAGING_PGN(rg_start)` over its pages. -/
def Mm.UsesEntry (mm : Mm) (r : Fin pagingMaxSymtblSz) (pgn : ℕ) : Prop :=
  InRange (pagingPgn (i32 (mm.symrgtbl r).rgStart)) (regionPages (mm.symrgtbl r)) pgn

instance (mm : Mm) (r : Fin pagingMaxSymtblSz) (pgn : ℕ) : Decidable (mm.UsesEntry r pgn) :=
  inferInstanceAs (Decidable (_ ∧ _))

/-- The live regions lie in the 22-bit space and use different entries of the page table. -/
structure InSpace (mm : Mm) : Prop where
  bound : ∀ r, (mm.symrgtbl r).rgEnd ≤ 2 ^ 22
  index : ∀ r pgn, mm.UsesEntry r pgn → pgn < pagingMaxPgn
  distinct : ∀ r r' pgn, mm.UsesEntry r pgn → mm.UsesEntry r' pgn → r = r'

theorem MmInv.inSpace {mm : Mm} (h : MmInv mm) : InSpace mm := by
  have hpage : ∀ r pgn, mm.UsesEntry r pgn → (mm.symrgtbl r).HasPage pgn :=
    fun r pgn hu => ((h.live r).inRange_iff h.bound pgn).mp hu
  refine ⟨fun r => (h.live r).bound.trans h.bound, fun r pgn hu => ?_, fun r r' pgn hu hu' => ?_⟩
  · have hlt := (h.live r).page_lt (hpage r pgn hu)
    have hb := h.bound
    unfold pagingMaxPgn
    omega
  · by_contra hne
    exact h.live_apart r r' hne pgn (hpage r pgn hu) (hpage r' pgn hu')

theorem runInv_of_sizeOk {c : Config ι} {tr : List (Label ι)} {s : System ι}
    (h : ((memLts c).guard fun s a _ => SizeOk s a.proc a.ins).Run tr s) : RunInv s :=
  h.invariant (fun _ h0 => h0 ▸ .init c) fun _ _ _ hi hst => hi.step hst.2 hst.1

/-- In every run in which each `ALLOC` asks for 1 to `2^22` bytes and either a free region fits or
the break can be raised within `2^22`, the live regions of every process lie in the space. -/
theorem inSpace_of_run {c : Config ι} {tr : List (Label ι)} {s : System ι}
    (h : ((memLts c).guard fun s a _ => SizeOk s a.proc a.ins).Run tr s) (p : ι) :
    InSpace (s.mm p) :=
  ((runInv_of_sizeOk h).proc p).mm.inSpace

/-- A run up to the limit of the space: the last `ALLOC` fails, but raises the break to `2^22`. -/
theorem inSpace_limit : ∃ s,
    ((memLts (Config.two 512 256)).guard fun s a _ => SizeOk s a.proc a.ins).Run
      [⟨0, ⟨.ALLOC, 256, 0, 0⟩, [], ⟨0, none⟩⟩, ⟨0, ⟨.ALLOC, 4194048, 1, 0⟩, [], ⟨-1, none⟩⟩] s ∧
      (s.mm 0).mmap.sbrk = 2 ^ 22 ∧ InSpace (s.mm 0) := by
  obtain ⟨s, hrun, hbrk⟩ := exists_run_of_runAll (Config.two 512 256)
    (fun s a _ => SizeOk s a.proc a.ins)
    [⟨0, ⟨.ALLOC, 256, 0, 0⟩, [], ⟨0, none⟩⟩, ⟨0, ⟨.ALLOC, 4194048, 1, 0⟩, [], ⟨-1, none⟩⟩]
    (fun s => decide ((s.mm 0).mmap.sbrk = 2 ^ 22)) (by decide +kernel)
  exact ⟨s, hrun, of_decide_eq_true hbrk, inSpace_of_run hrun 0⟩


/-- The next `ALLOC` succeeds, with a region behind the end of the space: its page is given entry
0, which is that of the first region. -/
theorem not_inSpace_exceeded : ∃ s,
    ((memLts (Config.two 512 256)).guard SizesOk).Run
      [⟨0, ⟨.ALLOC, 256, 0, 0⟩, [], ⟨0, none⟩⟩, ⟨0, ⟨.ALLOC, 4194048, 1, 0⟩, [], ⟨-1, none⟩⟩,
        ⟨0, ⟨.ALLOC, 256, 2, 0⟩, [], ⟨0, none⟩⟩] s ∧ ¬ InSpace (s.mm 0) := by
  obtain ⟨s, hrun, htest⟩ := exists_run_of_runAll (Config.two 512 256) SizesOk
    [⟨0, ⟨.ALLOC, 256, 0, 0⟩, [], ⟨0, none⟩⟩, ⟨0, ⟨.ALLOC, 4194048, 1, 0⟩, [], ⟨-1, none⟩⟩,
      ⟨0, ⟨.ALLOC, 256, 2, 0⟩, [], ⟨0, none⟩⟩]
    (fun s => decide ((s.mm 0).UsesEntry 0 0 ∧ (s.mm 0).UsesEntry 2 0)) (by decide +kernel)
  obtain ⟨h0, h2⟩ := of_decide_eq_true htest
  exact ⟨s, hrun, fun h => absurd (h.distinct 0 2 0 h0 h2) (by decide)⟩

end OsSim.Mem
