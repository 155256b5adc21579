import OsSim.Mem.Carving
import OsSim.Mem.Sizes

/-!
# The extent of a region

`__alloc` records the end of a region in two ways: on the break path as the old break
plus the size asked for, on the free-list path as the end of the region that
`get_free_vmrg_area` has found, whose length is the size rounded up to pages. What the
range test of `__read` and `__write` lets through depends on that end, and on the start
too: the sum of start and offset is an `int`, and an offset from `2^32` less the start
on wraps around to an address below the region.

Results:
* `accepts_iff_of_length`: when regions of one length let the same offsets through.
* `AllocatesRegion.extent`: the region that an `ALLOC` makes, from the state before it.
* `sameExtent_iff`: when two `ALLOC`s of one size make regions of the same extent.
-/

namespace OsSim.Mem

variable {ι : Type*} [DecidableEq ι]

/-! ## What is asked for -/

/-- An `ALLOC` of `size` bytes into region `r` of `p` has a meaning, succeeds and makes `rg` the
region. -/
def AllocatesRegion (b : Build) (s : System ι) (p : ι) (size r : BitVec 32) (rg : VmRg) : Prop :=
  ∃ raw t, ∃ hid : r.toNat < pagingMaxSymtblSz, Defined b s p ⟨.ALLOC, size, r, 0⟩ raw ∧
    b.run s p ⟨.ALLOC, size, r, 0⟩ raw = .ok (⟨0, none⟩, t) ∧
      (t.mm p).symrgtbl ⟨r.toNat, hid⟩ = rg

/-- Both regions have `n` bytes, and the same offsets pass the range test. -/
structure SameExtent (n : ℕ) (rg rg' : VmRg) : Prop where
  left : rg.rgEnd = rg.rgStart + n
  right : rg'.rgEnd = rg'.rgStart + n
  accepts : ∀ offset, ¬ OutOfRange rg offset ↔ ¬ OutOfRange rg' offset

/-- Where a region of `n` bytes is going to start: at the last piece of the last free region that
holds one, else at the break. -/
def Mm.blockStart (mm : Mm) (n : ℕ) : ℕ :=
  (lastFound (alignedSize n) ⟨mm.mmap.sbrk, mm.mmap.sbrk + n⟩ mm.mmap.vmFreergList).rgStart

/-! ## The range test -/

/-- Regions of the same length let the same offsets through exactly if they start at the same
address. -/
theorem accepts_iff_of_length {rg rg' : VmRg} {n : ℕ} (hend : rg.rgEnd < 2 ^ 31)
    (hend' : rg'.rgEnd < 2 ^ 31) (hlen : rg.rgEnd = rg.rgStart + n)
    (hlen' : rg'.rgEnd = rg'.rgStart + n) :
    (∀ offset, ¬ OutOfRange rg offset ↔ ¬ OutOfRange rg' offset) ↔ rg.rgStart = rg'.rgStart := by
  have hiff := not_outOfRange_iff (by omega) hend
  have hiff' := not_outOfRange_iff (by omega) hend'
  constructor
  · intro h
    -- the first offset that wraps around for one of the regions
    have hwrap : ∀ a : ℕ, 0 < a → a < 2 ^ 31 →
        (BitVec.ofNat 32 (2 ^ 32 - a)).toNat = 2 ^ 32 - a := by
      intro a h0 h1
      rw [BitVec.toNat_ofNat]
      omega
    by_contra hne
    obtain hlt | hgt := Nat.lt_or_gt_of_ne hne
    · have hoff := h (BitVec.ofNat 32 (2 ^ 32 - rg'.rgStart))
      rw [hiff, hiff', hwrap _ (by omega) (by omega)] at hoff
      omega
    · have hoff := h (BitVec.ofNat 32 (2 ^ 32 - rg.rgStart))
      rw [hiff, hiff', hwrap _ (by omega) (by omega)] at hoff
      omega
  · intro h offset
    rw [hiff, hiff', hlen, hlen', h]

/-! ## The region that `ALLOC` makes -/

/-- `ALLOC` succeeds only if `__alloc` does. -/
theorem AllocatesRegion.exists_alloc {b : Build} {s : System ι} {p : ι} {size r : BitVec 32}
    {rg : VmRg} (h : AllocatesRegion b s p size r rg) :
    ∃ raw addr t, ∃ hid : r.toNat < pagingMaxSymtblSz,
      alloc s p ⟨r.toNat, hid⟩ (argInt size) raw = .ok (0, addr, t) ∧
        (t.mm p).symrgtbl ⟨r.toNat, hid⟩ = rg := by
  obtain ⟨raw, t, hid, -, hrun, rfl⟩ := h
  refine ⟨raw, ?_⟩
  cases b with
  | mmPaging =>
    have hex : ExecutedPaging s p ⟨.ALLOC, size, r, 0⟩ raw ⟨0, none⟩ t := executedPaging_of_run hrun
    generalize ho : (⟨0, none⟩ : Outcome) = o at hex
    cases hex with
    | @alloc r' stat addr _ _ hr halloc =>
      cases ho
      obtain rfl : r' = ⟨r.toNat, hid⟩ := Fin.ext (hr rfl)
      exact ⟨addr, t, hid, halloc, rfl⟩
    | compute hop | free hop | read hop | write hop => cases hop
    | refused => cases ho
  | cpuTlb =>
    have hex : Executed s p ⟨.ALLOC, size, r, 0⟩ raw ⟨0, none⟩ t := executed_of_run hrun
    generalize ho : (⟨0, none⟩ : Outcome) = o at hex
    cases hex with
    | @alloc stat _ rgid _ hid' hr hres =>
      cases ho
      obtain rfl : rgid = r := hr rfl
      unfold tlballoc at hres
      simp only [allocRgid_eq hid] at hres
      cases halloc : alloc s p ⟨rgid.toNat, hid⟩ (argInt size) raw with
      | error e => simp [halloc] at hres
      | ok res =>
        obtain ⟨ret, addr, s1⟩ := res
        simp only [halloc] at hres
        split_ifs at hres with hret
        · cases hres
        · have hcache := Paged.tlbCachePages (p := p) (pagingPageAlignszU size / pagingPagesz)
            (pagingPgn addr) s1
          rw [Except.ok.inj hres] at hcache
          rw [not_not.mp hret] at halloc
          exact ⟨addr, s1, hid, halloc, (congrFun hcache.space.symrgtbl _).symm⟩
    | compute hop | free hop | read hop | write hop => cases hop

section

variable {s : System ι} {p : ι} {n : ℕ}

omit [DecidableEq ι] in
/-- Where `__alloc` is going to put the region. -/
theorem allocPlan_addr (h : SpaceInv (s.mm p)) (hn1 : 1 ≤ n) (hn : n + 255 < 2 ^ 31)
    {plan : Plan} (hplan : allocPlan (s.mm p) n = some plan) :
    plan.addr = (s.mm p).blockStart n := by
  have hle := le_alignedSize n
  have hbound := h.bound
  have hsound : ∀ rg ∈ (s.mm p).mmap.vmFreergList, rg.Sound (alignedSize n) :=
    fun rg hrg => (h.free rg hrg).sound hbound (by have := alignedSize_lt hn; omega)
  unfold allocPlan at hplan
  rw [pagingPageAlignsz_of_lt hn] at hplan
  cases hget : getFreeVmrgArea (s.mm p).mmap.vmFreergList (alignedSize n : ℕ) with
  | none => simp [hget] at hplan
  | some res =>
    obtain ⟨newrg, rgs⟩ := res
    cases newrg with
    | some rg =>
      have hbelow : rg.rgStart ≤ (s.mm p).mmap.sbrk := by
        obtain ⟨hno, -⟩ | ⟨newrg, rgs', heq, -, -, hstart, -⟩ :=
          getFreeVmrgArea_under hbound h.free hget
        · cases hno
        · cases heq
          exact hstart
      simp only [hget, Option.some.injEq] at hplan
      rw [← hplan, Mm.blockStart, ← getFreeVmrgArea_found (by omega) hsound hget]
      exact i32_natCast (by omega)
    | none =>
      obtain ⟨rgs', -, ⟨-, -, hno⟩ | ⟨rg, -, -, hsome⟩⟩ :=
        getFreeVmrgArea_pieces (by omega) hsound
      · obtain ⟨hstay, -⟩ | ⟨rg, hrg, hp, -⟩ := @lastFound_cases (alignedSize n)
          ⟨(s.mm p).mmap.sbrk, (s.mm p).mmap.sbrk + n⟩ (s.mm p).mmap.vmFreergList
        · simp only [hget] at hplan
          split_ifs at hplan
          cases hplan
          rw [Mm.blockStart, hstay]
          exact i32_natCast hbound
        · exact absurd (hno rg hrg) hp.ne'
      · rw [hget] at hsome
        cases hsome

/-- The region that an `ALLOC` makes: it starts at the block found, and it ends behind `n` bytes or
behind the last page. -/
theorem AllocatesRegion.extent {b : Build} {size r : BitVec 32} {rg : VmRg}
    (h : AllocatesRegion b s p size r rg) (hs : SpaceInv (s.mm p)) (hn1 : 1 ≤ size.toNat)
    (hn : size.toNat ≤ 2 ^ 22) :
    rg.rgStart = (s.mm p).blockStart size.toNat ∧ rg.rgEnd < 2 ^ 31 ∧
      ((Fits (s.mm p) size.toNat ∧ rg.rgEnd = rg.rgStart + alignedSize size.toNat) ∨
        (¬ Fits (s.mm p) size.toNat ∧ rg.rgEnd = rg.rgStart + size.toNat)) := by
  obtain ⟨raw, addr, t, hid, halloc, rfl⟩ := h.exists_alloc
  rw [argInt_eq (by omega)] at halloc
  obtain ⟨mm, hpaged, hspace⟩ := alloc_space hs _ (by omega) (by omega) halloc
  have hsym : (t.mm p).symrgtbl = mm.symrgtbl := by
    rw [hpaged.space.symrgtbl, System.setMm_self]
  have haddr : addr = (s.mm p).blockStart size.toNat := by
    obtain ⟨herr, -⟩ | ⟨res, heq, ⟨⟨hneg, -⟩ | ⟨-, plan, hplan, -, hpa, -⟩⟩⟩ :=
      alloc_plain s p ⟨r.toNat, hid⟩ size.toNat raw
    · rw [herr] at halloc
      cases halloc
    · rw [heq] at halloc
      cases halloc
      cases hneg
    · rw [heq] at halloc
      cases halloc
      rw [← allocPlan_addr hs hn1 (by omega) hplan]
      exact hpa
  have hbelow := (hspace.spaceInv hs).live ⟨r.toNat, hid⟩
  have hbound := (hspace.spaceInv hs).bound
  rw [hsym]
  refine ⟨?_, by omega, ?_⟩
  all_goals obtain ⟨hfit, rg, rgs, -, hend, hstart, rfl⟩ | ⟨hfit, hstart, rfl⟩ :=
    hspace.success hs (by omega)
  · simp only [Mm.setRegions, Function.update_self]
    omega
  · simp only [Mm.setRegions, Function.update_self]
    omega
  · exact .inl ⟨hfit, by simp only [Mm.setRegions, Function.update_self, hend]⟩
  · exact .inr ⟨hfit, by simp only [Mm.setRegions, Function.update_self]⟩

end

/-- Two `ALLOC`s of one size in any two runs: both regions have that many bytes and let the same
offsets through exactly if the size fills its pages, or neither region comes from the free list, and
the blocks that are found start at the same address. -/
theorem sameExtent_iff {b b' : Build} {c c' : Config ι} {tr tr' : List (Label ι)}
    {s s' : System ι} (h : (definedLts b c).Run tr s) (h' : (definedLts b' c').Run tr' s') {p p' : ι}
    {size r : BitVec 32} {rg rg' : VmRg} (hn1 : 1 ≤ size.toNat) (hn : size.toNat ≤ 2 ^ 22)
    (ha : AllocatesRegion b s p size r rg) (ha' : AllocatesRegion b' s' p' size r rg') :
    SameExtent size.toNat rg rg' ↔
      (256 ∣ size.toNat ∨ ¬ Fits (s.mm p) size.toNat ∧ ¬ Fits (s'.mm p') size.toNat) ∧
        (s.mm p).blockStart size.toNat = (s'.mm p').blockStart size.toNat := by
  obtain ⟨hstart, hend, hlen⟩ := ha.extent (allSpaceInv_of_buildRun h.of_guard p) hn1 hn
  obtain ⟨hstart', hend', hlen'⟩ := ha'.extent (allSpaceInv_of_buildRun h'.of_guard p') hn1 hn
  have hfill : alignedSize size.toNat = size.toNat ↔ 256 ∣ size.toNat :=
    ⟨fun heq => heq ▸ dvd_alignedSize _, alignedSize_of_dvd⟩
  have hexact : (rg.rgEnd = rg.rgStart + size.toNat ∧ rg'.rgEnd = rg'.rgStart + size.toNat) ↔
      256 ∣ size.toNat ∨ ¬ Fits (s.mm p) size.toNat ∧ ¬ Fits (s'.mm p') size.toNat := by
    rw [← hfill]
    obtain ⟨hf, he⟩ | ⟨hf, he⟩ := hlen <;> obtain ⟨hf', he'⟩ | ⟨hf', he'⟩ := hlen' <;>
      simp only [hf, hf', not_true_eq_false, not_false_eq_true, and_false, and_true, or_false,
        or_true, iff_true] <;> omega
  rw [← hexact, ← hstart, ← hstart']
  constructor
  · rintro ⟨h1, h2, hacc⟩
    exact ⟨⟨h1, h2⟩, (accepts_iff_of_length hend hend' h1 h2).mp hacc⟩
  · rintro ⟨⟨h1, h2⟩, heq⟩
    exact ⟨h1, h2, (accepts_iff_of_length hend hend' h1 h2).mpr heq⟩

/-! ## A block that is used again -/

/-- Tests whether an `ALLOC` of `p` has a meaning, executes it and tests whether `rg` is region 0
then. -/
def makesRegion (p : ι) (size : BitVec 32) (rg : VmRg) (s : System ι) : Bool :=
  decide (Defined .cpuTlb s p ⟨.ALLOC, size, 0, 0⟩ []) &&
    (run s p ⟨.ALLOC, size, 0, 0⟩ []).toOption.any fun res =>
      decide (res.1 = ⟨0, none⟩ ∧ (res.2.mm p).symrgtbl ⟨0, by decide⟩ = rg)

theorem allocatesRegion_of_test {p : ι} {size : BitVec 32} {rg : VmRg} {s : System ι}
    (h : makesRegion p size rg s = true) : AllocatesRegion .cpuTlb s p size 0 rg := by
  obtain ⟨hdef, h⟩ := Bool.and_eq_true_iff.mp h
  cases hrun : run s p ⟨.ALLOC, size, 0, 0⟩ [] with
  | error e =>
    rw [hrun] at h
    cases h
  | ok res =>
    rw [hrun] at h
    obtain ⟨hout, hrg⟩ := of_decide_eq_true h
    exact ⟨[], res.2, by decide, of_decide_eq_true hdef, hrun.trans (by rw [← hout]), hrg⟩

/-- `p` allocates a page and frees it. -/
def freedPage (p : ι) : List (Label ι) :=
  [⟨p, ⟨.ALLOC, 256, 0, 0⟩, [], ⟨0, none⟩⟩, ⟨p, ⟨.FREE, 0, 0, 0⟩, [], ⟨0, none⟩⟩]

/-- A page at the break, and the same page from the free list. -/
theorem sameExtent_page : ∃ s, (definedLts .cpuTlb (Config.two 512 0)).Run (freedPage 0) s ∧
    AllocatesRegion .cpuTlb (Config.two 512 0).init 0 256 0 ⟨0, 256⟩ ∧
    AllocatesRegion .cpuTlb s 0 256 0 ⟨0, 256⟩ ∧ SameExtent 256 ⟨0, 256⟩ ⟨0, 256⟩ := by
  obtain ⟨s, hguard, htest⟩ := exists_defined_run_of_runAll (Config.two 512 0) (fun _ _ _ => True)
    (freedPage 0) (fun s => makesRegion 0 256 ⟨0, 256⟩ s && decide ((s.mm 0).blockStart 256 = 0))
    (by decide +kernel)
  obtain ⟨hagain, hstart⟩ := Bool.and_eq_true_iff.mp htest
  have hrun : (definedLts .cpuTlb (Config.two 512 0)).Run (freedPage 0) s := hguard.of_guard
  have hfst : AllocatesRegion .cpuTlb (Config.two 512 0).init 0 256 0 ⟨0, 256⟩ :=
    allocatesRegion_of_test (by decide +kernel)
  have hsnd : AllocatesRegion .cpuTlb s 0 256 0 ⟨0, 256⟩ := allocatesRegion_of_test hagain
  have hinit : (definedLts .cpuTlb (Config.two 512 0)).Run [] (Config.two 512 0).init :=
    Lts.Run.init rfl
  exact ⟨s, hrun, hfst, hsnd, (sameExtent_iff hinit hrun (by decide) (by decide) hfst hsnd).mpr
    ⟨.inl (by decide), (of_decide_eq_true hstart).symm⟩⟩

/-- A region of 100 bytes ends at 100 when it is made at the break, and at 256 when a page on the
free list is used. -/
theorem not_sameExtent_hundred : ∃ s,
    (definedLts .cpuTlb (Config.two 512 0)).Run (freedPage 0) s ∧
    AllocatesRegion .cpuTlb (Config.two 512 0).init 0 100 0 ⟨0, 100⟩ ∧
    AllocatesRegion .cpuTlb s 0 100 0 ⟨0, 256⟩ ∧ ¬ SameExtent 100 ⟨0, 100⟩ ⟨0, 256⟩ := by
  obtain ⟨s, hguard, htest⟩ := exists_defined_run_of_runAll (Config.two 512 0) (fun _ _ _ => True)
    (freedPage 0) (makesRegion 0 100 ⟨0, 256⟩) (by decide +kernel)
  exact ⟨s, hguard.of_guard, allocatesRegion_of_test (by decide +kernel),
    allocatesRegion_of_test htest, fun h => absurd h.right (by decide)⟩

end OsSim.Mem
