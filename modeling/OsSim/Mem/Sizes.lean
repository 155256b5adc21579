import OsSim.Mem.Parts
import Mathlib.Algebra.Order.BigOperators.Group.List

/-!
# Allocations of every size

The size of an `ALLOC` is a `uint32_t`, `__alloc` takes it as an `int`, and
`PAGING_PAGE_ALIGNSZ` rounds `int`s. So a size from `2^31 - 255` on is rounded to a
negative number, and 0 and the last 510 sizes are rounded to 0. With 0 every region
fits, and the loop of `get_free_vmrg_area` stays at the first one for ever; the list
is never empty, since its last node is kept as a dummy. With a negative size a region
fits if the sum, an `unsigned long`, does not wrap around: `__alloc` then succeeds and
maps nothing.

Results:
* `getFreeVmrgArea_isSome_iff`: for which rounded sizes the search ends.
* `freerg_ne_nil_of_run`: in every run the free list has a node.
* `allocReturns_iff`: when `__alloc` returns, and with an error if it has to.
-/

namespace OsSim.Mem

variable {ι : Type*} [DecidableEq ι]

/-! ## What is asked for -/

/-- `n` bytes can be had: there are addresses below `2^31` for them, and frames for their pages. -/
def Servable (s : System ι) (p : ι) (n : ℕ) : Prop :=
  (Fits (s.mm p) n ∨ (s.mm p).mmap.sbrk + alignedSize n < 2 ^ 31) ∧
    Found s p (alignedSize n / 256)

/-- `__alloc` returns, and with an error if the size cannot be served, and what it does until then
has a meaning. -/
def AllocReturns (s : System ι) (p : ι) (r : Fin pagingMaxSymtblSz) (size : BitVec 32)
    (raw : List ℤ) : Prop :=
  AllocDefined s p (argInt size) ∧
    ∃ stat addr t, alloc s p r (argInt size) raw = .ok (stat, addr, t) ∧
      (¬ Servable s p size.toNat → stat = -1)

/-! ## Rounding -/

section

variable {size : BitVec 32}

theorem argInt_add (size : BitVec 32) : i32 (argInt size + 255) = i32 (size.toNat + 255) := by
  rw [argInt, i32_eq, i32_eq, i32_eq]
  omega

theorem pagingPageAlignsz_zero_iff :
    pagingPageAlignsz (argInt size) = 0 ↔ ¬ (1 ≤ size.toNat ∧ size.toNat ≤ 2 ^ 32 - 511) := by
  have hlt := size.isLt
  have hsum := i32_eq (size.toNat + 255)
  rw [pagingPageAlignsz_eq, argInt_add]
  rcases Int.le_total 0 (i32 (size.toNat + 255)) with hpos | hneg
  · rw [Int.tdiv_eq_ediv_of_nonneg hpos]
    omega
  · rw [← neg_neg (i32 (size.toNat + 255)), Int.neg_tdiv, Int.tdiv_eq_ediv_of_nonneg (by omega)]
    omega

/-- Sizes that are rounded down below 0. -/
theorem pagingPageAlignsz_neg (h0 : 2 ^ 31 ≤ size.toNat + 255) (h1 : size.toNat ≤ 2 ^ 32 - 511) :
    -2 ^ 31 ≤ pagingPageAlignsz (argInt size) ∧ pagingPageAlignsz (argInt size) < 0 := by
  obtain ⟨hlo, hhi⟩ := argInt_range size
  have hlt := size.isLt
  have hint : argInt size = (size.toNat + 2 ^ 31) % 2 ^ 32 - 2 ^ 31 := i32_eq _
  obtain ⟨hneg, hle⟩ := pagingPageAlignsz_nonpos hlo hhi (by omega)
  have hne : pagingPageAlignsz (argInt size) ≠ 0 := fun h =>
    pagingPageAlignsz_zero_iff.mp h ⟨by omega, h1⟩
  exact ⟨hneg, lt_of_le_of_ne hle hne⟩

omit [DecidableEq ι] in
theorem not_servable {s : System ι} {p : ι} (h : SpaceInv (s.mm p)) {n : ℕ}
    (hn : 2 ^ 31 ≤ n + 255) : ¬ Servable s p n := by
  have hbig : 2 ^ 31 ≤ alignedSize n := by
    unfold alignedSize
    omega
  rintro ⟨⟨rg, hrg, hfit⟩ | hlt, -⟩
  · have hend := (h.free rg hrg).bound
    have hbound := h.bound
    omega
  · omega

end

/-! ## The search -/

section

variable {sbrk : ℕ} (hs : sbrk < 2 ^ 31)

include hs

/-- With size 0 the loop never leaves the list. -/
theorem getFreeVmrgLoop_zero (fuel : ℕ) (rgs : List VmRg) (newrg : VmRg) (hne : rgs ≠ [])
    (hr : ∀ rg ∈ rgs, rg.Under sbrk) : getFreeVmrgLoop 0 fuel rgs newrg = none := by
  induction fuel generalizing rgs newrg with
  | zero =>
    cases rgs with
    | nil => exact absurd rfl hne
    | cons => rfl
  | succ fuel ih =>
    obtain ⟨rgit, rgNext, rfl⟩ := List.exists_cons_of_ne_nil hne
    obtain ⟨hb, hrn⟩ := List.forall_mem_cons.mp hr
    have hle := hb.le
    have hend := hb.bound
    rw [getFreeVmrgLoop, add_zero, u64_natCast (by omega), if_pos hle]
    simp only
    split_ifs
    · exact ih _ _ (by simp) hr
    · cases rgNext with
      | nil => exact ih _ _ (by simp) (List.forall_mem_cons.mpr ⟨hb.dummy, hrn⟩)
      | cons nextrg rest => exact ih _ _ (by simp) hrn

/-- With a negative size a fit moves the start of the region down. -/
theorem getFreeVmrgLoop_neg_ends {size : ℤ} (h0 : -2 ^ 31 ≤ size) (h1 : size < 0) (fuel : ℕ)
    (rgs : List VmRg) (newrg : VmRg) (hr : ∀ rg ∈ rgs, rg.Under sbrk)
    (hfuel : (rgs.map fun rg => rg.rgStart + 1).sum < fuel) :
    (getFreeVmrgLoop size fuel rgs newrg).isSome := by
  induction fuel generalizing rgs newrg with
  | zero => omega
  | succ fuel ih =>
    cases rgs with
    | nil => rfl
    | cons rgit rgNext =>
      obtain ⟨hb, hrn⟩ := List.forall_mem_cons.mp hr
      have hle := hb.le
      have hend := hb.bound
      have hsum := u64_cast (rgit.rgStart + size)
      rw [List.map_cons, List.sum_cons] at hfuel
      rw [getFreeVmrgLoop]
      simp only
      split_ifs with hfit hlt
      · refine ih _ _ (List.forall_mem_cons.mpr ⟨⟨hfit, hend⟩, hrn⟩) ?_
        simp only [List.map_cons, List.sum_cons]
        omega
      · omega
      · rw [Option.isSome_map]
        exact ih _ _ hrn (by omega)

theorem getFreeVmrgArea_isSome_iff {size : ℤ} (h0 : -2 ^ 31 ≤ size) (h1 : size < 2 ^ 31)
    {freerg : List VmRg} (hne : freerg ≠ []) (hr : ∀ rg ∈ freerg, rg.Under sbrk) :
    (getFreeVmrgArea freerg size).isSome ↔ size ≠ 0 := by
  obtain ⟨rgit, rgNext, rfl⟩ := List.exists_cons_of_ne_nil hne
  have hloop : (getFreeVmrgArea (rgit :: rgNext) size).isSome = (getFreeVmrgLoop size
      (getFreeVmrgFuel (rgit :: rgNext)) (rgit :: rgNext) ⟨ulongMax, ulongMax⟩).isSome := by
    unfold getFreeVmrgArea
    cases getFreeVmrgLoop size _ (rgit :: rgNext) ⟨ulongMax, ulongMax⟩ with
    | none => rfl
    | some res =>
      simp only
      split_ifs <;> rfl
  rw [hloop]
  obtain hneg | rfl | hpos := lt_trichotomy size 0
  · refine iff_of_true (getFreeVmrgLoop_neg_ends hs h0 hneg _ _ _ hr ?_) hneg.ne
    rw [getFreeVmrgFuel, Nat.lt_succ_iff]
    exact List.sum_le_sum fun rg _ => by omega
  · rw [getFreeVmrgLoop_zero hs _ _ _ hne hr]
    simp
  · obtain ⟨n, rfl⟩ : ∃ n : ℕ, size = n := ⟨size.toNat, by omega⟩
    refine iff_of_true (getFreeVmrgLoop_ends (by omega) _ _ _ (fun rg hrg => ?_)
      (turnsLeft_lt_fuel _)) (by omega)
    exact (hr rg hrg).sound hs (by omega)

end

/-! ## The free list -/

/-- The loop leaves a node. -/
theorem getFreeVmrgLoop_ne_nil {size : ℤ} (fuel : ℕ) (old rgs : List VmRg) (newrg0 newrg : VmRg)
    (hne : old ≠ []) (h : getFreeVmrgLoop size fuel old newrg0 = some (rgs, newrg)) :
    rgs ≠ [] := by
  induction fuel generalizing old rgs newrg0 newrg with
  | zero =>
    cases old with
    | nil => exact absurd rfl hne
    | cons => cases h
  | succ fuel ih =>
    obtain ⟨rgit, rgNext, rfl⟩ := List.exists_cons_of_ne_nil hne
    rw [getFreeVmrgLoop] at h
    simp only at h
    split_ifs at h
    · exact ih _ _ _ _ (by simp) h
    · cases rgNext with
      | nil => exact ih _ _ _ _ (by simp) h
      | cons nextrg rest => exact ih _ _ _ _ (by simp) h
    · obtain ⟨r, -, heq⟩ := Option.map_eq_some_iff.mp h
      cases heq
      simp

theorem getFreeVmrgArea_ne_nil {size : ℤ} {freerg rgs : List VmRg} {newrg : Option VmRg}
    (hne : freerg ≠ []) (h : getFreeVmrgArea freerg size = some (newrg, rgs)) : rgs ≠ [] := by
  obtain ⟨rgit, rgNext, rfl⟩ := List.exists_cons_of_ne_nil hne
  unfold getFreeVmrgArea at h
  cases hl : getFreeVmrgLoop size (getFreeVmrgFuel (rgit :: rgNext)) (rgit :: rgNext)
      ⟨ulongMax, ulongMax⟩ with
  | none => simp [hl] at h
  | some res =>
    simp only [hl] at h
    split_ifs at h <;> cases h <;> exact getFreeVmrgLoop_ne_nil _ _ _ _ _ hne hl

theorem enlistVmFreergList_ne_nil {rgs : List VmRg} (h : rgs ≠ []) (rg : VmRg) :
    enlistVmFreergList rgs rg ≠ [] := by
  unfold enlistVmFreergList
  split_ifs
  · exact h
  · simp

section

variable {p : ι} {s t : System ι}

/-- `__alloc` leaves a node on the free list. -/
theorem alloc_freerg_ne_nil (h : SpaceInv (s.mm p)) (hne : (s.mm p).mmap.vmFreergList ≠ [])
    {r : Fin pagingMaxSymtblSz} {size : ℤ} (h0 : -2 ^ 31 ≤ size) (h1 : size < 2 ^ 31)
    {raw : List ℤ} {stat addr : ℤ} (halloc : alloc s p r size raw = .ok (stat, addr, t)) :
    (t.mm p).mmap.vmFreergList ≠ [] := by
  unfold alloc at halloc
  cases hget : getFreeVmrgArea (s.mm p).mmap.vmFreergList (pagingPageAlignsz size) with
  | none => simp [hget] at halloc
  | some res =>
    obtain ⟨newrg, rgs⟩ := res
    have hrgs := getFreeVmrgArea_ne_nil hne hget
    obtain ⟨heq, hno⟩ | ⟨rg, rgs', heq, -⟩ := getFreeVmrgArea_under h.bound h.free hget <;>
      cases heq <;> simp only [hget, Except.ok.injEq] at halloc
    · rw [show setFreerg s p (s.mm p).mmap.vmFreergList = s from System.setMm_eta s p] at halloc
      obtain ⟨mm, hpaged, hspace⟩ := allocSbrk_space h r h0 h1
        (fun ⟨rg, hm, hfit⟩ => hno rg hm hfit) halloc
      rw [hpaged.space.mmap, System.setMm_self]
      cases hspace with
      | reused hfit | reuseFailed hfit => exact absurd hfit fun ⟨rg, hm, hfit⟩ => hno rg hm hfit
      | raised | raiseFailed | refused => exact hne
    · obtain ⟨stat', addr', s1, hres, hstat⟩ := allocFreerg_space (setFreerg s p rgs) p r rg raw
      rw [hres] at halloc
      cases halloc
      obtain ⟨-, -, hpaged⟩ | ⟨-, -, hpaged⟩ := hstat
      · rw [hpaged.space.mmap, System.setMm_self, setFreerg_self]
        exact hrgs
      · rw [hpaged.space.mmap, System.setMm_self, setFreerg_self]
        exact enlistVmFreergList_ne_nil hrgs rg

theorem Part.freerg_ne_nil (h : Part p s t) (hs : SpaceInv (s.mm p))
    (hne : (s.mm p).mmap.vmFreergList ≠ []) : (t.mm p).mmap.vmFreergList ≠ [] := by
  cases h with
  | getpage pgn =>
    rw [(Paged.pgGetpage s pgn).space.mmap]
    exact hne
  | alloc _ halloc => exact alloc_freerg_ne_nil hs hne (argInt_range _).1 (argInt_range _).2 halloc
  | free r =>
    obtain ⟨-, ht⟩ | ⟨-, ht⟩ := free_space s p r
    · rw [ht.space.mmap]
      exact hne
    · rw [ht.space.mmap, System.setMm_self]
      exact enlistVmFreergList_ne_nil hne _
  | devices hmm =>
    rw [hmm]
    exact hne

/-- In every run the free list of a process has a node. -/
theorem freerg_ne_nil_of_run {b : Build} {c : Config ι} {tr : List (Label ι)}
    (h : (definedLts b c).Run tr s) (p : ι) :
    SpaceInv (s.mm p) ∧ (s.mm p).mmap.vmFreergList ≠ [] :=
  invariant_of_parts (I := fun mm => mm.mmap.vmFreergList ≠ []) (by simp [initMm, Mm.zero])
    (fun _ _ _ hpart hs hne => hpart.freerg_ne_nil hs hne) h p

end

/-! ## What `__alloc` is going to map -/

section

variable {size : ℤ} (h0 : -2 ^ 31 ≤ size) (h1 : size < 2 ^ 31)

include h0 h1

/-- A size that is rounded to a positive number. -/
theorem exists_of_pagingPageAlignsz_pos (hpos : 0 < pagingPageAlignsz size) :
    ∃ n : ℕ, size = n ∧ 1 ≤ n ∧ n + 255 < 2 ^ 31 ∧ pagingPageAlignsz size = alignedSize n := by
  have hsize : 1 ≤ size ∧ size + 255 < 2 ^ 31 := by
    by_contra hno
    exact absurd hpos (not_lt.mpr (pagingPageAlignsz_nonpos h0 h1 hno).2)
  obtain ⟨n, rfl⟩ : ∃ n : ℕ, size = n := ⟨size.toNat, by omega⟩
  exact ⟨n, rfl, by omega, by omega, pagingPageAlignsz_of_lt (by omega)⟩

theorem pagingPageAlignsz_range :
    -2 ^ 31 ≤ pagingPageAlignsz size ∧ pagingPageAlignsz size + 255 < 2 ^ 31 := by
  by_cases hsize : 1 ≤ size ∧ size + 255 < 2 ^ 31
  · obtain ⟨n, rfl⟩ : ∃ n : ℕ, size = n := ⟨size.toNat, by omega⟩
    rw [pagingPageAlignsz_of_lt (by omega)]
    unfold alignedSize
    omega
  · obtain ⟨hlo, hhi⟩ := pagingPageAlignsz_nonpos h0 h1 hsize
    exact ⟨hlo, by omega⟩

/-- The number of pages that `inc_vma_limit` and `__alloc` compute from a rounded size. -/
theorem pages_pagingPageAlignsz :
    ((pagingPageAlignsz (pagingPageAlignsz size)).tdiv pagingPagesz).toNat =
      (pagingPageAlignsz size).toNat / 256 := by
  obtain ⟨hlo, hhi⟩ := pagingPageAlignsz_range h0 h1
  by_cases hpos : 0 < pagingPageAlignsz size
  · obtain ⟨n, -, -, hn, heq⟩ := exists_of_pagingPageAlignsz_pos h0 h1 hpos
    rw [heq, pagingPageAlignsz_of_lt (alignedSize_lt hn), alignedSize_of_dvd (dvd_alignedSize n)]
    rfl
  · have hneg := (pagingPageAlignsz_nonpos hlo (by omega) (by omega)).2
    have hdiv := Int.tdiv_le_tdiv (c := pagingPagesz) (by decide) hneg
    rw [Int.zero_tdiv] at hdiv
    rw [Int.toNat_of_nonpos hdiv, Int.toNat_of_nonpos (not_lt.mp hpos), Nat.zero_div]

/-- What `__alloc` is going to map. -/
theorem allocPlan_cases {mm : Mm} (h : SpaceInv mm) (hne : mm.mmap.vmFreergList ≠ [])
    (ha : pagingPageAlignsz size ≠ 0) :
    ((Fitting mm size ∨
        0 < pagingPageAlignsz size ∧ mm.mmap.sbrk + pagingPageAlignsz size < 2 ^ 31) ∧
      ∃ addr : ℕ, addr + (pagingPageAlignsz size).toNat < 2 ^ 31 ∧ allocPlan mm size =
        some ⟨pagingPgn addr, (pagingPageAlignsz size).toNat / 256, addr⟩) ∨
    (¬ Fitting mm size ∧
      ¬ (0 < pagingPageAlignsz size ∧ mm.mmap.sbrk + pagingPageAlignsz size < 2 ^ 31) ∧
      allocPlan mm size = none) := by
  obtain ⟨hlo, hhi⟩ := pagingPageAlignsz_range h0 h1
  have hpages := pages_pagingPageAlignsz h0 h1
  have hbound := h.bound
  obtain ⟨res, hget⟩ := Option.isSome_iff_exists.mp
    ((getFreeVmrgArea_isSome_iff hbound hlo (by omega) hne h.free).mpr ha)
  obtain ⟨rfl, hno⟩ | ⟨rg, rgs, rfl, hfit, -, hstart, hend, hlen⟩ :=
    getFreeVmrgArea_under hbound h.free hget
  · -- no region fits
    have hfit : ¬ Fitting mm size := fun ⟨rg, hm, hfit⟩ => hno rg hm hfit
    have hsum := u64_cast (mm.mmap.sbrk + pagingPageAlignsz size)
    have hint := i32_eq (u64 (mm.mmap.sbrk + pagingPageAlignsz size))
    simp only [allocPlan, hget, h.vmNext, validateOverlapVmArea_nil, h.vmEnd, i32_natCast hbound,
      hpages]
    by_cases hraise : 0 < pagingPageAlignsz size ∧
        mm.mmap.sbrk + pagingPageAlignsz size < 2 ^ 31
    · rw [if_neg (by omega)]
      exact .inl ⟨.inr hraise, mm.mmap.sbrk, by omega, rfl⟩
    · rw [if_pos (by omega)]
      exact .inr ⟨hfit, hraise, rfl⟩
  · -- the region found
    have hsum := u64_cast (rg.rgStart + pagingPageAlignsz size)
    have hlen' : (rg.rgEnd : ℤ) - rg.rgStart = pagingPageAlignsz size := by omega
    have hcount : regionPages rg = (pagingPageAlignsz size).toNat / 256 := by
      rw [regionPages, hlen', i32_of_range hlo (by omega), hpages]
    refine .inl ⟨.inl hfit, rg.rgStart, by omega, ?_⟩
    simp only [allocPlan, hget, hcount, i32_natCast (show rg.rgStart < 2 ^ 31 by omega)]

end

/-! ## `__alloc` -/

section

variable {s : System ι} {p : ι}

/-- `__alloc` does not return for a size that is rounded to 0. -/
theorem alloc_diverges (h : SpaceInv (s.mm p)) (hne : (s.mm p).mmap.vmFreergList ≠ [])
    {size : ℤ} (ha : pagingPageAlignsz size = 0) (r : Fin pagingMaxSymtblSz) (raw : List ℤ) :
    alloc s p r size raw = .error .diverges := by
  have hget : getFreeVmrgArea (s.mm p).mmap.vmFreergList (pagingPageAlignsz size) = none := by
    rw [← Option.not_isSome_iff_eq_none, ha, getFreeVmrgArea_isSome_iff h.bound (by norm_num)
      (by norm_num) hne h.free]
    exact not_not.mpr rfl
  simp only [alloc, hget]

/-- For the other sizes it does, and carries out its plan if it has one and finds the frames. -/
theorem alloc_returns (h : SpaceInv (s.mm p)) (hne : (s.mm p).mmap.vmFreergList ≠ [])
    {size : ℤ} (h0 : -2 ^ 31 ≤ size) (h1 : size < 2 ^ 31) (ha : pagingPageAlignsz size ≠ 0)
    (r : Fin pagingMaxSymtblSz) (raw : List ℤ) :
    ∃ res, alloc s p r size raw = .ok res ∧ Planned s p size res := by
  obtain ⟨heq, -⟩ | hres := alloc_plain s p r size raw
  · have hget := (getFreeVmrgArea_isSome_iff h.bound (pagingPageAlignsz_range h0 h1).1
      (by have := (pagingPageAlignsz_range h0 h1).2; omega) hne h.free).mpr ha
    obtain ⟨⟨newrg, rgs⟩, hget⟩ := Option.isSome_iff_exists.mp hget
    cases newrg <;> simp [alloc, hget] at heq
  · exact hres

omit [DecidableEq ι] in
/-- The sizes that are rounded up are served whenever they can be. -/
theorem Planned.servable_iff (h : SpaceInv (s.mm p)) (hne : (s.mm p).mmap.vmFreergList ≠ [])
    {n : ℕ} (hn1 : 1 ≤ n) (hn : n + 255 < 2 ^ 31) {res : ℤ × ℤ × System ι}
    (hres : Planned s p n res) :
    (res.1 = 0 ∧ Servable s p n) ∨ (res.1 = -1 ∧ ¬ Servable s p n) := by
  have hle := le_alignedSize n
  have heq := pagingPageAlignsz_of_lt hn
  obtain ⟨hend⟩ := hres
  unfold Servable
  rw [← fitting_iff h hn]
  obtain ⟨hroom, addr, -, hplan⟩ | ⟨hfit, hbrk, hplan⟩ :=
    allocPlan_cases (show -2 ^ 31 ≤ (n : ℤ) by omega) (by omega) h hne (by omega) <;>
    rw [hplan] at hend
  · rw [heq] at hroom hend
    simp only [Option.some.injEq, forall_eq', exists_eq_left', Int.toNat_natCast] at hend
    have hroom' : Fitting (s.mm p) n ∨ (s.mm p).mmap.sbrk + alignedSize n < 2 ^ 31 :=
      hroom.imp_right fun hr => by omega
    rw [and_iff_right hroom']
    obtain ⟨hstat, hno⟩ | ⟨hstat, hf, -⟩ := hend
    · exact .inr ⟨hstat, hno⟩
    · exact .inl ⟨hstat, hf⟩
  · rw [heq] at hbrk
    refine .inr ⟨?_, fun hs => hs.1.elim hfit fun hlt => hbrk (by omega)⟩
    obtain ⟨hstat, -⟩ | ⟨-, plan, hno, -⟩ := hend
    · exact hstat
    · cases hno

omit [DecidableEq ι] in
/-- For a size that is rounded down below 0 nothing is mapped, and this fails only if no region is
taken to fit. -/
theorem Planned.stat_iff_of_neg (h : SpaceInv (s.mm p)) (hne : (s.mm p).mmap.vmFreergList ≠ [])
    {size : ℤ} (h0 : -2 ^ 31 ≤ size) (h1 : size < 2 ^ 31) (ha : pagingPageAlignsz size < 0)
    {res : ℤ × ℤ × System ι} (hres : Planned s p size res) :
    (res.1 = 0 ∧ Fitting (s.mm p) size) ∨ (res.1 = -1 ∧ ¬ Fitting (s.mm p) size) := by
  obtain ⟨hend⟩ := hres
  obtain ⟨hroom, addr, -, hplan⟩ | ⟨hfit, -, hplan⟩ := allocPlan_cases h0 h1 h hne ha.ne <;>
    rw [hplan] at hend
  · have hfit := hroom.resolve_right fun hpos => absurd hpos.1 (not_lt.mpr ha.le)
    obtain ⟨-, hno⟩ | ⟨hstat, -⟩ := hend
    · refine absurd ?_ (hno _ rfl)
      rw [Int.toNat_of_nonpos ha.le]
      exact ⟨by simp, by simp⟩
    · exact .inl ⟨hstat, hfit⟩
  · obtain ⟨hstat, -⟩ | ⟨-, plan, hno, -⟩ := hend
    · exact .inr ⟨hstat, hfit⟩
    · cases hno

/-- A region is taken to fit if the sum does not wrap around. -/
theorem fitting_neg_iff {mm : Mm} (h : SpaceInv mm) {size : ℤ}
    (hlo : -2 ^ 31 ≤ pagingPageAlignsz size) (ha : pagingPageAlignsz size < 0) :
    Fitting mm size ↔ ∃ rg ∈ mm.mmap.vmFreergList, 0 ≤ rg.rgStart + pagingPageAlignsz size := by
  refine exists_congr fun rg => and_congr_right fun hm => ?_
  have hle := (h.free rg hm).le
  have hend := (h.free rg hm).bound
  have hbound := h.bound
  have hsum := u64_cast (rg.rgStart + pagingPageAlignsz size)
  omega

end

/-- In every run of either build: `__alloc` returns, and with an error if the size cannot be served,
exactly if the size is from 1 to `2^32 - 511`; from `2^31 - 255` on no free region starts so high
that the rounded size, which is negative, can be added to its start; the list does not lead to the
variable of an `__alloc` that has returned; and the pages to be mapped have entries. -/
theorem allocReturns_iff {b : Build} {c : Config ι} {tr : List (Label ι)} {s : System ι}
    (h : (definedLts b c).Run tr s) (p : ι) (r : Fin pagingMaxSymtblSz) (size : BitVec 32)
    (raw : List ℤ) :
    AllocReturns s p r size raw ↔ (1 ≤ size.toNat ∧ size.toNat ≤ 2 ^ 32 - 511) ∧
      (2 ^ 31 ≤ size.toNat + 255 → ∀ rg ∈ (s.mm p).mmap.vmFreergList,
        rg.rgStart + pagingPageAlignsz (argInt size) < 0) ∧
      (s.mm p).mmap.dangling = false ∧ MapsInTable s p (argInt size) := by
  obtain ⟨hs, hne⟩ := freerg_ne_nil_of_run h p
  obtain ⟨h0, h1⟩ := argInt_range size
  unfold AllocReturns
  rw [allocDefined_iff]
  refine (and_comm.trans (and_congr_left fun _ => ?_)).trans and_assoc
  by_cases ha : pagingPageAlignsz (argInt size) = 0
  · rw [alloc_diverges hs hne ha]
    exact iff_of_false (by simp) fun hc => pagingPageAlignsz_zero_iff.mp ha hc.1
  obtain ⟨⟨stat, addr, t⟩, heq, hres⟩ := alloc_returns hs hne h0 h1 ha r raw
  have hsize := not_not.mp (mt pagingPageAlignsz_zero_iff.mpr ha)
  rw [heq, and_iff_right hsize]
  have hstat : (∃ stat' addr' t', (Except.ok (stat, addr, t) : Except Fault _) =
      .ok (stat', addr', t') ∧ (¬ Servable s p size.toNat → stat' = -1)) ↔
      (¬ Servable s p size.toNat → stat = -1) := by
    constructor
    · rintro ⟨_, _, _, ⟨⟩, hstat⟩
      exact hstat
    · exact fun hstat => ⟨_, _, _, rfl, hstat⟩
  rw [hstat]
  by_cases hbig : 2 ^ 31 ≤ size.toNat + 255
  · obtain ⟨hlo, hneg⟩ := pagingPageAlignsz_neg hbig hsize.2
    have hfit := fitting_neg_iff hs hlo hneg
    rw [forall_prop_of_true hbig, forall_prop_of_true (not_servable hs hbig)]
    obtain ⟨rfl, hyes⟩ | ⟨rfl, hno⟩ := hres.stat_iff_of_neg hs hne h0 h1 hneg
    · obtain ⟨rg, hm, hge⟩ := hfit.mp hyes
      exact iff_of_false (by decide) fun hall => absurd (hall rg hm) (not_lt.mpr hge)
    · refine iff_of_true rfl fun rg hm => not_le.mp fun hge => hno (hfit.mpr ⟨rg, hm, hge⟩)
  · rw [argInt_eq (by omega)] at hres
    refine iff_of_true (fun hno => ?_) fun hge => absurd hge hbig
    obtain ⟨-, hyes⟩ | ⟨hstat, -⟩ := hres.servable_iff hs hne hsize.1 (by omega)
    · exact absurd hyes hno
    · exact hstat

/-- At the start a page is served. -/
theorem allocReturns_page : AllocReturns (Config.two 512 0).init 0 0 256#32 [] :=
  (allocReturns_iff (show (definedLts .cpuTlb (Config.two 512 0)).Run [] _ from ⟨_, rfl, .nil⟩) 0 0
    256#32 []).mpr ⟨by decide, fun h => absurd h (by decide), rfl, by decide⟩

/-- At the start the search for 0 bytes does not end. -/
theorem not_allocReturns_zero : ¬ AllocReturns (Config.two 512 0).init 0 0 0#32 [] := by
  rintro ⟨-, stat, addr, t, heq, -⟩
  rw [alloc_diverges MmInv.initMm.spaceInv (by simp [Config.init, initMm, Mm.zero])
    (pagingPageAlignsz_zero_iff.mpr (by decide))] at heq
  cases heq

end OsSim.Mem
