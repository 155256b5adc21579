import OsSim.Mem.Defined

/-!
# Freed regions

A program allocates a block, frees it, and allocates again. `__alloc` records the
exact end of a block for which it raises the break, and the end of the last page
of a block from the free list. `__free` puts the block on the list as it was
recorded, and `get_free_vmrg_area` asks for whole pages. So a freed block serves
an allocation that is no larger only if the size fits into it in whole pages.

Results:
* `Cycle.space`: the break and the free list after a block has been allocated and
  freed; freeing always succeeds.
* `Cycle.sameBreak_iff`: when an allocation that follows leaves the break alone.
* `reuse_of_run`: this in every run, and a bound on the break for a program that
  goes on in this way.
* `Cycles.leak`: a program whose blocks do not fill their pages raises the break
  each time.
-/

namespace OsSim.Mem

open BitField

variable {ι : Type*} [DecidableEq ι]

/-! ## Programs -/

section

variable (c : Config ι) (p : ι)

/-- Process `p` executes `ALLOC` for `n` bytes and region `r`, which has a meaning and succeeds. -/
def Allocates (n : ℕ) (r : BitVec 32) (s s' : System ι) : Prop :=
  ∃ ins raw, ins.opcode = .ALLOC ∧ ins.arg0.toNat = n ∧ ins.arg1 = r ∧
    Defined .cpuTlb s p ins raw ∧ run s p ins raw = .ok (⟨0, none⟩, s')

/-- Process `p` executes `FREE` for region `r`, with success. -/
def Frees (r : BitVec 32) (s s' : System ι) : Prop :=
  ∃ ins raw, ins.opcode = .FREE ∧ ins.arg0 = r ∧ run s p ins raw = .ok (⟨0, none⟩, s')

/-- Process `p` neither allocates nor frees; it may use its memory, and other processes may do
anything. -/
def Idle (s s' : System ι) : Prop :=
  ∃ tr, (definedLts .cpuTlb c).Path s tr s' ∧
    ∀ a ∈ tr, a.proc = p → a.ins.opcode ≠ .ALLOC ∧ a.ins.opcode ≠ .FREE

/-- Process `p` allocates a block of `n` bytes and frees it. -/
structure Cycle (n : ℕ) (s t : System ι) : Prop where
  pos : 1 ≤ n
  le : n ≤ 2 ^ 22
  steps : ∃ r s1 s2 s3, Allocates p n r s s1 ∧ Idle c p s1 s2 ∧ Frees p r s2 s3 ∧ Idle c p s3 t

end

/-- The break of the first area. -/
def SameBreak (mm mm' : Mm) : Prop :=
  mm'.mmap.sbrk = mm.mmap.sbrk ∧ mm'.mmap.vmEnd = mm.mmap.vmEnd

/-! ## Pages of a block that is in use -/

/-- The regions of `p` are as before, and its resident pages still are. -/
structure Keeps (p : ι) (s s' : System ι) : Prop where
  paged : Paged p s s'
  resident : ∀ k, Resident ((s.mm p).pgd k) → Resident ((s'.mm p).pgd k)

section

variable {p : ι} {s s' s'' : System ι}

omit [DecidableEq ι] in
theorem Keeps.of_mm (h : s'.mm = s.mm) : Keeps p s s' := ⟨.of_mm h, fun _ hk => h ▸ hk⟩

omit [DecidableEq ι] in
theorem Keeps.trans (h : Keeps p s s') (h' : Keeps p s' s'') : Keeps p s s'' :=
  ⟨h.paged.trans h'.paged, fun k hk => h'.resident k (h.resident k hk)⟩

theorem Keeps.pgGetpage (s : System ι) (pgn : ℕ) : Keeps p s (pgGetpage s p pgn).2.2 := by
  refine ⟨.pgGetpage s pgn, fun k hk => ?_⟩
  obtain ⟨-, hr⟩ | ⟨-, hr⟩ | ⟨-, -, -, hr⟩ | ⟨-, -, fpn, rest, -, -, hr⟩ :=
    pgGetpage_cases s p pgn <;> rw [hr]
  · exact hk
  · exact hk
  · rw [System.setFifo_self]
    exact hk
  · simp only [swapIn_mm, mmSwappedIn, Function.update_apply]
    split_ifs
    · exact resident_pteSetFpn ..
    · exact hk

/-- A page that `pg_getpage` has found is resident. -/
theorem resident_pgGetpage {pgn : ℕ} (h : (pgGetpage s p pgn).1 = 0) :
    Resident (((pgGetpage s p pgn).2.2.mm p).pgd pgn) := by
  obtain ⟨-, hr⟩ | ⟨hres, hr⟩ | ⟨-, -, -, hr⟩ | ⟨-, -, fpn, rest, -, -, hr⟩ :=
    pgGetpage_cases s p pgn <;> rw [hr] at h ⊢
  · cases h
  · exact hres
  · cases h
  · simp only [swapIn_mm, mmSwappedIn, Function.update_self]
    exact resident_pteSetFpn ..

theorem Keeps.tlbCachePages (left pgn : ℕ) (s : System ι) :
    Keeps p s (tlbCachePages p left pgn s).2 ∧
      ((tlbCachePages p left pgn s).1 = 0 → ∀ k, InRange pgn left k →
        Resident (((tlbCachePages p left pgn s).2.mm p).pgd k)) := by
  induction left generalizing pgn s with
  | zero =>
    refine ⟨.of_mm rfl, fun _ k hk => absurd hk.2 ?_⟩
    have := hk.1
    omega
  | succ left ih =>
    have hget := Keeps.pgGetpage (p := p) s pgn
    have hres : (Mem.pgGetpage s p pgn).1 = 0 →
        Resident (((Mem.pgGetpage s p pgn).2.2.mm p).pgd pgn) := resident_pgGetpage
    unfold Mem.tlbCachePages
    generalize Mem.pgGetpage s p pgn = res at hget hres
    obtain ⟨ret, frmnum, s1⟩ := res
    simp only at hget hres ⊢
    split_ifs with hret hfrm
    · exact ⟨hget, fun h => by cases h⟩
    · exact ⟨hget, fun h => by cases h⟩
    · obtain ⟨hkeep, hall⟩ :=
        ih (pgn + 1) { s1 with tlb := tlbCacheWrite s1.tlb (s1.pidInt p) pgn frmnum }
      refine ⟨.trans ?_ hkeep, fun h0 k hk => ?_⟩
      · exact hget.trans (.of_mm rfl)
      by_cases e : k = pgn
      · rw [e]
        exact hkeep.resident pgn (hres (not_not.mp hret))
      · exact hall h0 k ⟨by have := hk.1; omega, by have := hk.2; omega⟩

theorem Keeps.tlbFrame (s : System ι) (pgn : ℕ) : Keeps p s (tlbFrame s p pgn).2 := by
  have hget := Keeps.pgGetpage (p := p) s pgn
  unfold Mem.tlbFrame
  simp only
  split_ifs
  · exact hget
  · exact hget.trans (.of_mm rfl)
  · exact .of_mm rfl

theorem Accessed.keeps {rgid offset : BitVec 32} (h : Accessed s p rgid offset s') :
    Keeps p s s' := by
  obtain ⟨pgn, -, rfl⟩ := h.exists_page
  exact .tlbFrame s pgn

end

/-! ## Instructions -/

section

variable {s s' : System ι} {p : ι} {ins : Inst} {raw : List ℤ} {o : Outcome}

/-- `tlbfree_data` does what `__free` does; besides it changes the TLB. -/
theorem tlbfreeData_free (s : System ι) (p : ι) {regIndex : BitVec 32}
    (hid : regIndex.toNat < pagingMaxSymtblSz) : ∃ tlb, tlbfreeData s p regIndex =
      .ok (0, (free s p ⟨regIndex.toNat, hid⟩).2.setTlb tlb) := by
  have hsnd := fun tlb => congrArg Prod.snd (free_setTlb s tlb p ⟨regIndex.toNat, hid⟩)
  unfold tlbfreeData
  rw [getSymrgById_eq hid]
  exact ⟨_, congrArg (fun t => Except.ok (0, t)) (hsnd _)⟩

/-- An instruction keeps the invariant of its process. -/
theorem SpaceInv.run (h : SpaceInv (s.mm p))
    (hrun : run s p ins raw = .ok (o, s')) :
    ∃ mm, SpaceInv mm ∧ Paged p (s.setMm p mm) s' := by
  cases executed_of_run hrun with
  | compute => exact h.same (.refl p s)
  | alloc hop hid _ hr =>
    obtain ⟨ret, addr, s1, mm, hspace, hpaged, -⟩ := tlballoc_space h hid hr
    exact ⟨mm, hspace.spaceInv h, hpaged⟩
  | free hop hr =>
    obtain he | hid := lt_of_tlbfreeData hr
    · cases he
      exact h.same (.refl p s)
    · obtain ⟨tlb, heq⟩ := tlbfreeData_free s p hid
      rw [heq] at hr
      cases hr
      obtain ⟨mm, hmm, hpaged⟩ := h.freed ⟨ins.arg0.toNat, hid⟩
      exact ⟨mm, hmm, hpaged.trans (.of_mm rfl)⟩
  | read hop hr =>
    obtain rfl | ha := tlbread_state hr
    · exact h.same (.refl p s')
    · exact h.same ha.keeps.paged
  | write hop hr =>
    obtain rfl | ⟨t, ha, rfl | ⟨addr, rfl⟩⟩ := tlbwrite_state hr
    · exact h.same (.refl p s')
    · exact h.same ha.keeps.paged
    · exact h.same (ha.keeps.paged.trans (.of_mm rfl))

/-- An instruction that neither allocates nor frees. -/
theorem Keeps.run (hop : ins.opcode ≠ .ALLOC ∧ ins.opcode ≠ .FREE)
    (hrun : run s p ins raw = .ok (o, s')) : Keeps p s s' := by
  cases executed_of_run hrun with
  | compute => exact .of_mm rfl
  | alloc hop' => exact absurd hop' hop.1
  | free hop' => exact absurd hop' hop.2
  | read _ hr =>
    obtain rfl | ha := tlbread_state hr
    · exact .of_mm rfl
    · exact ha.keeps
  | write _ hr =>
    obtain rfl | ⟨t, ha, rfl | ⟨addr, rfl⟩⟩ := tlbwrite_state hr
    · exact .of_mm rfl
    · exact ha.keeps
    · exact ha.keeps.trans (.of_mm rfl)

end

/-- The invariant of all processes. -/
def AllSpaceInv (s : System ι) : Prop := ∀ p, SpaceInv (s.mm p)

theorem AllSpaceInv.of_paged {s s' : System ι} {p : ι} {mm : Mm} (h : AllSpaceInv s)
    (hmm : SpaceInv mm) (hpaged : Paged p (s.setMm p mm) s') : AllSpaceInv s' := by
  intro q
  by_cases hq : q = p
  · rw [hq]
    refine hmm.congr ?_
    have hspace := hpaged.space
    rwa [System.setMm_self] at hspace
  · rw [hpaged.others q hq, System.setMm_of_ne _ _ _ hq]
    exact h q

theorem AllSpaceInv.step {c : Config ι} {s s' : System ι} {a : Label ι} (h : AllSpaceInv s)
    (hst : (memLts c).step s a s') : AllSpaceInv s' := by
  obtain ⟨mm, hmm, hpaged⟩ := (h a.proc).run hst
  exact h.of_paged hmm hpaged

theorem allSpaceInv_of_run {c : Config ι} {tr : List (Label ι)} {s : System ι}
    (h : (memLts c).Run tr s) : AllSpaceInv s :=
  h.invariant (fun _ h0 => h0 ▸ fun _ => MmInv.initMm.spaceInv) fun _ _ _ hi hst => hi.step hst

/-- While `p` is idle its regions stay, and so do its resident pages. -/
theorem Idle.keeps {c : Config ι} {p : ι} {s s' : System ι} (h : Idle c p s s')
    (hs : AllSpaceInv s) : AllSpaceInv s' ∧ SameSpace (s.mm p) (s'.mm p) ∧
      ∀ k, Resident ((s.mm p).pgd k) → Resident ((s'.mm p).pgd k) := by
  obtain ⟨tr, hpath, hidle⟩ := h
  refine hpath.invariant_of_forall (I := fun t => AllSpaceInv t ∧ SameSpace (s.mm p) (t.mm p) ∧
    ∀ k, Resident ((s.mm p).pgd k) → Resident ((t.mm p).pgd k)) ?_ hidle ⟨hs, .rfl' _, fun _ => id⟩
  rintro t a t' ha ⟨hinv, hspace, hres⟩ ⟨hst, -⟩
  refine ⟨hinv.step hst, ?_⟩
  by_cases hp : a.proc = p
  · have hkeep := Keeps.run (ha hp) hst
    rw [hp] at hkeep
    exact ⟨hspace.trans hkeep.paged.space, fun k hk => hkeep.resident k (hres k hk)⟩
  · obtain ⟨mm, -, hpaged⟩ := (hinv a.proc).run hst
    have hmm : t'.mm p = t.mm p := by
      rw [hpaged.others p (Ne.symm hp), System.setMm_of_ne _ _ _ (Ne.symm hp)]
    rw [hmm]
    exact ⟨hspace, hres⟩

/-! ## A block that is allocated and freed -/

/-- How `__alloc` gets a block of `n` bytes: from the free list, or by raising the break. -/
theorem AllocSpace.success {n : ℕ} {r : Fin pagingMaxSymtblSz} {mm mm' : Mm} {addr : ℤ}
    (h : AllocSpace n r mm 0 addr mm') (hmm : SpaceInv mm) (hn : n + 255 < 2 ^ 31) :
    (Fits mm n ∧ ∃ rg rgs, rg.rgStart ≤ mm.mmap.sbrk ∧ rg.rgEnd = rg.rgStart + alignedSize n ∧
        addr = rg.rgStart ∧ mm' = mm.setRegions rgs r rg) ∨
      (¬ Fits mm n ∧ addr = mm.mmap.sbrk ∧ mm' = (mm.raise (alignedSize n)).setRegions
        mm.mmap.vmFreergList r ⟨mm.mmap.sbrk, mm.mmap.sbrk + n⟩) := by
  rw [← fitting_iff hmm hn]
  generalize hsize : (n : ℤ) = size at h
  cases h with
  | @reused rg rgs hfit hstart _ hlen =>
    subst hsize
    rw [u64_start hmm.bound hn hstart] at hlen
    exact .inl ⟨hfit, rg, rgs, hstart, hlen, rfl, rfl⟩
  | @raised n' hsize' hno =>
    subst hsize
    obtain rfl : n = n' := by exact_mod_cast hsize'
    exact .inr ⟨hno, rfl, rfl⟩

/-- The pages of the block that `__alloc` has recorded are those that it has mapped. -/
theorem AllocSpace.block {n : ℕ} {r : Fin pagingMaxSymtblSz} {mm mm' : Mm} {addr : ℤ}
    (h : AllocSpace n r mm 0 addr mm') (hmm : SpaceInv mm) (hn1 : 1 ≤ n)
    (hn : n + 255 < 2 ^ 31) :
    (mm'.symrgtbl r).rgStart < (mm'.symrgtbl r).rgEnd ∧
      i32 (mm'.symrgtbl r).rgStart = addr ∧
      regionPages (mm'.symrgtbl r) = alignedSize n / 256 := by
  have hle := le_alignedSize n
  have hsz := alignedSize_lt hn
  have hbound := hmm.bound
  obtain ⟨-, rg, rgs, hstart, hend, rfl, rfl⟩ | ⟨-, rfl, rfl⟩ := h.success hmm hn
  · simp only [Mm.setRegions, Function.update_self]
    refine ⟨by omega, i32_natCast (by omega), ?_⟩
    rw [regionPages_eq (by omega) (by omega), show rg.rgEnd - rg.rgStart = alignedSize n by omega,
      alignedSize_of_dvd (dvd_alignedSize n)]
  · have hlen : mm.mmap.sbrk + n - mm.mmap.sbrk + 255 < 2 ^ 31 := by omega
    simp only [Mm.setRegions, Function.update_self]
    refine ⟨by omega, i32_natCast hbound, ?_⟩
    rw [regionPages_eq (Nat.le_add_right ..) hlen, Nat.add_sub_cancel_left]

section

variable {c : Config ι} {p : ι} {n : ℕ} {r : BitVec 32} {s s' t : System ι}

theorem Allocates.space (h : Allocates p n r s s') (hs : SpaceInv (s.mm p)) (hn1 : 1 ≤ n)
    (hn : n ≤ 2 ^ 22) :
    ∃ hid : r.toNat < pagingMaxSymtblSz, ∃ addr mm,
      AllocSpace n ⟨r.toNat, hid⟩ (s.mm p) 0 addr mm ∧ Paged p (s.setMm p mm) s' ∧
        ∀ k, InRange (pagingPgn addr) (alignedSize n / 256) k → Resident ((s'.mm p).pgd k) := by
  obtain ⟨ins, raw, hop, rfl, rfl, -, hrun⟩ := h
  have hr := executed_of_run hrun
  generalize ho : (⟨0, none⟩ : Outcome) = o at hr
  cases hr with
  | alloc _ hid hrgid hr =>
    cases ho
    obtain rfl := hrgid rfl
    obtain ⟨ret, addr, s1, mm, hspace, hpaged, ⟨-, h0⟩ | ⟨rfl, heq⟩⟩ := tlballoc_space hs hid hr
    · cases h0
    · have hcache := (Keeps.tlbCachePages (p := p) (pagingPageAlignszU ins.arg0 / pagingPagesz)
        (pagingPgn addr) s1).2
      rw [← heq, pagingPageAlignszU_eq hn] at hcache
      rw [argInt_eq (by omega)] at hspace
      exact ⟨hid, addr, mm, hspace, hpaged, hcache rfl⟩
  | compute hop' | free hop' | read hop' | write hop' =>
    rw [hop] at hop'
    cases hop'

/-- `FREE` releases a region whose pages are resident. -/
theorem Frees.space (h : Frees p r s s') (hid : r.toNat < pagingMaxSymtblSz) {rg : VmRg}
    (hrg : (s.mm p).symrgtbl ⟨r.toNat, hid⟩ = rg) (hlt : rg.rgStart < rg.rgEnd)
    (hres : ∀ k, InRange (pagingPgn (i32 rg.rgStart)) (regionPages rg) k →
      Resident ((s.mm p).pgd k)) :
    Paged p (s.setMm p ((s.mm p).setRegions (rg :: (s.mm p).mmap.vmFreergList)
      ⟨r.toNat, hid⟩ ⟨0, 0⟩)) s' := by
  obtain ⟨ins, raw, hop, rfl, hrun⟩ := h
  have hr := executed_of_run hrun
  generalize ho : (⟨0, none⟩ : Outcome) = o at hr
  cases hr with
  | free _ hr =>
    obtain ⟨tlb, heq⟩ := tlbfreeData_free s p hid
    rw [heq] at hr
    cases hr
    have hstat : (free s p ⟨ins.arg0.toNat, hid⟩).1 = 0 := by
      rw [free_status, hrg]
      exact ⟨by omega, fun k hk => (hres k hk).1, .inl hres⟩
    obtain ⟨hfail, -⟩ | ⟨-, hpaged⟩ := free_space s p ⟨ins.arg0.toNat, hid⟩
    · rw [hstat] at hfail
      cases hfail
    · rw [hrg, enlistVmFreergList, if_neg (by omega)] at hpaged
      exact hpaged.trans (.of_mm rfl)
  | compute hop' | alloc hop' | read hop' | write hop' =>
    rw [hop] at hop'
    cases hop'

/-- The break and the free list after a block of `n` bytes has been allocated and freed. -/
theorem Cycle.space (h : Cycle c p n s t) (hs : AllSpaceInv s) :
    AllSpaceInv t ∧
      ((Fits (s.mm p) n ∧ SameBreak (s.mm p) (t.mm p) ∧
          ∃ rg ∈ (t.mm p).mmap.vmFreergList, rg.rgEnd = rg.rgStart + alignedSize n) ∨
        (¬ Fits (s.mm p) n ∧ (t.mm p).mmap.sbrk = (s.mm p).mmap.sbrk + alignedSize n ∧
          (t.mm p).mmap.vmFreergList = ⟨(s.mm p).mmap.sbrk, (s.mm p).mmap.sbrk + n⟩ ::
            (s.mm p).mmap.vmFreergList)) := by
  obtain ⟨hn1, hn, r, s1, s2, s3, halloc, hidle, hfree, hidle'⟩ := h
  obtain ⟨hid, addr, mm, hspace, hpaged, hres⟩ := halloc.space (hs p) hn1 hn
  have hs1 : AllSpaceInv s1 := hs.of_paged (hspace.spaceInv (hs p)) hpaged
  obtain ⟨hs2, hspace2, hres2⟩ := hidle.keeps hs1
  -- the block as it is recorded when it is freed
  have hmm1 := hpaged.space
  rw [System.setMm_self] at hmm1
  have hmm2 := hmm1.trans hspace2
  obtain ⟨hlt, hstart, hpages⟩ := hspace.block (hs p) hn1 (by omega)
  have hpaged3 := hfree.space hid (congrFun hmm2.symrgtbl _) hlt fun k hk => by
    rw [hstart, hpages] at hk
    exact hres2 k (hres k hk)
  have hs3 : AllSpaceInv s3 := by
    refine hs2.of_paged ((hs2 p).setRegions (List.forall_mem_cons.mpr ⟨?_, (hs2 p).free⟩) _
      (Nat.zero_le _)) hpaged3
    have hend := (hs2 p).live ⟨r.toNat, hid⟩
    rw [hmm2.symrgtbl] at hend
    exact ⟨hlt.le, hend⟩
  obtain ⟨hs4, hspace4, -⟩ := hidle'.keeps hs3
  have hmmap : (t.mm p).mmap = { mm.mmap with
      vmFreergList := mm.symrgtbl ⟨r.toNat, hid⟩ :: mm.mmap.vmFreergList } := by
    rw [hspace4.mmap, hpaged3.space.mmap, System.setMm_self, Mm.setRegions, hmm2.mmap]
  refine ⟨hs4, ?_⟩
  unfold SameBreak
  rw [hmmap]
  obtain ⟨hfit, rg, rgs, -, hend, -, rfl⟩ | ⟨hno, -, rfl⟩ := hspace.success (hs p) (by omega)
  · refine .inl ⟨hfit, ⟨rfl, rfl⟩, rg, ?_, hend⟩
    simp [Mm.setRegions]
  · refine .inr ⟨hno, rfl, ?_⟩
    simp [Mm.setRegions, Mm.raise]

end

/-! ## The allocation that follows -/

theorem alignedSize_mono {m n : ℕ} (h : m ≤ n) : alignedSize m ≤ alignedSize n := by
  unfold alignedSize
  omega

theorem Fits.mono {mm : Mm} {m n : ℕ} (h : Fits mm n) (hmn : m ≤ n) : Fits mm m := by
  obtain ⟨rg, hrg, hfit⟩ := h
  exact ⟨rg, hrg, (Nat.add_le_add_left (alignedSize_mono hmn) _).trans hfit⟩

section

variable {c : Config ι} {p : ι} {n m : ℕ} {r : BitVec 32} {s t u : System ι}

/-- The break stays where it is if a free region fits, and only then. -/
theorem Allocates.sameBreak_iff (h : Allocates p m r t u) (ht : SpaceInv (t.mm p)) (hm1 : 1 ≤ m)
    (hm : m ≤ 2 ^ 22) : SameBreak (t.mm p) (u.mm p) ↔ Fits (t.mm p) m := by
  obtain ⟨hid, addr, mm, hspace, hpaged, -⟩ := h.space ht hm1 hm
  have hle := le_alignedSize m
  unfold SameBreak
  rw [hpaged.space.mmap, System.setMm_self]
  obtain ⟨hfit, rg, rgs, -, -, -, rfl⟩ | ⟨hno, -, rfl⟩ := hspace.success ht (by omega)
  · exact iff_of_true ⟨rfl, rfl⟩ hfit
  · refine iff_of_false (fun hsame => ?_) hno
    have hbrk : (t.mm p).mmap.sbrk + alignedSize m = (t.mm p).mmap.sbrk := hsame.1
    omega

theorem Cycle.fits_iff (h : Cycle c p n s t) (hs : AllSpaceInv s) (hmn : m ≤ n) :
    Fits (t.mm p) m ↔ alignedSize m ≤ n ∨ Fits (s.mm p) m := by
  obtain ⟨-, ⟨hfit, -, rg, hrg, hend⟩ | ⟨hno, -, hlist⟩⟩ := h.space hs
  · refine iff_of_true ⟨rg, hrg, ?_⟩ (.inr (hfit.mono hmn))
    rw [hend]
    exact Nat.add_le_add_left (alignedSize_mono hmn) _
  · unfold Fits
    simp [hlist]

/-- A block of `n` bytes has been allocated and freed: the break stays where it is in an allocation
of `m ≤ n` bytes exactly if `m`, rounded up to pages, is at most `n`, or a region that was free
before fits. -/
theorem Cycle.sameBreak_iff (h : Cycle c p n s t) (hs : AllSpaceInv s) (hm1 : 1 ≤ m) (hmn : m ≤ n)
    (halloc : Allocates p m r t u) :
    SameBreak (t.mm p) (u.mm p) ↔ alignedSize m ≤ n ∨ Fits (s.mm p) m := by
  rw [halloc.sameBreak_iff ((h.space hs).1 p) hm1 (hmn.trans h.le), h.fits_iff hs hmn]

/-! ## Programs that go on allocating and freeing -/

variable (c p) in
/-- Process `p` allocates and frees blocks of the sizes `ns`, one at a time; `ok` holds between
each size and the next. -/
inductive Cycles (ok : System ι → ℕ → ℕ → Prop) : System ι → List ℕ → System ι → Prop
  | one {n : ℕ} {s t : System ι} : Cycle c p n s t → Cycles ok s [n] t
  | cons {n m : ℕ} {ns : List ℕ} {s t u : System ι} : Cycle c p n s t → ok s n m →
      Cycles ok t (m :: ns) u → Cycles ok s (n :: m :: ns) u

variable (p) in
/-- After a block of `n` bytes, a block of `m` bytes does not raise the break. -/
def Reusable (s : System ι) (n m : ℕ) : Prop :=
  m ≤ n ∧ (alignedSize m ≤ n ∨ Fits (s.mm p) m)

/-- From a state in which a free region fits, the break is never raised. -/
theorem Cycles.sbrk_of_fits {ns : List ℕ} (h : Cycles c p (Reusable p) s (n :: ns) t)
    (hs : AllSpaceInv s) (hfit : Fits (s.mm p) n) :
    (t.mm p).mmap.sbrk = (s.mm p).mmap.sbrk := by
  generalize hl : n :: ns = l at h
  induction h generalizing n ns with
  | one hcycle =>
    cases hl
    obtain ⟨-, ⟨-, hsame, -⟩ | ⟨hno, -⟩⟩ := hcycle.space hs
    · exact hsame.1
    · exact absurd hfit hno
  | cons hcycle hok hrest ih =>
    cases hl
    obtain ⟨ht, ⟨-, hsame, -⟩ | ⟨hno, -⟩⟩ := hcycle.space hs
    · exact (ih ht ((hcycle.fits_iff hs hok.1).mpr hok.2) rfl).trans hsame.1
    · exact absurd hfit hno

/-- The break is raised for the first block at most. -/
theorem Cycles.sbrk_le {ns : List ℕ} (h : Cycles c p (Reusable p) s (n :: ns) t)
    (hs : AllSpaceInv s) : (t.mm p).mmap.sbrk ≤ (s.mm p).mmap.sbrk + alignedSize n := by
  have hfirst : ∀ {t' : System ι}, Cycle c p n s t' →
      (t'.mm p).mmap.sbrk ≤ (s.mm p).mmap.sbrk + alignedSize n := by
    intro t' hcycle
    obtain ⟨-, ⟨-, hsame, -⟩ | ⟨-, hbrk, -⟩⟩ := hcycle.space hs
    · rw [hsame.1]
      exact Nat.le_add_right ..
    · exact hbrk.le
  cases h with
  | one hcycle => exact hfirst hcycle
  | cons hcycle hok hrest =>
    rw [hrest.sbrk_of_fits (hcycle.space hs).1 ((hcycle.fits_iff hs hok.1).mpr hok.2)]
    exact hfirst hcycle

/-- A block that does not fill its last page raises the break, and the next one does so again. -/
theorem Cycle.leak (h : Cycle c p n s t) (hs : AllSpaceInv s) (hn : ¬ 256 ∣ n)
    (hno : ¬ Fits (s.mm p) n) :
    ¬ Fits (t.mm p) n ∧ (t.mm p).mmap.sbrk = (s.mm p).mmap.sbrk + alignedSize n := by
  have hlt : ¬ alignedSize n ≤ n := by
    unfold alignedSize
    omega
  obtain ⟨-, ⟨hfit, -⟩ | ⟨-, hbrk, -⟩⟩ := h.space hs
  · exact absurd hfit hno
  · rw [h.fits_iff hs le_rfl]
    exact ⟨not_or.mpr ⟨hlt, hno⟩, hbrk⟩

/-- A program whose blocks do not fill their last pages raises the break each time. -/
theorem Cycles.leak {ok : System ι → ℕ → ℕ → Prop} {k : ℕ}
    (h : Cycles c p ok s (List.replicate (k + 1) n) t) (hs : AllSpaceInv s) (hn : ¬ 256 ∣ n)
    (hno : ¬ Fits (s.mm p) n) :
    (t.mm p).mmap.sbrk = (s.mm p).mmap.sbrk + (k + 1) * alignedSize n := by
  induction k generalizing s with
  | zero =>
    cases h with
    | one hcycle => simpa using (hcycle.leak hs hn hno).2
  | succ k ih =>
    cases h with
    | cons hcycle _ hrest =>
      obtain ⟨hno', hbrk⟩ := hcycle.leak hs hn hno
      rw [ih hrest (hcycle.space hs).1 hno', hbrk]
      ring

end

/-- In every run: a block of `n` bytes is allocated and freed, and then a block of `m ≤ n` bytes is
allocated. The break stays where it is exactly if `m`, rounded up to pages, is at most `n`, or a
region that was free before fits. A program in which this holds between each block and the next
raises the break for the first block at most. -/
theorem reuse_of_run {c : Config ι} {tr : List (Label ι)} {s : System ι}
    (h : (definedLts .cpuTlb c).Run tr s) (p : ι) :
    (∀ {n m : ℕ} {r : BitVec 32} {t u : System ι}, 1 ≤ m → m ≤ n → Cycle c p n s t →
      Allocates p m r t u →
      (SameBreak (t.mm p) (u.mm p) ↔ alignedSize m ≤ n ∨ Fits (s.mm p) m)) ∧
    ∀ {n : ℕ} {ns : List ℕ} {t : System ι}, Cycles c p (Reusable p) s (n :: ns) t →
      (t.mm p).mmap.sbrk ≤ (s.mm p).mmap.sbrk + alignedSize n := by
  have hs := allSpaceInv_of_run (c := c) h.of_guard
  refine ⟨fun hm1 hmn hcycle halloc => hcycle.sameBreak_iff hs hm1 hmn halloc, fun hcycles => ?_⟩
  exact hcycles.sbrk_le hs

/-! ## Runs -/

theorem Idle.refl (c : Config ι) (p : ι) (s : System ι) : Idle c p s s := ⟨[], .nil, by simp⟩

/-- The first step of a run that has been executed. -/
theorem step_of_runAll {ok : System ι → Label ι → System ι → Bool} {s : System ι} {a : Label ι}
    {tr : List (Label ι)} {test : System ι → Bool} (h : (runAll ok s (a :: tr)).any test = true) :
    ∃ s', run s a.proc a.ins a.raw = .ok (a.out, s') ∧ ok s a s' = true ∧
      (runAll ok s' tr).any test = true := by
  unfold runAll at h
  split at h
  · cases h
  · next o s' hrun =>
    split_ifs at h with hok
    · exact ⟨s', hok.1 ▸ hrun, hok.2, h⟩
    · cases h

/-- `p` allocates `n` bytes, frees them and allocates `n` bytes again. -/
def reuseProgram (p : ι) (n : BitVec 32) : List (Label ι) :=
  [⟨p, ⟨.ALLOC, n, 0, 0⟩, [], ⟨0, none⟩⟩, ⟨p, ⟨.FREE, 0, 0, 0⟩, [], ⟨0, none⟩⟩,
    ⟨p, ⟨.ALLOC, n, 1, 0⟩, [], ⟨0, none⟩⟩]

theorem exists_reuse (c : Config ι) (p : ι) {n : BitVec 32} (hn1 : 1 ≤ n.toNat)
    (hn : n.toNat ≤ 2 ^ 22)
    (h : (runAll (fun s a _ => decide (Defined .cpuTlb s a.proc a.ins a.raw)) c.init
      (reuseProgram p n)).any (fun _ => true) = true) :
    ∃ t u, Cycle c p n.toNat c.init t ∧ Allocates p n.toNat 1 t u := by
  obtain ⟨s1, h1, hdef1, h⟩ := step_of_runAll h
  obtain ⟨s2, h2, -, h⟩ := step_of_runAll h
  obtain ⟨s3, h3, hdef3, -⟩ := step_of_runAll h
  refine ⟨s2, s3, ⟨hn1, hn, 0, s1, s1, s2, ?_, .refl .., ?_, .refl ..⟩, ?_⟩
  · exact ⟨_, _, rfl, rfl, rfl, of_decide_eq_true hdef1, h1⟩
  · exact ⟨_, _, rfl, rfl, h2⟩
  · exact ⟨_, _, rfl, rfl, rfl, of_decide_eq_true hdef3, h3⟩

/-- A block of one page is used again. -/
theorem reuse_page : ∃ t u, Cycle (Config.two 512 0) 0 256 (Config.two 512 0).init t ∧
    Allocates 0 256 1 t u ∧ SameBreak (t.mm 0) (u.mm 0) ∧ (t.mm 0).mmap.sbrk ≤ 256 := by
  obtain ⟨t, u, hcycle, halloc⟩ := exists_reuse (Config.two 512 0) 0 (n := 256#32) (by decide)
    (by decide) (by decide +kernel)
  obtain ⟨hsame, hbound⟩ := reuse_of_run (c := Config.two 512 0) (Lts.Run.init rfl) (0 : Fin 2)
  exact ⟨t, u, hcycle, halloc, (hsame (by decide) le_rfl hcycle halloc).mpr (.inl (by decide)),
    hbound (.one hcycle)⟩

/-- A block of 100 bytes is not. -/
theorem not_sameBreak_hundred : ∃ t u, Cycle (Config.two 512 0) 0 100 (Config.two 512 0).init t ∧
    Allocates 0 100 1 t u ∧ ¬ SameBreak (t.mm 0) (u.mm 0) := by
  obtain ⟨t, u, hcycle, halloc⟩ := exists_reuse (Config.two 512 0) 0 (n := 100#32) (by decide)
    (by decide) (by decide +kernel)
  refine ⟨t, u, hcycle, halloc, ?_⟩
  rw [hcycle.sameBreak_iff (allSpaceInv_of_run (c := Config.two 512 0) (Lts.Run.init rfl))
    (by decide) le_rfl halloc]
  decide

end OsSim.Mem
