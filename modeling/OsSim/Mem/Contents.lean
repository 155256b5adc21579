import OsSim.Mem.Ownership

/-!
# What the pages hold

`System.page s p pgn` is the content of page `pgn` of process `p`, in RAM or in
swap, and `System.byte s p a` the byte at its address `a`. In the states of
`OwnedInv` the moves that map and release no page change no content, and a store
changes the one byte that it is meant for.

Results:
* `Moves.view_eq`, `Moves.view_sub`: contents along moves.
* `tlbFrame_spec`: an access finds the page exactly if it is `Accessible`.
* `tlbread_spec`, `tlbwrite_spec`: what `READ` and `WRITE` return and change.
-/

namespace OsSim.Mem

open Placement Placement.Store BitField

variable {ι : Type*} [DecidableEq ι]

/-- What a page of a process holds, in RAM or in swap. -/
def System.page (s : System ι) (p : ι) (pgn : ℕ) : Option (Fin 256 → Byte) :=
  (Work.mk [] s).store.view (p, pgn)

/-- The byte at an address of a process. -/
def System.byte (s : System ι) (p : ι) (a : ℕ) : Option Byte :=
  (s.page p (a / 256)).map fun cells => cells ⟨a % 256, Nat.mod_lt a (by norm_num)⟩

omit [DecidableEq ι] in
theorem page_of_resident {s : System ι} {p : ι} {pgn : ℕ} (h : Resident ((s.mm p).pgd pgn)) :
    s.page p pgn = some (s.mram.frame (pteFpn ((s.mm p).pgd pgn))) := by
  simp only [System.page, view, Work.store, pteLoc_of_resident h, Option.map_some]

/-! ## Moves -/

section Moves

variable {p q : ι} {a : Act} {w w' : Work ι} {frames slots : ℤ} {k : ℕ}

/-- A move that maps and releases no page, or a page of another process, changes no content. -/
theorem Move.view_eq (hm : Move p a w w') (hg : a.Good) (hframes : frames ≤ 8192)
    (h : Owned frames slots w) (hpage : q = p → a.page ≠ some k) :
    w'.store.view (q, k) = w.store.view (q, k) := by
  refine (hm.change hg hframes h).view_of_ne h.exclusive fun he => ?_
  obtain ⟨k', hk, he⟩ := Option.map_eq_some_iff.mp he
  obtain ⟨rfl, rfl⟩ := Prod.mk.inj he
  exact hpage rfl hk

/-- A move that does not map the page can only take its content away. -/
theorem Move.view_sub (hm : Move p a w w') (hg : a.Good) (hframes : frames ≤ 8192)
    (h : Owned frames slots w) (hmap : q = p → a ≠ .map k) {cells : Fin 256 → Byte}
    (hv : w'.store.view (q, k) = some cells) : w.store.view (q, k) = some cells := by
  by_cases hpage : q = p → a.page ≠ some k
  · rwa [← hm.view_eq hg hframes h hpage]
  · rw [Classical.not_imp, not_not] at hpage
    obtain ⟨rfl, hpage⟩ := hpage
    cases hm with
    | map => exact absurd (congrArg Act.map (Option.some.inj hpage)) (hmap rfl)
    | @release held s pgn fpn =>
      -- the page is absent afterwards
      obtain rfl := Option.some.inj hpage
      simp [view, Work.store, pteLoc_of_not_present (not_present_clrbit _)] at hv
    | _ => cases hpage

theorem Moves.view_eq {P : Act → Prop} (hm : Moves p P w w') (hg : ∀ a, P a → a.Good)
    (hframes : frames ≤ 8192) (h : Owned frames slots w)
    (hpage : q = p → ∀ a, P a → a.page ≠ some k) :
    w'.store.view (q, k) = w.store.view (q, k) := by
  refine (hm.invariant (I := fun w' => Owned frames slots w' ∧
    w'.store.view (q, k) = w.store.view (q, k)) (fun a _ _ ha hI hst => ?_) ⟨h, rfl⟩).2
  exact ⟨hst.owned (hg a ha) hframes hI.1,
    (hst.view_eq (hg a ha) hframes hI.1 fun e => hpage e a ha).trans hI.2⟩

theorem Moves.view_sub {P : Act → Prop} (hm : Moves p P w w') (hg : ∀ a, P a → a.Good)
    (hframes : frames ≤ 8192) (h : Owned frames slots w)
    (hmap : q = p → ∀ a, P a → a ≠ .map k) {cells : Fin 256 → Byte}
    (hv : w'.store.view (q, k) = some cells) : w.store.view (q, k) = some cells := by
  refine (hm.invariant (I := fun w' => Owned frames slots w' ∧
    (w'.store.view (q, k) = some cells → w.store.view (q, k) = some cells))
    (fun a _ _ ha hI hst => ?_) ⟨h, id⟩).2 hv
  exact ⟨hst.owned (hg a ha) hframes hI.1,
    fun hv => hI.2 (hst.view_sub (hg a ha) hframes hI.1 (fun e => hmap e a ha) hv)⟩

end Moves

/-! ## Stores -/

/-- A store to a resident page changes one byte of one process. -/
theorem byte_store {s : System ι} {p : ι} {a : ℕ} (hx : Exclusive (Work.mk [] s).store)
    (hr : Random s) (hres : Resident ((s.mm p).pgd (a / 256))) (data : Byte) (q : ι) (x : ℕ) :
    (s.store (phyaddr (pteFpn ((s.mm p).pgd (a / 256))) (a % 256 : ℕ)) data).byte q x =
      if q = p ∧ x = a then some data else s.byte q x := by
  have hl : (Work.mk [] s).store.loc (p, a / 256) =
      some (.ram (pteFpn ((s.mm p).pgd (a / 256)))) := pteLoc_of_resident hres
  simp only [System.byte, System.page, view, System.store, memphyWrite_random hr.ram]
  cases hq : (Work.mk [] s).store.loc (q, x / 256) with
  | none =>
    have hne : ¬ (q = p ∧ x = a) := by
      rintro ⟨rfl, rfl⟩
      rw [hl] at hq
      cases hq
    simp only [Work.store] at hq ⊢
    simp [hq, hne]
  | some l =>
    have hloc : pteLoc ((s.mm q).pgd (x / 256)) = some l := hq
    cases l with
    | slot d off =>
      have hne : ¬ (q = p ∧ x = a) := by
        rintro ⟨rfl, rfl⟩
        rw [hl] at hq
        cases hq
      simp [Work.store, hloc, hne]
    | ram fpn =>
      by_cases he : q = p ∧ x = a
      · obtain ⟨rfl, rfl⟩ := he
        rw [hl] at hq
        cases hq
        simp [Work.store, pteLoc_of_resident hres, Memphy.frame, phyaddr]
      · -- the frames of two pages differ, and so do two bytes of one frame
        have hne : fpn * 256 + (x % 256 : ℕ) ≠
            phyaddr (pteFpn ((s.mm p).pgd (a / 256))) (a % 256 : ℕ) := by
          intro heq
          unfold phyaddr at heq
          obtain rfl : fpn = pteFpn ((s.mm p).pgd (a / 256)) := by omega
          obtain ⟨rfl, hdiv⟩ := Prod.mk.inj (hx.inj _ _ _ hq hl)
          exact he ⟨rfl, by omega⟩
        simp only [Work.store, hloc, Option.map_some, Memphy.frame, Function.update_of_ne hne,
          if_neg he]

/-! ## Accesses -/

/-- `pg_getpage` can bring the page to RAM. -/
def Accessible (s : System ι) (p : ι) (pgn : ℕ) : Prop :=
  Resident ((s.mm p).pgd pgn) ∨
    (Present ((s.mm p).pgd pgn) ∧ Swapped ((s.mm p).pgd pgn) ∧ s.mram.avail ≠ [])

instance (s : System ι) (p : ι) (pgn : ℕ) : Decidable (Accessible s p pgn) :=
  inferInstanceAs (Decidable (_ ∨ _))

/-- Nothing changes but where the pages are. -/
structure Quiet (c : Config ι) (s s' : System ι) : Prop where
  inv : OwnedInv c s'
  page : ∀ p pgn, s'.page p pgn = s.page p pgn
  symrgtbl : ∀ p, (s'.mm p).symrgtbl = (s.mm p).symrgtbl

omit [DecidableEq ι] in
theorem Quiet.byte {c : Config ι} {s s' : System ι} (h : Quiet c s s') (p : ι) (a : ℕ) :
    s'.byte p a = s.byte p a := by
  rw [System.byte, h.page, System.byte]

section Access

variable {c : Config ι} {s : System ι} {p : ι}

theorem tlbFrame_quiet (hram : numfp c.ramSz ≤ 8192) (h : OwnedInv c s) {pgn : ℕ}
    (hpgn : pgn < 2 ^ 14) : Quiet c s (tlbFrame s p pgn).2 := by
  have hf := tlbFrame_moves (h.base.proc p) hpgn
  have hframe : Frame p s (tlbFrame s p pgn).2 := hf.moves.frame
  refine ⟨h.moves hram hf.moves (fun a ha => ha.2) hf.ok, fun q k => ?_, fun q => ?_⟩
  · exact hf.moves.view_eq (fun a ha => ha.2) hram h.owned fun _ a ha => by simp [ha.1]
  · by_cases hq : q = p
    · rw [hq, hf.pages.symrgtbl]
    · rw [hframe.mm q hq]

/-- An access finds the frame of its page exactly if the page is accessible. -/
theorem tlbFrame_spec (hram : numfp c.ramSz ≤ 8192) (h : OwnedInv c s) {pgn : ℕ}
    (hpgn : pgn < 2 ^ 14) :
    (Accessible s p pgn ∧ Resident (((tlbFrame s p pgn).2.mm p).pgd pgn) ∧
      (tlbFrame s p pgn).1 = some (pteFpn (((tlbFrame s p pgn).2.mm p).pgd pgn))) ∨
    (¬ Accessible s p pgn ∧ (tlbFrame s p pgn).1 = none) := by
  unfold tlbFrame Accessible
  by_cases hmiss : tlbCacheRead s.tlb (s.pidInt p) pgn < 0
  · simp only [hmiss, if_true]
    obtain ⟨hp, hr⟩ | ⟨hres, hr⟩ | ⟨hp, hsw, hav, hr⟩ | ⟨hp, hsw, fpn, rest, hl, hav, hr⟩ :=
      pgGetpage_cases s p pgn <;> simp only [hr]
    · exact .inr ⟨by simp [Resident, hp], by simp⟩
    · have h0 := pteFpn_nonneg ((s.mm p).pgd pgn)
      simp only [ne_eq, not_true_eq_false, false_or, not_lt.mpr h0, if_false]
      exact .inl ⟨.inl hres, hres, trivial⟩
    · exact .inr ⟨by simp [Resident, hsw, hav], by simp⟩
    · obtain ⟨h0, h1⟩ := h.owned.framesOk hram fpn (by simp [hl])
      simp only [ne_eq, not_true_eq_false, false_or, not_lt.mpr h0, if_false]
      refine .inl ⟨.inr ⟨hp, hsw, by simp [hav]⟩, ?_, ?_⟩
      · simp [swapIn_mm, mmSwappedIn]
      · simp only [swapIn_mm, mmSwappedIn, Function.update_self, fpn_pteSetFpn _ h0 h1]
  · simp only [hmiss, if_false]
    obtain ⟨e, he, hv, hk, hread⟩ := tlbCacheRead_hit (not_lt.mp hmiss)
    obtain ⟨hpid, htag⟩ := (key_eq_tlbKey (h.base.tlb.pid_lt p) hpgn e).mp hk
    obtain ⟨hres, hfpn⟩ := h.base.tlb.coherent e he hv p hpid
    rw [htag] at hres hfpn
    exact .inl ⟨.inl hres, hres, by rw [hread, hfpn]⟩

end Access

/-! ## Addresses -/

/-- The address that an access uses: `PAGING_PGN` and `PAGING_OFFST` read its low 22 bits. -/
def vaddr (currg : VmRg) (offset : BitVec 32) : ℕ := (rgAddr currg offset % 2 ^ 22).toNat

theorem pagingPgn_rgAddr (currg : VmRg) (offset : BitVec 32) :
    pagingPgn (rgAddr currg offset) = vaddr currg offset / 256 := by
  rw [pagingPgn_eq, vaddr]
  omega

theorem pagingOffst_rgAddr (currg : VmRg) (offset : BitVec 32) :
    pagingOffst (rgAddr currg offset) = (vaddr currg offset % 256 : ℕ) := by
  rw [pagingOffst_eq, vaddr]
  omega

theorem vaddr_page_lt (currg : VmRg) (offset : BitVec 32) : vaddr currg offset / 256 < 2 ^ 14 := by
  rw [vaddr]
  omega

/-- An offset inside the region. -/
theorem vaddr_of_lt {sbrk : ℕ} {currg : VmRg} (h : currg.Below sbrk) (hs : sbrk ≤ 2 ^ 22)
    {offset : BitVec 32} (hlt : offset.toNat < currg.rgEnd - currg.rgStart) :
    ¬ OutOfRange currg offset ∧ vaddr currg offset = currg.rgStart + offset.toNat := by
  have hb := h.bound
  have haddr : rgAddr currg offset = (currg.rgStart + offset.toNat : ℕ) := by
    rw [rgAddr, ← Nat.cast_add, i32_natCast (by omega)]
  unfold OutOfRange
  rw [vaddr, haddr, u64_natCast (by omega)]
  omega

theorem rgAddr_emod (currg : VmRg) (offset : BitVec 32) :
    rgAddr currg offset % 2 ^ 32 = ((currg.rgStart + offset.toNat : ℕ) : ℤ) % 2 ^ 32 := by
  unfold rgAddr i32
  rw [BitVec.toInt_ofInt, Int.bmod_def]
  split_ifs <;> omega

theorem vaddr_eq (currg : VmRg) (offset : BitVec 32) :
    vaddr currg offset = (currg.rgStart + offset.toNat) % 2 ^ 22 := by
  have h := rgAddr_emod currg offset
  rw [vaddr]
  omega

/-- The offsets that the test of the code lets pass: those inside the region, the length of the
region, and those for which the sum exceeds 32 bits. -/
theorem not_outOfRange_iff {currg : VmRg} (hle : currg.rgStart ≤ currg.rgEnd)
    (hend : currg.rgEnd < 2 ^ 31) (offset : BitVec 32) :
    ¬ OutOfRange currg offset ↔
      offset.toNat ≤ currg.rgEnd - currg.rgStart ∨ 2 ^ 32 ≤ currg.rgStart + offset.toNat := by
  have hlt := offset.isLt
  have hint := i32_eq (currg.rgStart + offset.toNat)
  have hsum := u64_cast (i32 (currg.rgStart + offset.toNat))
  unfold OutOfRange rgAddr
  omega

/-! ## `READ` and `WRITE` -/

/-- The length of a region; 0 for a region id that is not in the table or has no region. -/
def liveLength (mm : Mm) (rgid : BitVec 32) : ℕ :=
  if h : rgid.toNat < pagingMaxSymtblSz then
    (mm.symrgtbl ⟨rgid.toNat, h⟩).rgEnd - (mm.symrgtbl ⟨rgid.toNat, h⟩).rgStart
  else 0

theorem lt_of_lt_liveLength {mm : Mm} {rgid : BitVec 32} {off : ℕ} (h : off < liveLength mm rgid) :
    ∃ hid : rgid.toNat < pagingMaxSymtblSz,
      off < (mm.symrgtbl ⟨rgid.toNat, hid⟩).rgEnd - (mm.symrgtbl ⟨rgid.toNat, hid⟩).rgStart := by
  unfold liveLength at h
  split_ifs at h with hid
  · exact ⟨hid, h⟩
  · exact absurd h (Nat.not_lt_zero _)

/-- The tests that `tlbread` and `tlbwrite` make let an access pass. -/
def Allowed (s : System ι) (p : ι) (currg : VmRg) (offset : BitVec 32) : Prop :=
  ¬ OutOfRange currg offset ∧ Accessible s p (vaddr currg offset / 256)

instance (s : System ι) (p : ι) (currg : VmRg) (offset : BitVec 32) :
    Decidable (Allowed s p currg offset) :=
  inferInstanceAs (Decidable (_ ∧ _))

/-- What `tlbread` returns for a region `currg`. -/
structure ReadEnd (c : Config ι) (p : ι) (currg : VmRg) (offset : BitVec 32) (s : System ι)
    (r : ℤ × Option Byte × System ι) : Prop where
  quiet : Quiet c s r.2.2
  ending : (r.1 = 0 ∧ Allowed s p currg offset ∧
      ∃ b, s.byte p (vaddr currg offset) = some b ∧ r.2.1 = some b) ∨
    (r.1 = -1 ∧ ¬ Allowed s p currg offset ∧ r.2.1 = none)

/-- What `tlbwrite` returns for a region `currg`. -/
structure WriteEnd (c : Config ι) (p : ι) (currg : VmRg) (offset : BitVec 32) (data : Byte)
    (s : System ι) (r : ℤ × System ι) : Prop where
  inv : OwnedInv c r.2
  symrgtbl : ∀ q, (r.2.mm q).symrgtbl = (s.mm q).symrgtbl
  ending : (r.1 = 0 ∧ Allowed s p currg offset ∧ ∀ q x, r.2.byte q x =
      if q = p ∧ x = vaddr currg offset then some data else s.byte q x) ∨
    (r.1 = -1 ∧ ¬ Allowed s p currg offset ∧ ∀ q x, r.2.byte q x = s.byte q x)

section Instr

variable {c : Config ι} {s : System ι} {p : ι}

theorem tlbread_spec (hram : numfp c.ramSz ≤ 8192) (h : OwnedInv c s) {source : BitVec 32}
    (hid : source.toNat < pagingMaxSymtblSz) (offset : BitVec 32) :
    ∃ r, tlbread s p source offset = .ok r ∧
      ReadEnd c p ((s.mm p).symrgtbl ⟨source.toNat, hid⟩) offset s r := by
  rw [tlbread_eq s p hid]
  generalize (s.mm p).symrgtbl ⟨source.toNat, hid⟩ = currg
  by_cases hout : OutOfRange currg offset
  · simp only [hout, if_true]
    exact ⟨_, rfl, ⟨h, fun _ _ => rfl, fun _ => rfl⟩, .inr ⟨rfl, fun ha => ha.1 hout, rfl⟩⟩
  · have hquiet := tlbFrame_quiet (p := p) hram h (vaddr_page_lt currg offset)
    have hspec := tlbFrame_spec (p := p) hram h (vaddr_page_lt currg offset)
    simp only [hout, if_false, pagingPgn_rgAddr, pagingOffst_rgAddr]
    generalize tlbFrame s p (vaddr currg offset / 256) = r at hquiet hspec
    obtain ⟨fr, s1⟩ := r
    obtain ⟨hacc, hres, hfr⟩ | ⟨hacc, hfr⟩ := hspec <;> simp only at hfr <;> subst hfr
    · have hram' : s1.mram.rdmflg ≠ 0 := hquiet.inv.owned.random.ram
      simp only [memphyRead_random hram']
      refine ⟨_, rfl, hquiet, .inl ⟨rfl, ⟨hout, hacc⟩, _, ?_, rfl⟩⟩
      rw [← hquiet.byte, System.byte, page_of_resident hres]
      rfl
    · exact ⟨_, rfl, hquiet, .inr ⟨rfl, fun ha => hacc ha.2, rfl⟩⟩

theorem tlbwrite_spec (hram : numfp c.ramSz ≤ 8192) (h : OwnedInv c s) (data : Byte)
    {destination : BitVec 32} (hid : destination.toNat < pagingMaxSymtblSz)
    (offset : BitVec 32) :
    ∃ r, tlbwrite s p data destination offset = .ok r ∧
      WriteEnd c p ((s.mm p).symrgtbl ⟨destination.toNat, hid⟩) offset data s r := by
  rw [tlbwrite_eq s p data hid]
  generalize (s.mm p).symrgtbl ⟨destination.toNat, hid⟩ = currg
  by_cases hout : OutOfRange currg offset
  · simp only [hout, if_true]
    exact ⟨_, rfl, h, fun _ => rfl, .inr ⟨rfl, fun ha => ha.1 hout, fun _ _ => rfl⟩⟩
  · have hquiet := tlbFrame_quiet (p := p) hram h (vaddr_page_lt currg offset)
    have hspec := tlbFrame_spec (p := p) hram h (vaddr_page_lt currg offset)
    simp only [hout, if_false, pagingPgn_rgAddr, pagingOffst_rgAddr]
    generalize tlbFrame s p (vaddr currg offset / 256) = r at hquiet hspec
    obtain ⟨fr, s1⟩ := r
    obtain ⟨hacc, hres, hfr⟩ | ⟨hacc, hfr⟩ := hspec <;> simp only at hfr <;> subst hfr
    · refine ⟨_, rfl, hquiet.inv.store _ data, hquiet.symrgtbl,
        .inl ⟨rfl, ⟨hout, hacc⟩, fun q x => ?_⟩⟩
      rw [← hquiet.byte]
      exact byte_store hquiet.inv.owned.exclusive hquiet.inv.owned.random hres data q x
    · exact ⟨_, rfl, hquiet.inv, hquiet.symrgtbl,
        .inr ⟨rfl, fun ha => hacc ha.2, hquiet.byte⟩⟩

end Instr

end OsSim.Mem
