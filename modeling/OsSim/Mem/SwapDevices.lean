import OsSim.Mem.Runs

/-!
# Several swap devices

`main` sets up four swap devices, and `alloc_pages_range` looks through all of
them for a free slot. But the array of devices is passed on as an array of
pointers, so that `mswp + k` with `k ≥ 1` is no device (`mswpAdd`): pages go to the
first device or nowhere.

Results:
* `OneDevice`: every entry of a page in swap names the first device, and the
  others are as they were set up. It is kept by every function.
* `allocPagesRange_fails`: a page to evict and no slot on the first device.
* `swapUnused_of_run`: the other devices are never used, in any run.
-/

namespace OsSim.Mem

open BitField

variable {ι : Type*} [DecidableEq ι]

/-! ## What is expected of device `k` -/

/-- A page has to be evicted, and the first device with a free slot is device `k`. -/
structure NextDevice (s : System ι) (p : ι) (k : Fin pagingMaxMmswp) : Prop where
  noFrame : s.mram.avail = []
  victim : (s.mm p).fifoPgn ≠ []
  full : ∀ i, i < k → (s.mswp i).avail = []
  slot : (s.mswp k).avail ≠ []

omit [DecidableEq ι] in
instance (s : System ι) (p : ι) (k : Fin pagingMaxMmswp) : Decidable (NextDevice s p k) :=
  decidable_of_iff (s.mram.avail = [] ∧ (s.mm p).fifoPgn ≠ [] ∧
    (∀ i, i < k → (s.mswp i).avail = []) ∧ (s.mswp k).avail ≠ [])
    ⟨fun h => ⟨h.1, h.2.1, h.2.2.1, h.2.2.2⟩, fun h => ⟨h.1, h.2, h.3, h.4⟩⟩

/-- The victim is in the first free slot of device `k`, and no other device has changed. -/
structure EvictsTo (s : System ι) (p : ι) (k : Fin pagingMaxMmswp) (s' : System ι) : Prop where
  took : (s'.mswp k).freeFpList = (s.mswp k).freeFpList.tail
  entry : ∀ vicpgn, (s.mm p).fifoPgn.getLast? = some vicpgn →
    Swapped ((s'.mm p).pgd vicpgn) ∧ pteSwptyp ((s'.mm p).pgd vicpgn) = k ∧
      (s.mswp k).freeFpList.head? = some (pagingSwp ((s'.mm p).pgd vicpgn) : ℤ)
  others : ∀ i, i ≠ k → s'.mswp i = s.mswp i

omit [DecidableEq ι] in
theorem memphyGetFreefp_of_avail {mp : Memphy} (h : mp.avail = []) : memphyGetFreefp mp = none := by
  obtain ⟨hget, -⟩ | ⟨fpn, rest, -, -, hav, -⟩ := memphyGetFreefp_eq mp
  · exact hget
  · rw [h] at hav
    cases hav

omit [DecidableEq ι] in
/-- The search ends without a slot when the first device has none. -/
theorem swapSearch_full {s : System ι} (h : (s.mswp 0).avail = []) :
    swapSearch pagingMaxMmswp 0 (-1) s = (4, -1, s) := by
  have hnone : ∀ k, k ≠ 0 → memphyGetFreefp (mswpAdd s.mswp k) = none :=
    fun k hk => memphyGetFreefp_mswpAdd hk
  simp [swapSearch, memphyGetFreefp_of_avail h, hnone]

/-- No frame, a victim, and no slot on the first device: the allocation fails, and the devices stay
as they are. -/
theorem allocPagesRange_fails {s : System ι} {p : ι} (hframe : s.mram.avail = [])
    (hvic : (s.mm p).fifoPgn ≠ []) (hslot : (s.mswp 0).avail = []) (raw : List ℤ) (n : ℕ)
    (held : List ℤ) :
    (allocPagesRange p raw (n + 1) held s).1 = -3000 ∧
      (allocPagesRange p raw (n + 1) held s).2.2.mswp = s.mswp := by
  obtain ⟨vicpgn, hlast⟩ := Option.isSome_iff_exists.mp (List.getLast?_isSome.mpr hvic)
  have hsearch := swapSearch_full (s := s.setFifo p (s.mm p).fifoPgn.dropLast) hslot
  unfold allocPagesRange
  simp only [memphyGetFreefp_of_avail hframe, findVictimPage, hlast, hsearch]
  exact ⟨rfl, rfl⟩

/-! ## The first device -/

/-- The entries of the pages in swap name the first device. -/
def Mm.FirstSwap (mm : Mm) : Prop :=
  ∀ pgn, Present (mm.pgd pgn) → Swapped (mm.pgd pgn) → pteSwptyp (mm.pgd pgn) = 0

theorem Mm.FirstSwap.update {mm : Mm} (h : mm.FirstSwap) {pgn : ℕ} {pte : Pte}
    (hpte : Present pte → Swapped pte → pteSwptyp pte = 0) (mm' : Mm)
    (hpgd : mm'.pgd = Function.update mm.pgd pgn pte) : mm'.FirstSwap := by
  intro k
  rw [hpgd, Function.update_apply]
  split_ifs
  · exact hpte
  · exact h k

theorem Mm.FirstSwap.congr {mm mm' : Mm} (h : mm.FirstSwap) (hpgd : mm'.pgd = mm.pgd) :
    mm'.FirstSwap := by
  unfold Mm.FirstSwap
  rw [hpgd]
  exact h

/-- Entries of pages in swap name the first device, and the others are the devices `m`. -/
structure OneDevice (m : Fin pagingMaxMmswp → Memphy) (s : System ι) : Prop where
  first : ∀ p, (s.mm p).FirstSwap
  others : ∀ i, i ≠ 0 → s.mswp i = m i

section

variable {m : Fin pagingMaxMmswp → Memphy} {s : System ι} {p : ι}

omit [DecidableEq ι] in
theorem OneDevice.congr (h : OneDevice m s) {s' : System ι} (hmm : s'.mm = s.mm)
    (hmswp : ∀ i, i ≠ 0 → s'.mswp i = s.mswp i) : OneDevice m s' :=
  ⟨fun p => hmm ▸ h.first p, fun i hi => (hmswp i hi).trans (h.others i hi)⟩

theorem OneDevice.setMm (h : OneDevice m s) {mm : Mm} (hmm : mm.FirstSwap) :
    OneDevice m (s.setMm p mm) := by
  refine ⟨fun q => ?_, h.others⟩
  by_cases hq : q = p
  · rw [hq, System.setMm_self]
    exact hmm
  · rw [System.setMm_of_ne _ _ _ hq]
    exact h.first q

/-- A change of regions or of the FIFO list. -/
theorem OneDevice.setSpace (h : OneDevice m s) {mm : Mm} (hpgd : mm.pgd = (s.mm p).pgd) :
    OneDevice m (s.setMm p mm) :=
  h.setMm ((h.first p).congr hpgd)

theorem OneDevice.setFifo (h : OneDevice m s) (fifo : List ℕ) : OneDevice m (s.setFifo p fifo) :=
  h.setSpace rfl

theorem OneDevice.setPte (h : OneDevice m s) (pgn : ℕ) {pte : Pte}
    (hpte : Present pte → Swapped pte → pteSwptyp pte = 0) : OneDevice m (s.setPte p pgn pte) :=
  h.setMm ((h.first p).update hpte _ rfl)

omit [DecidableEq ι] in
theorem setMswpAdd_of_ne (mswp : Fin pagingMaxMmswp → Memphy) (k : ℕ) (mp : Memphy)
    {i : Fin pagingMaxMmswp} (hi : i ≠ 0) : setMswpAdd mswp k mp i = mswp i := by
  unfold setMswpAdd
  split_ifs
  · exact Function.update_of_ne hi ..
  · rfl

omit [DecidableEq ι] in
/-- The search for a slot takes one from the first device or none. -/
theorem OneDevice.swapSearch (h : OneDevice m s) (left i : ℕ) {v : ℤ} (hv : v < 0) :
    OneDevice m (swapSearch left i v s).2.2 ∧
      ((swapSearch left i v s).2.1 < 0 ∨ (swapSearch left i v s).1 = 0) := by
  induction left generalizing i v s with
  | zero => exact ⟨h, .inl hv⟩
  | succ left ih =>
    unfold Mem.swapSearch
    cases hget : memphyGetFreefp (mswpAdd s.mswp i) with
    | none =>
      simp only
      rw [if_neg (by omega)]
      exact ih h _ hv
    | some r =>
      have hs : OneDevice m { s with mswp := setMswpAdd s.mswp i r.2 } :=
        h.congr rfl fun j hj => setMswpAdd_of_ne _ _ _ hj
      simp only
      split_ifs with hoff
      · refine ⟨hs, .inr ?_⟩
        by_contra hi
        rw [memphyGetFreefp_mswpAdd hi] at hget
        cases hget
      · exact ih hs _ (not_le.mp hoff)

theorem OneDevice.swapOut (h : OneDevice m s) (pgn : ℕ) (off : ℤ) :
    OneDevice m (swapOut s p pgn 0 off).2 := by
  rw [swapOut_snd]
  refine OneDevice.setPte ?_ pgn fun _ _ => ?_
  · exact h.congr rfl fun i hi => Function.update_of_ne hi ..
  · exact swptyp_pteSetSwap _ _ (by norm_num : 0 < 32)

theorem OneDevice.allocPagesRange (h : OneDevice m s) (raw : List ℤ) (n : ℕ) (held : List ℤ) :
    OneDevice m (allocPagesRange p raw n held s).2.2 := by
  induction n generalizing held s with
  | zero => exact h
  | succ n ih =>
    unfold Mem.allocPagesRange
    cases memphyGetFreefp s.mram with
    | some r =>
      have hs : OneDevice m { s with mram := r.2 } := h.congr rfl fun _ _ => rfl
      exact ih hs _
    | none =>
      cases findVictimPage (s.mm p).fifoPgn with
      | none => exact h.congr rfl fun _ _ => rfl
      | some v =>
        have hfifo := h.setFifo (p := p) v.2
        obtain ⟨hs, hwhere⟩ := hfifo.swapSearch pagingMaxMmswp 0 (by decide : (-1 : ℤ) < 0)
        simp only
        split_ifs with hoff
        · exact hs.congr rfl fun _ _ => rfl
        · rw [hwhere.resolve_left hoff]
          exact ih (hs.swapOut _ _) _

theorem firstSwap_vmapLoop (pgn left pgit : ℕ) (frames : List ℤ) {mm : Mm} (h : mm.FirstSwap) :
    (vmapLoop pgn left pgit frames mm).FirstSwap := by
  induction left generalizing pgit frames mm with
  | zero => exact h
  | succ left ih =>
    cases frames with
    | nil => exact h
    | cons fpn frames =>
      exact ih _ _ (h.update (fun _ hsw => absurd hsw (not_swapped_pteSetFpn _ fpn)) _ rfl)

theorem OneDevice.vmMapRam (h : OneDevice m s) (mapstart incpgnum : ℤ) (raw : List ℤ) :
    OneDevice m (vmMapRam s p mapstart incpgnum raw).2 := by
  have hs := h.allocPagesRange (p := p) raw incpgnum.toNat []
  unfold Mem.vmMapRam
  simp only
  split_ifs
  · exact hs
  · exact hs.setMm (firstSwap_vmapLoop _ _ 0 _ (hs.first p))

theorem OneDevice.swapIn (h : OneDevice m s) (pgn swapType : ℕ) (swapOff fpn : ℤ) :
    OneDevice m (swapIn s p pgn swapType swapOff fpn) := by
  rw [swapIn_eq]
  refine OneDevice.setMm ?_ ?_
  · exact h.congr rfl fun i hi => by simp only [setMswpAdd_of_ne _ _ _ hi]
  · exact (h.first p).update (fun _ hsw => absurd hsw (not_swapped_pteSetFpn _ fpn)) _ rfl

theorem OneDevice.pgGetpage (h : OneDevice m s) (pgn : ℕ) :
    OneDevice m (pgGetpage s p pgn).2.2 := by
  obtain ⟨-, hr⟩ | ⟨-, hr⟩ | ⟨-, -, -, hr⟩ | ⟨-, -, fpn, rest, -, -, hr⟩ :=
    pgGetpage_cases s p pgn <;> rw [hr]
  · exact h
  · exact h
  · exact h.setSpace rfl
  · have hs : OneDevice m (s.setFrames rest) := h.congr rfl fun _ _ => rfl
    exact hs.swapIn ..

theorem OneDevice.freeLoop (h : OneDevice m s) (left pgn : ℕ) :
    OneDevice m (freeLoop p left pgn s).2 := by
  induction left generalizing pgn s with
  | zero => exact h
  | succ left ih =>
    have hget := h.pgGetpage (p := p) pgn
    unfold Mem.freeLoop
    simp only
    split_ifs
    · exact hget
    · refine ih (OneDevice.setFifo (OneDevice.setPte ?_ pgn ?_) _) _
      · exact hget.congr rfl fun _ _ => rfl
      · exact fun hp => absurd hp (not_present_clrbit _)

/-! ## Instructions -/

theorem OneDevice.setSymrg (h : OneDevice m s) (r : Fin pagingMaxSymtblSz) (rg : VmRg) :
    OneDevice m (setSymrg s p r rg) :=
  h.setSpace rfl

theorem OneDevice.setFreerg (h : OneDevice m s) (rgs : List VmRg) :
    OneDevice m (setFreerg s p rgs) :=
  h.setSpace rfl

theorem OneDevice.allocFreerg (h : OneDevice m s) (r : Fin pagingMaxSymtblSz) (rg : VmRg)
    (raw : List ℤ) : OneDevice m (allocFreerg s p r rg raw).2.2 := by
  have hmap := (h.setSymrg (p := p) r rg).vmMapRam (p := p) (i32 rg.rgStart)
    ((pagingPageAlignsz (i32 (rg.rgEnd - rg.rgStart))).tdiv pagingPagesz) raw
  unfold Mem.allocFreerg
  simp only
  generalize Mem.vmMapRam _ p _ _ raw = res at hmap ⊢
  split_ifs
  · refine OneDevice.setSymrg (hmap.setSpace ?_) r _
    rfl
  · exact hmap

theorem OneDevice.incVmaLimit (h : OneDevice m s) (incSz : ℤ) (raw : List ℤ) :
    OneDevice m (incVmaLimit s p incSz raw).2 := by
  unfold Mem.incVmaLimit
  simp only
  split_ifs
  · exact h
  · have hs : OneDevice m (s.setMm p { s.mm p with mmap := { (s.mm p).mmap with
        vmEnd := u64 ((s.mm p).mmap.vmEnd + incSz), sbrk := u64 ((s.mm p).mmap.sbrk + incSz) } }) :=
      h.setSpace rfl
    exact hs.vmMapRam ..

theorem OneDevice.allocSbrk (h : OneDevice m s) (r : Fin pagingMaxSymtblSz) (size : ℤ)
    (raw : List ℤ) : OneDevice m (allocSbrk s p r size raw).2.2 := by
  have hinc := fun n => h.incVmaLimit (p := p) n raw
  unfold Mem.allocSbrk
  simp only
  split_ifs
  · exact hinc _
  · exact ((hinc _).setSymrg r _).setFreerg _
  · exact (hinc _).setSymrg r _

theorem OneDevice.alloc (h : OneDevice m s) (r : Fin pagingMaxSymtblSz) (size : ℤ) (raw : List ℤ)
    {res : ℤ × ℤ × System ι} (hres : alloc s p r size raw = .ok res) : OneDevice m res.2.2 := by
  unfold Mem.alloc at hres
  split at hres
  · cases hres
  · cases hres
    exact (h.setFreerg _).allocFreerg r _ raw
  · cases hres
    exact (h.setFreerg _).allocSbrk r size raw

theorem OneDevice.tlbCachePages (h : OneDevice m s) (left pgn : ℕ) :
    OneDevice m (tlbCachePages p left pgn s).2 := by
  induction left generalizing pgn s with
  | zero => exact h
  | succ left ih =>
    have hget := h.pgGetpage (p := p) pgn
    unfold Mem.tlbCachePages
    simp only
    split_ifs
    · exact hget
    · exact hget
    · refine ih ?_ _
      exact hget.congr rfl fun _ _ => rfl

theorem OneDevice.free (h : OneDevice m s) (r : Fin pagingMaxSymtblSz) :
    OneDevice m (free s p r).2 := by
  have hl := fun left pgn => h.freeLoop (p := p) left pgn
  unfold Mem.free
  simp only
  split_ifs
  · exact h
  · exact hl _ _
  · exact ((hl _ _).setSymrg r _).setFreerg _

theorem OneDevice.tlbFrame (h : OneDevice m s) (pgn : ℕ) : OneDevice m (tlbFrame s p pgn).2 := by
  have hget := h.pgGetpage (p := p) pgn
  unfold Mem.tlbFrame
  simp only
  split_ifs
  · exact hget
  · exact hget.congr rfl fun _ _ => rfl
  · exact h

theorem Accessed.oneDevice {rgid offset : BitVec 32} {s' : System ι}
    (ha : Accessed s p rgid offset s') (h : OneDevice m s) : OneDevice m s' := by
  obtain ⟨pgn, -, rfl⟩ := ha.exists_page
  exact h.tlbFrame pgn

theorem OneDevice.run (h : OneDevice m s) {ins : Inst} {raw : List ℤ} {o : Outcome}
    {s' : System ι} (hrun : run s p ins raw = .ok (o, s')) : OneDevice m s' := by
  cases executed_of_run hrun with
  | compute => exact h
  | alloc _ hid _ hr =>
    unfold tlballoc at hr
    simp only [allocRgid_eq hid] at hr
    split at hr
    · cases hr
    · next halloc =>
      have hs := h.alloc _ _ raw halloc
      split_ifs at hr
      · cases hr
        exact hs
      · rw [← show _ = s' from congrArg Prod.snd (Except.ok.inj hr)]
        exact hs.tlbCachePages _ _
  | free _ hr =>
    unfold tlbfreeData at hr
    split at hr
    · cases hr
    · cases hr
      exact h
    · cases hr
      refine OneDevice.free ?_ _
      exact h.congr rfl fun _ _ => rfl
  | read _ hr =>
    obtain rfl | ha := tlbread_state hr
    · exact h
    · exact ha.oneDevice h
  | write _ hr =>
    obtain rfl | ⟨t, ha, rfl | ⟨addr, rfl⟩⟩ := tlbwrite_state hr
    · exact h
    · exact ha.oneDevice h
    · exact (ha.oneDevice h).congr rfl fun _ _ => rfl

end

/-! ## Runs -/

theorem oneDevice_of_run {c : Config ι} {tr : List (Label ι)} {s : System ι}
    (h : (memLts c).Run tr s) : OneDevice c.init.mswp s := by
  refine h.invariant (fun s h0 => ?_) fun _ _ _ hi hst => hi.run hst
  rw [show s = c.init from h0]
  exact ⟨fun _ _ hp => absurd hp not_present_zero, fun _ _ => rfl⟩

/-- An allocation that is to take a slot of device `k ≥ 1` fails and takes none. -/
theorem NextDevice.fails {s : System ι} {p : ι} {k : Fin pagingMaxMmswp} (hk : k ≠ 0)
    (h : NextDevice s p k) (raw : List ℤ) (n : ℕ) (held : List ℤ) :
    (allocPagesRange p raw (n + 1) held s).1 = -3000 ∧
      ¬ EvictsTo s p k (allocPagesRange p raw (n + 1) held s).2.2 := by
  obtain ⟨hfail, hsame⟩ := allocPagesRange_fails h.noFrame h.victim
    (h.full 0 (Fin.pos_iff_ne_zero.mpr hk)) raw n held
  refine ⟨hfail, fun he => h.slot ?_⟩
  have htail := he.took
  rw [hsame] at htail
  -- a list that is its own tail is empty
  have hnil : (s.mswp k).freeFpList = [] := by
    have hlen := congrArg List.length htail
    rw [List.length_tail] at hlen
    rw [← List.length_eq_zero_iff]
    omega
  unfold Memphy.avail
  rw [hnil, ite_self]

/-- In no state of any run, with any sizes of the swap devices, does an eviction take a slot of one
of the devices 1, 2, 3 when it is its turn: the allocation fails. These devices are always as they
were set up, and no page is ever in them. -/
theorem swapUnused_of_run {c : Config ι} {tr : List (Label ι)} {s : System ι}
    (h : (memLts c).Run tr s) :
    (∀ p k, k ≠ 0 → NextDevice s p k → ∀ raw n held,
      (allocPagesRange p raw (n + 1) held s).1 = -3000 ∧
        ¬ EvictsTo s p k (allocPagesRange p raw (n + 1) held s).2.2) ∧
      (∀ k, k ≠ 0 → s.mswp k = c.init.mswp k) ∧
      ∀ p pgn, Present ((s.mm p).pgd pgn) → Swapped ((s.mm p).pgd pgn) →
        pteSwptyp ((s.mm p).pgd pgn) = 0 := by
  have hone := oneDevice_of_run h
  exact ⟨fun p k hk hn raw n held => hn.fails hk raw n held, hone.others, hone.first⟩

/-! ## Two devices of one slot -/

/-- A RAM of one frame and two swap devices of one slot each. -/
def Config.twoSwaps : Config (Fin 2) :=
  { Config.two 256 256 with swpSz := fun i => if i = 0 ∨ i = 1 then 256 else 0 }

/-- Two `ALLOC`s of a page, so that the slot of the first device is taken. -/
theorem exists_nextDevice : ∃ s,
    ((memLts Config.twoSwaps).guard BreaksOk).Run
      [⟨0, ⟨.ALLOC, 256, 0, 0⟩, [], ⟨0, none⟩⟩, ⟨0, ⟨.ALLOC, 256, 1, 0⟩, [], ⟨0, none⟩⟩] s ∧
      NextDevice s 0 1 := by
  obtain ⟨s, hrun, hnext⟩ := exists_run_of_runAll Config.twoSwaps BreaksOk
    [⟨0, ⟨.ALLOC, 256, 0, 0⟩, [], ⟨0, none⟩⟩, ⟨0, ⟨.ALLOC, 256, 1, 0⟩, [], ⟨0, none⟩⟩]
    (fun s => decide (NextDevice s 0 1)) (by decide +kernel)
  exact ⟨s, hrun, of_decide_eq_true hnext⟩

/-- There the next page fails to be allocated. -/
theorem swapUnused_twoSwaps : ∃ s, NextDevice s 0 1 ∧
    (allocPagesRange (0 : Fin 2) [0] 1 [] s).1 = -3000 := by
  obtain ⟨s, hrun, hnext⟩ := exists_nextDevice
  exact ⟨s, hnext, ((swapUnused_of_run hrun.of_guard).1 0 1 (by decide) hnext [0] 0 []).1⟩

/-- The slot of the second device is not taken although it is its turn. -/
theorem not_evictsTo_twoSwaps : ∃ s,
    ((memLts Config.twoSwaps).guard BreaksOk).Run
      [⟨0, ⟨.ALLOC, 256, 0, 0⟩, [], ⟨0, none⟩⟩, ⟨0, ⟨.ALLOC, 256, 1, 0⟩, [], ⟨0, none⟩⟩] s ∧
      NextDevice s 0 1 ∧ ¬ EvictsTo s 0 1 (allocPagesRange 0 [0] 1 [] s).2.2 := by
  obtain ⟨s, hrun, hnext⟩ := exists_nextDevice
  exact ⟨s, hrun, hnext, (hnext.fails (by decide) [0] 0 []).2⟩

end OsSim.Mem
