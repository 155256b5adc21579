import OsSim.Mem.Runs

/-!
# States that look alike

The code does not read every bit of its state: the cursor of a random access
device, an invalid entry of the TLB, and what an entry of the page table holds
besides the bits of the state that it is in are never looked at. States that
agree on the rest are alike, and instructions do the same to them.

Results:
* `Alike.run`: an instruction has the same outcome in states that are alike, and
  leads to states that are alike.
* `Alike.outcomes`: so does every program.
-/

namespace OsSim.Mem

open BitField

variable {ι : Type*} [DecidableEq ι]

/-! ## Entries of the page table -/

/-- The bits that are read of an entry that is not in swap: its flags and the frame number. -/
def readMask : BitVec 32 := presentMask ||| swappedMask ||| fpnMask

/-- The entries agree on the bits that are read. -/
structure PteAlike (a b : Pte) : Prop where
  bits : EqOn readMask a b
  swap : Swapped a → EqOn pagingSwpMask a b

theorem PteAlike.refl (a : Pte) : PteAlike a a := ⟨.refl .., fun _ => .refl ..⟩

section

variable {a b : Pte}

theorem PteAlike.present_iff (h : PteAlike a b) : Present a ↔ Present b := by
  have hm : EqOn presentMask a b := h.bits.mono (by decide)
  rw [Mem.present_iff, Mem.present_iff, hm]

theorem PteAlike.swapped_iff (h : PteAlike a b) : Swapped a ↔ Swapped b := by
  have hm : EqOn swappedMask a b := h.bits.mono (by decide)
  rw [Mem.swapped_iff, Mem.swapped_iff, hm]

theorem PteAlike.symm (h : PteAlike a b) : PteAlike b a :=
  ⟨h.bits.symm, fun hs => (h.swap (h.swapped_iff.mpr hs)).symm⟩

theorem PteAlike.pteFpn (h : PteAlike a b) : pteFpn a = pteFpn b := by
  have hm : EqOn fpnMask a b := h.bits.mono (by decide)
  rw [Mem.pteFpn, hm.getval, ← Mem.pteFpn]

theorem PteAlike.pteSwptyp (h : PteAlike a b) : pteSwptyp a = pteSwptyp b := by
  have hm : EqOn swptypMask a b := h.bits.mono (by decide)
  rw [Mem.pteSwptyp, hm.getval, ← Mem.pteSwptyp]

theorem PteAlike.pagingSwp (h : PteAlike a b) (hs : Swapped a) : pagingSwp a = pagingSwp b := by
  rw [Mem.pagingSwp, (h.swap hs).getval, ← Mem.pagingSwp]

/-- Whatever the entries were, they are alike after a frame number has been written. -/
theorem PteAlike.pteSetFpn (a b : Pte) (fpn : ℤ) : PteAlike (pteSetFpn a fpn) (pteSetFpn b fpn) := by
  refine ⟨.setval (.clrbit (.setbit ?_)) .., fun hs => absurd hs (not_swapped_pteSetFpn a fpn)⟩
  rw [show ~~~presentMask &&& (~~~swappedMask &&& (~~~fpnMask &&& readMask)) = 0#32 by decide]
  exact .zero a b

/-- Whatever the entries were, they are alike after a swap slot has been written. -/
theorem PteAlike.pteSetSwap (a b : Pte) (swptyp swpoff : ℤ) :
    PteAlike (pteSetSwap a swptyp swpoff) (pteSetSwap b swptyp swpoff) := by
  refine ⟨.setval (.setval (.setbit (.setbit ?_)) ..) .., fun _ =>
    .setval (.setval (.setbit (.setbit ?_)) ..) ..⟩
  · rw [show ~~~presentMask &&& (~~~swappedMask &&& (~~~swptypMask &&& (~~~swpoffMask &&& readMask)))
      = 0#32 by decide]
    exact .zero a b
  · rw [show ~~~presentMask &&& (~~~swappedMask &&& (~~~swptypMask &&&
      (~~~swpoffMask &&& pagingSwpMask))) = 0#32 by decide]
    exact .zero a b

theorem PteAlike.release (h : PteAlike a b) :
    PteAlike (clrbit a presentMask) (clrbit b presentMask) := by
  refine ⟨.clrbit (h.bits.mono (by decide)), fun hs => .clrbit ((h.swap ?_).mono (by decide))⟩
  rw [Mem.swapped_iff, and_clrbit_of_disjoint (by decide)] at hs
  exact (Mem.swapped_iff a).mpr hs

end

/-! ## The TLB -/

/-- An entry as the code sees it. -/
def TlbEntry.view (e : TlbEntry) : TlbEntry := if tlbValid e = 0 then 0 else e

/-- The TLB as the code sees it. -/
def Tlb.view (tlb : Tlb) : Tlb := { tlb with entries := tlb.entries.map TlbEntry.view }

theorem tlbValid_view (e : TlbEntry) : tlbValid e.view = tlbValid e := by
  unfold TlbEntry.view
  split_ifs with h
  · rw [h]
    decide
  · rfl

theorem view_of_valid {e : TlbEntry} (h : tlbValid e ≠ 0) : e.view = e := if_neg h

theorem tlbHit_view (pid pgnum : ℤ) (e : TlbEntry) :
    tlbHit pid pgnum e.view = tlbHit pid pgnum e := by
  by_cases h : tlbValid e = 0
  · simp [tlbHit, tlbValid_view, h]
  · rw [view_of_valid h]

theorem tlbInvalidates_view (pid pgnum : ℤ) (e : TlbEntry) :
    tlbInvalidates pid pgnum e.view = tlbInvalidates pid pgnum e := by
  by_cases h : tlbValid e = 0
  · simp [tlbInvalidates, tlbValid_view, h]
  · rw [view_of_valid h]

section

variable (tlb : Tlb) (pid pgnum : ℤ)

theorem find?_view : tlb.view.entries.find? (tlbHit pid pgnum) =
    tlb.entries.find? (tlbHit pid pgnum) := by
  have hhit : tlbHit pid pgnum ∘ TlbEntry.view = tlbHit pid pgnum :=
    funext (tlbHit_view pid pgnum)
  rw [Tlb.view, List.find?_map, hhit]
  cases hf : tlb.entries.find? (tlbHit pid pgnum) with
  | none => rfl
  | some e =>
    have hv := ((tlbHit_iff pid pgnum e).mp (List.find?_some hf)).1
    rw [Option.map_some, view_of_valid hv]

theorem tlbCacheRead_view : tlbCacheRead tlb.view pid pgnum = tlbCacheRead tlb pid pgnum := by
  unfold tlbCacheRead
  rw [find?_view]

theorem view_setTlbEntry (value : ℤ) :
    (setTlbEntry 1 pgnum pid value).view = setTlbEntry 1 pgnum pid value := by
  refine view_of_valid ?_
  rw [tlbValid_setTlbEntry]
  decide

theorem tlbCacheWrite_view (value : ℤ) :
    (tlbCacheWrite tlb pid pgnum value).view = tlbCacheWrite tlb.view pid pgnum value := by
  have hhit : tlbHit pid pgnum ∘ TlbEntry.view = tlbHit pid pgnum :=
    funext (tlbHit_view pid pgnum)
  have hinv : (fun e => tlbValid e == 0) ∘ TlbEntry.view = fun e => tlbValid e == 0 :=
    funext fun e => by simp only [Function.comp_apply, tlbValid_view]
  unfold tlbCacheWrite
  simp only [Tlb.view, List.findIdx?_map, hhit, hinv, List.length_map]
  cases tlb.entries.findIdx? (tlbHit pid pgnum) with
  | some index => simp only [List.map_set, view_setTlbEntry]
  | none =>
    cases tlb.entries.findIdx? (fun e => tlbValid e == 0) with
    | some index => simp only [List.map_set, view_setTlbEntry]
    | none => simp only [List.map_set, view_setTlbEntry]

theorem view_setTlbValid_zero (e : TlbEntry) : (setTlbValid e 0).view = 0 := by
  rw [TlbEntry.view, if_pos (tlbValid_setTlbValid_zero e)]

theorem view_view (e : TlbEntry) : e.view.view = e.view := by
  by_cases h : tlbValid e = 0
  · rw [TlbEntry.view, tlbValid_view, if_pos h, TlbEntry.view, if_pos h]
  · rw [view_of_valid h, view_of_valid h]

/-- An entry that has been invalidated looks alike, whatever it was. -/
theorem tlbCacheInvalidate_view :
    (tlbCacheInvalidate tlb.view pid pgnum).2.view = (tlbCacheInvalidate tlb pid pgnum).2.view := by
  have hinv : tlbInvalidates pid pgnum ∘ TlbEntry.view = tlbInvalidates pid pgnum :=
    funext (tlbInvalidates_view pid pgnum)
  unfold tlbCacheInvalidate
  by_cases h : pgnum = -1
  · simp only [h, if_true, Tlb.view, List.map_map]
    congr 2
    funext e
    simp only [Function.comp_apply, tlbInvalidates_view]
    split_ifs
    · rw [view_setTlbValid_zero, view_setTlbValid_zero]
    · exact view_view e
  · simp only [h, if_false, Tlb.view, List.findIdx?_map, hinv]
    cases tlb.entries.findIdx? (tlbInvalidates pid pgnum) with
    | none => simp only [List.map_map, Function.comp_def, view_view]
    | some index =>
      simp only [Tlb.mk.injEq, and_true]
      refine List.ext_getElem? fun n => ?_
      simp only [List.getElem?_map, List.getElem?_modify]
      cases tlb.entries[n]? with
      | none => rfl
      | some e =>
        split_ifs
        · exact congrArg some ((view_setTlbValid_zero _).trans (view_setTlbValid_zero _).symm)
        · exact congrArg some (view_view e)

end

/-- The caches look alike. -/
def TlbAlike (tlb tlb' : Tlb) : Prop := tlb.view = tlb'.view

section

variable {tlb tlb' : Tlb} (h : TlbAlike tlb tlb') (pid pgnum : ℤ)

include h

theorem TlbAlike.tlbCacheRead : tlbCacheRead tlb pid pgnum = tlbCacheRead tlb' pid pgnum := by
  rw [← tlbCacheRead_view, h, tlbCacheRead_view]

theorem TlbAlike.tlbCacheWrite (value : ℤ) :
    TlbAlike (tlbCacheWrite tlb pid pgnum value) (tlbCacheWrite tlb' pid pgnum value) := by
  rw [TlbAlike, tlbCacheWrite_view, h, ← tlbCacheWrite_view]

theorem TlbAlike.tlbCacheInvalidate :
    TlbAlike (tlbCacheInvalidate tlb pid pgnum).2 (tlbCacheInvalidate tlb' pid pgnum).2 := by
  rw [TlbAlike, ← tlbCacheInvalidate_view, h, tlbCacheInvalidate_view]

theorem TlbAlike.tlbFreePages (left pgn : ℕ) :
    TlbAlike (tlbFreePages pid left pgn tlb) (tlbFreePages pid left pgn tlb') := by
  induction left generalizing pgn tlb tlb' with
  | zero => exact h
  | succ left ih => exact ih (h.tlbCacheInvalidate pid pgn) (pgn + 1)

end

/-! ## Devices -/

/-- The device as the code sees it: the cursor is never read. -/
def Memphy.view (mp : Memphy) : Memphy := { mp with cursor := 0 }

section

variable (mp : Memphy)

theorem memphyRead_view (addr : ℤ) : memphyRead mp.view addr =
    ((memphyRead mp addr).1, (memphyRead mp addr).2.1, (memphyRead mp addr).2.2.view) := by
  by_cases h : mp.rdmflg = 0
  · simp [memphyRead, memphySeqRead, Memphy.view, h]
  · simp [memphyRead, Memphy.view, h]

theorem memphyWrite_view (addr : ℤ) (data : Byte) : memphyWrite mp.view addr data =
    ((memphyWrite mp addr data).1, (memphyWrite mp addr data).2.view) := by
  by_cases h : mp.rdmflg = 0
  · simp [memphyWrite, memphySeqWrite, Memphy.view, h]
  · simp [memphyWrite, Memphy.view, h]

theorem memphyGetFreefp_view : memphyGetFreefp mp.view =
    (memphyGetFreefp mp).map fun r => (r.1, r.2.view) := by
  unfold memphyGetFreefp Memphy.view
  simp only
  split_ifs
  · rfl
  · cases mp.freeFpList <;> rfl

theorem memphyPutFreefp_view (fpn : ℤ) :
    memphyPutFreefp mp.view fpn = (memphyPutFreefp mp fpn).view := rfl

theorem memphyPutAll_view (frames : List ℤ) :
    memphyPutAll mp.view frames = (memphyPutAll mp frames).view := by
  rw [memphyPutAll_eq, memphyPutAll_eq]
  rfl

theorem swapCpPage_view (mpsrc mpdst : Memphy) (srcfpn dstfpn : ℤ) :
    swapCpPage mpsrc.view srcfpn mpdst.view dstfpn =
      ((swapCpPage mpsrc srcfpn mpdst dstfpn).1.view,
        (swapCpPage mpsrc srcfpn mpdst dstfpn).2.view) := by
  unfold swapCpPage
  generalize List.range pagingPagesz = cells
  induction cells generalizing mpsrc mpdst with
  | nil => rfl
  | cons cellidx cells ih =>
    have hcell : swapCpCell srcfpn dstfpn (mpsrc.view, mpdst.view) cellidx =
        ((swapCpCell srcfpn dstfpn (mpsrc, mpdst) cellidx).1.view,
          (swapCpCell srcfpn dstfpn (mpsrc, mpdst) cellidx).2.view) := by
      simp only [swapCpCell, memphyRead_view, memphyWrite_view]
    rw [List.foldl_cons, hcell, ih, ← List.foldl_cons]

end

theorem swapCpPage_alike {mpsrc mpsrc' mpdst mpdst' : Memphy} (hs : mpsrc.view = mpsrc'.view)
    (hd : mpdst.view = mpdst'.view) (srcfpn dstfpn : ℤ) :
    (swapCpPage mpsrc srcfpn mpdst dstfpn).1.view =
        (swapCpPage mpsrc' srcfpn mpdst' dstfpn).1.view ∧
      (swapCpPage mpsrc srcfpn mpdst dstfpn).2.view =
        (swapCpPage mpsrc' srcfpn mpdst' dstfpn).2.view := by
  have h := swapCpPage_view mpsrc mpdst srcfpn dstfpn
  rw [hs, hd, swapCpPage_view, Prod.mk.injEq] at h
  exact ⟨h.1.symm, h.2.symm⟩

theorem memphyPutFreefp_alike {mp mp' : Memphy} (h : mp.view = mp'.view) (fpn : ℤ) :
    (memphyPutFreefp mp fpn).view = (memphyPutFreefp mp' fpn).view := by
  rw [← memphyPutFreefp_view, h, memphyPutFreefp_view]

/-- Devices that look alike have the same first free frame. -/
theorem memphyGetFreefp_alike {mp mp' : Memphy} (h : mp.view = mp'.view) :
    (memphyGetFreefp mp = none ∧ memphyGetFreefp mp' = none) ∨
      ∃ fpn r r', memphyGetFreefp mp = some (fpn, r) ∧ memphyGetFreefp mp' = some (fpn, r') ∧
        r.view = r'.view := by
  have hget : (memphyGetFreefp mp).map (fun r => (r.1, r.2.view)) =
      (memphyGetFreefp mp').map fun r => (r.1, r.2.view) := by
    rw [← memphyGetFreefp_view, h, memphyGetFreefp_view]
  cases hr : memphyGetFreefp mp with
  | none =>
    cases hr' : memphyGetFreefp mp' with
    | none => exact .inl ⟨rfl, rfl⟩
    | some r' =>
      rw [hr, hr'] at hget
      cases hget
  | some r =>
    cases hr' : memphyGetFreefp mp' with
    | none =>
      rw [hr, hr'] at hget
      cases hget
    | some r' =>
      rw [hr, hr', Option.map_some, Option.map_some, Option.some.injEq, Prod.mk.injEq] at hget
      obtain ⟨fpn, mp1⟩ := r
      obtain ⟨fpn', mp1'⟩ := r'
      obtain ⟨rfl, hview⟩ := hget
      exact .inr ⟨fpn, mp1, mp1', rfl, rfl, hview⟩

/-! ## The state -/

/-- The memories of a process look alike: an entry is read if it is present, or if its page is on
the FIFO list. -/
structure MmAlike (mm mm' : Mm) : Prop where
  mmap : mm'.mmap = mm.mmap
  vmNext : mm'.vmNext = mm.vmNext
  symrgtbl : mm'.symrgtbl = mm.symrgtbl
  fifoPgn : mm'.fifoPgn = mm.fifoPgn
  pgd : ∀ pgn, PteAlike (mm.pgd pgn) (mm'.pgd pgn) ∨
    (¬ Present (mm.pgd pgn) ∧ ¬ Present (mm'.pgd pgn))
  listed : ∀ pgn ∈ mm.fifoPgn, PteAlike (mm.pgd pgn) (mm'.pgd pgn)

/-- The states look alike. -/
structure Alike (s s' : System ι) : Prop where
  mram : s.mram.view = s'.mram.view
  mswp : ∀ i, (s.mswp i).view = (s'.mswp i).view
  tlb : TlbAlike s.tlb s'.tlb
  pid : s'.pid = s.pid
  mm : ∀ p, MmAlike (s.mm p) (s'.mm p)

/-- Both calls fail in the same way, or their results are related. -/
inductive Matched {α : Type*} (R : α → α → Prop) : Except Fault α → Except Fault α → Prop
  | error (e : Fault) : Matched R (.error e) (.error e)
  | ok {a a' : α} : R a a' → Matched R (.ok a) (.ok a')

theorem Matched.map {α β : Type*} {R : α → α → Prop} {S : β → β → Prop} {f : α → β}
    {x x' : Except Fault α} (h : Matched R x x') (hf : ∀ a a', R a a' → S (f a) (f a')) :
    Matched S (x.map f) (x'.map f) := by
  cases h with
  | error e => exact .error e
  | ok hr => exact .ok (hf _ _ hr)

theorem MmAlike.present_iff {mm mm' : Mm} (h : MmAlike mm mm') (pgn : ℕ) :
    Present (mm.pgd pgn) ↔ Present (mm'.pgd pgn) := by
  obtain hp | ⟨hp, hp'⟩ := h.pgd pgn
  · exact hp.present_iff
  · exact iff_of_false hp hp'

theorem MmAlike.of_present {mm mm' : Mm} (h : MmAlike mm mm') {pgn : ℕ}
    (hp : Present (mm.pgd pgn)) : PteAlike (mm.pgd pgn) (mm'.pgd pgn) :=
  (h.pgd pgn).resolve_right fun hn => hn.1 hp

theorem MmAlike.symm {mm mm' : Mm} (h : MmAlike mm mm') : MmAlike mm' mm where
  mmap := h.mmap.symm
  vmNext := h.vmNext.symm
  symrgtbl := h.symrgtbl.symm
  fifoPgn := h.fifoPgn.symm
  pgd pgn := (h.pgd pgn).imp PteAlike.symm And.symm
  listed pgn hp := (h.listed pgn (h.fifoPgn ▸ hp)).symm

/-- An entry is replaced by entries that look alike. -/
theorem MmAlike.setPage {mm mm' : Mm} (h : MmAlike mm mm') (pgn : ℕ) {a b : Pte}
    (hab : PteAlike a b) {fifo : List ℕ} (hf : ∀ k ∈ fifo, k = pgn ∨ k ∈ mm.fifoPgn) :
    MmAlike { mm with pgd := Function.update mm.pgd pgn a, fifoPgn := fifo }
      { mm' with pgd := Function.update mm'.pgd pgn b, fifoPgn := fifo } := by
  refine ⟨h.mmap, h.vmNext, h.symrgtbl, rfl, fun k => ?_, fun k hk => ?_⟩
  · by_cases e : k = pgn
    · simp only [e, Function.update_self]
      exact .inl hab
    · simp only [Function.update_of_ne e]
      exact h.pgd k
  · by_cases e : k = pgn
    · simp only [e, Function.update_self]
      exact hab
    · simp only [Function.update_of_ne e]
      exact h.listed k ((hf k hk).resolve_left e)

section

variable {s s' : System ι} {p : ι}

omit [DecidableEq ι] in
theorem Alike.symm (h : Alike s s') : Alike s' s :=
  ⟨h.mram.symm, fun i => (h.mswp i).symm, h.tlb.symm, h.pid.symm, fun p => (h.mm p).symm⟩

omit [DecidableEq ι] in
theorem Alike.pidInt (h : Alike s s') (p : ι) : s'.pidInt p = s.pidInt p := by
  rw [System.pidInt, h.pid, ← System.pidInt]

theorem Alike.setMm (h : Alike s s') {mm mm' : Mm} (hmm : MmAlike mm mm') :
    Alike (s.setMm p mm) (s'.setMm p mm') := by
  refine ⟨h.mram, h.mswp, h.tlb, h.pid, fun q => ?_⟩
  by_cases hq : q = p
  · rw [hq, System.setMm_self, System.setMm_self]
    exact hmm
  · rw [System.setMm_of_ne _ _ _ hq, System.setMm_of_ne _ _ _ hq]
    exact h.mm q

omit [DecidableEq ι] in
theorem Alike.setRam (h : Alike s s') {mram mram' : Memphy} (hm : mram.view = mram'.view) :
    Alike { s with mram := mram } { s' with mram := mram' } :=
  ⟨hm, h.mswp, h.tlb, h.pid, h.mm⟩

omit [DecidableEq ι] in
theorem Alike.setTlb (h : Alike s s') {tlb tlb' : Tlb} (ht : TlbAlike tlb tlb') :
    Alike { s with tlb := tlb } { s' with tlb := tlb' } :=
  ⟨h.mram, h.mswp, ht, h.pid, h.mm⟩

omit [DecidableEq ι] in
theorem Alike.mswpAdd (h : Alike s s') (k : ℕ) :
    (mswpAdd s.mswp k).view = (mswpAdd s'.mswp k).view := by
  unfold Mem.mswpAdd
  split_ifs
  · exact h.mswp 0
  · rfl

omit [DecidableEq ι] in
theorem Alike.setMswpAdd (h : Alike s s') (k : ℕ) {mp mp' : Memphy} (hm : mp.view = mp'.view) :
    Alike { s with mswp := setMswpAdd s.mswp k mp }
      { s' with mswp := setMswpAdd s'.mswp k mp' } := by
  refine ⟨h.mram, fun i => ?_, h.tlb, h.pid, h.mm⟩
  unfold Mem.setMswpAdd
  split_ifs
  · simp only [Function.update_apply]
    split_ifs
    · exact hm
    · exact h.mswp i
  · exact h.mswp i

theorem Alike.setFifo (h : Alike s s') {fifo : List ℕ}
    (hf : ∀ k ∈ fifo, PteAlike ((s.mm p).pgd k) ((s'.mm p).pgd k)) :
    Alike (s.setFifo p fifo) (s'.setFifo p fifo) :=
  h.setMm ⟨(h.mm p).mmap, (h.mm p).vmNext, (h.mm p).symrgtbl, rfl, (h.mm p).pgd, hf⟩

theorem Alike.enlist (h : Alike s s') (pgn : ℕ)
    (hpte : PteAlike ((s.mm p).pgd pgn) ((s'.mm p).pgd pgn)) :
    Alike (s.setFifo p (enlistPgnNode (s.mm p).fifoPgn pgn))
      (s'.setFifo p (enlistPgnNode (s'.mm p).fifoPgn pgn)) := by
  rw [(h.mm p).fifoPgn]
  refine h.setFifo fun k hk => ?_
  obtain rfl | hk := List.mem_cons.mp hk
  · exact hpte
  · exact (h.mm p).listed k hk

theorem Alike.unlist (h : Alike s s') (pgn : ℕ) :
    Alike (s.setFifo p (clearPgnNode (s.mm p).fifoPgn pgn))
      (s'.setFifo p (clearPgnNode (s'.mm p).fifoPgn pgn)) := by
  rw [(h.mm p).fifoPgn]
  exact h.setFifo fun k hk => (h.mm p).listed k (List.mem_of_mem_erase hk)

theorem Alike.setPte (h : Alike s s') (pgn : ℕ) {a b : Pte} (hab : PteAlike a b) :
    Alike (s.setPte p pgn a) (s'.setPte p pgn b) := by
  have hmm := (h.mm p).setPage pgn hab fun k (hk : k ∈ (s.mm p).fifoPgn) => .inr hk
  refine h.setMm ?_
  rw [show ({ s'.mm p with pgd := Function.update (s'.mm p).pgd pgn b } : Mm) =
    { s'.mm p with pgd := Function.update (s'.mm p).pgd pgn b, fifoPgn := (s.mm p).fifoPgn } by
      rw [← (h.mm p).fifoPgn]]
  exact hmm

omit [DecidableEq ι] in
theorem Alike.putAll (h : Alike s s') (frames : List ℤ) :
    Alike { s with mram := memphyPutAll s.mram frames }
      { s' with mram := memphyPutAll s'.mram frames } := by
  refine h.setRam ?_
  rw [← memphyPutAll_view, h.mram, memphyPutAll_view]

omit [DecidableEq ι] in
theorem Alike.invalidate (h : Alike s s') (pid pgnum : ℤ) :
    Alike { s with tlb := (tlbCacheInvalidate s.tlb pid pgnum).2 }
      { s' with tlb := (tlbCacheInvalidate s'.tlb pid pgnum).2 } :=
  h.setTlb (h.tlb.tlbCacheInvalidate pid pgnum)

/-! ## The page functions -/

omit [DecidableEq ι] in
theorem Alike.swapSearch (h : Alike s s') (left swapIndex : ℕ) (vicSwapOff : ℤ) :
    ∃ index off t t', swapSearch left swapIndex vicSwapOff s = (index, off, t) ∧
      swapSearch left swapIndex vicSwapOff s' = (index, off, t') ∧ Alike t t' ∧
      t.mm = s.mm ∧ t'.mm = s'.mm := by
  induction left generalizing swapIndex vicSwapOff s s' with
  | zero => exact ⟨swapIndex, vicSwapOff, s, s', rfl, rfl, h, rfl, rfl⟩
  | succ left ih =>
    unfold Mem.swapSearch
    obtain ⟨hget, hget'⟩ | ⟨off, mp, mp', hget, hget', hmp⟩ :=
      memphyGetFreefp_alike (h.mswpAdd swapIndex)
    · simp only [hget, hget']
      by_cases hoff : vicSwapOff ≥ 0
      · simp only [hoff, if_true]
        exact ⟨_, _, _, _, rfl, rfl, h, rfl, rfl⟩
      · simp only [hoff, if_false]
        exact ih h (swapIndex + 1) vicSwapOff
    · have hset := h.setMswpAdd swapIndex hmp
      simp only [hget, hget']
      by_cases hoff : off ≥ 0
      · simp only [hoff, if_true]
        exact ⟨_, _, _, _, rfl, rfl, hset, rfl, rfl⟩
      · simp only [hoff, if_false]
        exact ih hset (swapIndex + 1) off

/-- The page that is swapped out is read through its entry, which looks alike. -/
theorem Alike.swapOut (h : Alike s s') {vicpgn : ℕ}
    (hv : PteAlike ((s.mm p).pgd vicpgn) ((s'.mm p).pgd vicpgn)) (swapIndex : ℕ)
    (vicSwapOff : ℤ) :
    (swapOut s p vicpgn swapIndex vicSwapOff).1 = (swapOut s' p vicpgn swapIndex vicSwapOff).1 ∧
      Alike (swapOut s p vicpgn swapIndex vicSwapOff).2
        (swapOut s' p vicpgn swapIndex vicSwapOff).2 := by
  have hcopy := swapCpPage_alike h.mram (h.mswpAdd swapIndex) (pteFpn ((s.mm p).pgd vicpgn))
    vicSwapOff
  have htlb := h.invalidate (s.pidInt p) vicpgn
  refine ⟨hv.pteFpn, ?_⟩
  unfold Mem.swapOut
  simp only [← hv.pteFpn, h.pidInt p]
  exact ((htlb.setRam hcopy.1).setMswpAdd swapIndex hcopy.2).setPte vicpgn (.pteSetSwap ..)

/-- The first victim is the same page, and what is left of the list was listed before. -/
theorem findVictimPage_cases (fifo : List ℕ) :
    (findVictimPage fifo = none) ∨
      ∃ pgn rest, findVictimPage fifo = some (pgn, rest) ∧ pgn ∈ fifo ∧ ∀ k ∈ rest, k ∈ fifo := by
  unfold findVictimPage
  cases hlast : fifo.getLast? with
  | none => exact .inl rfl
  | some pgn =>
    exact .inr ⟨pgn, _, rfl, List.mem_of_getLast? hlast, fun k hk => List.mem_of_mem_dropLast hk⟩

theorem Alike.allocPagesRange (h : Alike s s') (raw : List ℤ) (left : ℕ) (frmLst : List ℤ) :
    ∃ ret frames t t', allocPagesRange p raw left frmLst s = (ret, frames, t) ∧
      allocPagesRange p raw left frmLst s' = (ret, frames, t') ∧ Alike t t' := by
  induction left generalizing frmLst s s' with
  | zero => exact ⟨0, frmLst, s, s', rfl, rfl, h⟩
  | succ left ih =>
    unfold Mem.allocPagesRange
    obtain ⟨hget, hget'⟩ | ⟨fpn, mram, mram', hget, hget', hm⟩ := memphyGetFreefp_alike h.mram
    · simp only [hget, hget', (h.mm p).fifoPgn]
      obtain hvic | ⟨vicpgn, fifo, hvic, hmem, hrest⟩ := findVictimPage_cases (s.mm p).fifoPgn
      · simp only [hvic]
        exact ⟨_, _, _, _, rfl, rfl, h.putAll frmLst⟩
      · obtain ⟨index, off, t, t', hs, hs', ht, hmm, hmm'⟩ :=
          (h.setFifo fun k hk => (h.mm p).listed k (hrest k hk)).swapSearch pagingMaxMmswp 0 (-1)
        simp only [hvic, hs, hs']
        by_cases hoff : off < 0
        · simp only [hoff, if_true]
          exact ⟨_, _, _, _, rfl, rfl, ht.putAll raw⟩
        · have hvpte : PteAlike ((t.mm p).pgd vicpgn) ((t'.mm p).pgd vicpgn) := by
            rw [hmm, hmm', System.setFifo_self, System.setFifo_self]
            exact (h.mm p).listed vicpgn hmem
          obtain ⟨hfpn, hout⟩ := ht.swapOut hvpte index off
          simp only [hoff, if_false, ← hfpn]
          exact ih hout _
    · simp only [hget, hget']
      exact ih (h.setRam hm) (fpn :: frmLst)

theorem MmAlike.vmapLoop {mm mm' : Mm} (h : MmAlike mm mm') (pgn left pgit : ℕ)
    (frames : List ℤ) :
    MmAlike (vmapLoop pgn left pgit frames mm) (vmapLoop pgn left pgit frames mm') := by
  induction left generalizing pgit frames mm mm' with
  | zero => exact h
  | succ left ih =>
    cases frames with
    | nil => exact h
    | cons fpn frames =>
      unfold Mem.vmapLoop
      rw [h.fifoPgn]
      refine ih (h.setPage (pgn + pgit) (.pteSetFpn ..) fun k hk => ?_) _ _
      exact List.mem_cons.mp hk

theorem Alike.vmMapRam (h : Alike s s') (mapstart incpgnum : ℤ) (raw : List ℤ) :
    (vmMapRam s p mapstart incpgnum raw).1 = (vmMapRam s' p mapstart incpgnum raw).1 ∧
      Alike (vmMapRam s p mapstart incpgnum raw).2 (vmMapRam s' p mapstart incpgnum raw).2 := by
  obtain ⟨ret, frames, t, t', hr, hr', ht⟩ := h.allocPagesRange (p := p) raw incpgnum.toNat []
  unfold Mem.vmMapRam
  simp only [hr, hr']
  by_cases hret : ret < 0
  · simp only [hret, if_true]
    exact ⟨trivial, ht⟩
  · simp only [hret, if_false]
    exact ⟨trivial, ht.setMm ((ht.mm p).vmapLoop ..)⟩

theorem Alike.swapIn (h : Alike s s') (pgn swapType : ℕ) (swapOff fpn : ℤ) :
    Alike (swapIn s p pgn swapType swapOff fpn) (swapIn s' p pgn swapType swapOff fpn) := by
  have hcopy := swapCpPage_alike (h.mswpAdd swapType) h.mram swapOff fpn
  have hpte := ((h.setRam hcopy.2).setMswpAdd swapType hcopy.1).setPte (p := p) pgn
    (.pteSetFpn ((s.mm p).pgd pgn) ((s'.mm p).pgd pgn) fpn)
  have hput := hpte.setMswpAdd swapType (memphyPutFreefp_alike (hpte.mswpAdd swapType) swapOff)
  refine hput.enlist pgn ?_
  simp only [System.setPte_self, Function.update_self]
  exact .pteSetFpn ..

theorem Alike.pgGetpage (h : Alike s s') (pgn : ℕ) :
    ∃ ret fpn t t', pgGetpage s p pgn = (ret, fpn, t) ∧ pgGetpage s' p pgn = (ret, fpn, t') ∧
      Alike t t' := by
  unfold Mem.pgGetpage
  by_cases hp : Present ((s.mm p).pgd pgn)
  · have hpte := (h.mm p).of_present hp
    by_cases hsw : Swapped ((s.mm p).pgd pgn)
    · simp only [hp, hsw, hpte.present_iff.mp hp, hpte.swapped_iff.mp hsw, not_true_eq_false,
        if_false, if_true, hpte.pteSwptyp, hpte.pagingSwp hsw]
      obtain ⟨hget, hget'⟩ | ⟨fpn, mram, mram', hget, hget', hm⟩ := memphyGetFreefp_alike h.mram
      · simp only [hget, hget', (h.mm p).fifoPgn]
        obtain hvic | ⟨vicpgn, fifo, hvic, -, hrest⟩ := findVictimPage_cases (s.mm p).fifoPgn
        · simp only [hvic]
          exact ⟨_, _, _, _, rfl, rfl, h⟩
        · simp only [hvic]
          exact ⟨_, _, _, _, rfl, rfl, h.setFifo fun k hk => (h.mm p).listed k (hrest k hk)⟩
      · simp only [hget, hget']
        exact ⟨_, _, _, _, rfl, rfl, (h.setRam hm).swapIn ..⟩
    · simp only [hp, hsw, hpte.present_iff.mp hp, mt hpte.swapped_iff.mpr hsw, not_true_eq_false,
        if_false, hpte.pteFpn]
      exact ⟨_, _, _, _, rfl, rfl, h⟩
  · simp only [hp, mt ((h.mm p).present_iff pgn).mpr hp, not_false_eq_true, if_true]
    exact ⟨_, _, _, _, rfl, rfl, h⟩

/-! ## Regions -/

theorem Alike.setSymrg (h : Alike s s') (rgid : Fin pagingMaxSymtblSz) (rg : VmRg) :
    Alike (setSymrg s p rgid rg) (setSymrg s' p rgid rg) :=
  h.setMm ⟨(h.mm p).mmap, (h.mm p).vmNext,
    congrArg (Function.update · rgid rg) (h.mm p).symrgtbl, (h.mm p).fifoPgn, (h.mm p).pgd,
    (h.mm p).listed⟩

theorem Alike.setMmap (h : Alike s s') (vma : VmArea) :
    Alike (s.setMm p { s.mm p with mmap := vma }) (s'.setMm p { s'.mm p with mmap := vma }) := by
  refine h.setMm ?_
  exact ⟨rfl, (h.mm p).vmNext, (h.mm p).symrgtbl, (h.mm p).fifoPgn, (h.mm p).pgd, (h.mm p).listed⟩

theorem Alike.setFreerg (h : Alike s s') (freerg : List VmRg) :
    Alike (setFreerg s p freerg) (setFreerg s' p freerg) := by
  rw [Mem.setFreerg, Mem.setFreerg, (h.mm p).mmap]
  exact h.setMmap _

theorem Alike.incVmaLimit (h : Alike s s') (incSz : ℤ) (raw : List ℤ) :
    (incVmaLimit s p incSz raw).1 = (incVmaLimit s' p incSz raw).1 ∧
      Alike (incVmaLimit s p incSz raw).2 (incVmaLimit s' p incSz raw).2 := by
  unfold Mem.incVmaLimit
  simp only [(h.mm p).mmap, (h.mm p).vmNext]
  split_ifs
  · exact ⟨rfl, h⟩
  · refine Alike.vmMapRam (h.setMm ?_) ..
    exact ⟨rfl, rfl, (h.mm p).symrgtbl, (h.mm p).fifoPgn, (h.mm p).pgd, (h.mm p).listed⟩

theorem Alike.allocFreerg (h : Alike s s') (rgid : Fin pagingMaxSymtblSz) (rgnode : VmRg)
    (raw : List ℤ) :
    ∃ ret addr t t', allocFreerg s p rgid rgnode raw = (ret, addr, t) ∧
      allocFreerg s' p rgid rgnode raw = (ret, addr, t') ∧ Alike t t' := by
  obtain ⟨hret, ht⟩ := (h.setSymrg (p := p) rgid rgnode).vmMapRam (p := p) (i32 rgnode.rgStart)
    ((pagingPageAlignsz (i32 (rgnode.rgEnd - rgnode.rgStart))).tdiv pagingPagesz) raw
  unfold Mem.allocFreerg
  simp only [← hret]
  split_ifs
  · simp only [(ht.mm p).mmap]
    exact ⟨_, _, _, _, rfl, rfl, (ht.setMmap _).setSymrg ..⟩
  · exact ⟨_, _, _, _, rfl, rfl, ht⟩

theorem Alike.allocSbrk (h : Alike s s') (rgid : Fin pagingMaxSymtblSz) (size : ℤ)
    (raw : List ℤ) :
    ∃ ret addr t t', allocSbrk s p rgid size raw = (ret, addr, t) ∧
      allocSbrk s' p rgid size raw = (ret, addr, t') ∧ Alike t t' := by
  obtain ⟨hret, ht⟩ := h.incVmaLimit (p := p) (pagingPageAlignsz size) raw
  unfold Mem.allocSbrk
  simp only [← hret, (h.mm p).mmap]
  split_ifs with h1 h2 h3 h3
  · exact ⟨_, _, _, _, rfl, rfl, ht⟩
  all_goals have hset := ht.setSymrg (p := p) rgid ⟨u64 (i32 (s.mm p).mmap.sbrk),
    u64 (i32 (i32 (s.mm p).mmap.sbrk + size))⟩
  · rw [(hset.mm p).mmap]
    exact ⟨_, _, _, _, rfl, rfl, hset.setFreerg _⟩
  · exact absurd h2 (by rw [← (hset.mm p).mmap]; exact h3)
  · exact absurd h3 (by rw [(hset.mm p).mmap]; exact h2)
  · exact ⟨_, _, _, _, rfl, rfl, hset⟩

/-- An entry is released whether it was present or not. -/
theorem Alike.release (h : Alike s s') (pgn : ℕ) :
    Alike (s.setPte p pgn (clrbit ((s.mm p).pgd pgn) presentMask))
      (s'.setPte p pgn (clrbit ((s'.mm p).pgd pgn) presentMask)) := by
  refine h.setMm ⟨(h.mm p).mmap, (h.mm p).vmNext, (h.mm p).symrgtbl, (h.mm p).fifoPgn,
    fun k => ?_, fun k hk => ?_⟩
  · by_cases hk : k = pgn
    · simp only [hk, Function.update_self]
      exact .inr ⟨not_present_clrbit _, not_present_clrbit _⟩
    · simp only [Function.update_of_ne hk]
      exact (h.mm p).pgd k
  · by_cases hkp : k = pgn
    · simp only [hkp, Function.update_self]
      exact ((h.mm p).listed pgn (hkp ▸ hk)).release
    · simp only [Function.update_of_ne hkp]
      exact (h.mm p).listed k hk

theorem Alike.freeLoop (h : Alike s s') (left pgn : ℕ) :
    (freeLoop p left pgn s).1 = (freeLoop p left pgn s').1 ∧
      Alike (freeLoop p left pgn s).2 (freeLoop p left pgn s').2 := by
  induction left generalizing pgn s s' with
  | zero => exact ⟨rfl, h⟩
  | succ left ih =>
    obtain ⟨ret, fpn, t, t', hr, hr', ht⟩ := h.pgGetpage (p := p) pgn
    unfold Mem.freeLoop
    simp only [hr, hr']
    split_ifs
    · exact ⟨rfl, ht⟩
    · have hput := (ht.setRam (memphyPutFreefp_alike ht.mram fpn)).release (p := p) pgn
      exact ih (hput.unlist pgn) (pgn + 1)

theorem Alike.alloc (h : Alike s s') (rgid : Fin pagingMaxSymtblSz) (size : ℤ) (raw : List ℤ) :
    Matched (fun r r' => r.1 = r'.1 ∧ r.2.1 = r'.2.1 ∧ Alike r.2.2 r'.2.2)
      (alloc s p rgid size raw) (alloc s' p rgid size raw) := by
  unfold Mem.alloc
  rw [(h.mm p).mmap]
  cases getFreeVmrgArea (s.mm p).mmap.vmFreergList (pagingPageAlignsz size) with
  | none => exact .error _
  | some r =>
    obtain ⟨rgnode, freerg⟩ := r
    have hset := h.setFreerg (p := p) freerg
    cases rgnode with
    | none =>
      obtain ⟨ret, addr, t, t', hr, hr', ht⟩ := hset.allocSbrk (p := p) rgid size raw
      simp only [hr, hr']
      exact .ok ⟨rfl, rfl, ht⟩
    | some rgnode =>
      obtain ⟨ret, addr, t, t', hr, hr', ht⟩ := hset.allocFreerg (p := p) rgid rgnode raw
      simp only [hr, hr']
      exact .ok ⟨rfl, rfl, ht⟩

theorem Alike.allocRgid (h : Alike s s') (rgid size : ℤ) (raw : List ℤ) :
    Matched (fun r r' => r.1 = r'.1 ∧ r.2.1 = r'.2.1 ∧ Alike r.2.2 r'.2.2)
      (allocRgid s p rgid size raw) (allocRgid s' p rgid size raw) := by
  unfold Mem.allocRgid
  cases symrgIndex rgid with
  | ok r => exact h.alloc r size raw
  | error e =>
    unfold allocOutside
    rw [(h.mm p).mmap]
    rcases getFreeVmrgArea (s.mm p).mmap.vmFreergList (pagingPageAlignsz size) with
      _ | ⟨_ | rgnode, freerg⟩
    · exact .error _
    · obtain ⟨hret, ht⟩ :=
        (h.setFreerg (p := p) freerg).incVmaLimit (p := p) (pagingPageAlignsz size) raw
      simp only [← hret]
      split_ifs
      · exact .ok ⟨rfl, rfl, ht⟩
      · exact .error _
    · exact .error _

theorem Alike.free (h : Alike s s') (rgid : Fin pagingMaxSymtblSz) :
    (free s p rgid).1 = (free s' p rgid).1 ∧ Alike (free s p rgid).2 (free s' p rgid).2 := by
  have hloop := h.freeLoop (p := p) (regionPages ((s.mm p).symrgtbl rgid))
    (pagingPgn (i32 ((s.mm p).symrgtbl rgid).rgStart))
  unfold Mem.free
  simp only [(h.mm p).symrgtbl, ← hloop.1]
  split_ifs
  · exact ⟨rfl, h⟩
  · exact ⟨rfl, hloop.2⟩
  · have hset := hloop.2.setSymrg (p := p) rgid ⟨0, 0⟩
    rw [(hset.mm p).mmap]
    exact ⟨rfl, hset.setFreerg _⟩

/-! ## Instructions -/

theorem Alike.tlbCachePages (h : Alike s s') (left pgn : ℕ) :
    (tlbCachePages p left pgn s).1 = (tlbCachePages p left pgn s').1 ∧
      Alike (tlbCachePages p left pgn s).2 (tlbCachePages p left pgn s').2 := by
  induction left generalizing pgn s s' with
  | zero => exact ⟨rfl, h⟩
  | succ left ih =>
    obtain ⟨ret, fpn, t, t', hr, hr', ht⟩ := h.pgGetpage (p := p) pgn
    unfold Mem.tlbCachePages
    simp only [hr, hr', ht.pidInt p]
    split_ifs
    · exact ⟨rfl, ht⟩
    · exact ⟨rfl, ht⟩
    · exact ih (ht.setTlb (ht.tlb.tlbCacheWrite ..)) (pgn + 1)

theorem Alike.tlbFrame (h : Alike s s') (pgn : ℕ) :
    ∃ frmnum t t', tlbFrame s p pgn = (frmnum, t) ∧ tlbFrame s' p pgn = (frmnum, t') ∧
      Alike t t' := by
  obtain ⟨ret, fpn, t, t', hr, hr', ht⟩ := h.pgGetpage (p := p) pgn
  unfold Mem.tlbFrame
  simp only [hr, hr', h.pidInt p, ht.pidInt p, ← h.tlb.tlbCacheRead]
  split_ifs
  · exact ⟨_, _, _, rfl, rfl, ht⟩
  · exact ⟨_, _, _, rfl, rfl, ht.setTlb (ht.tlb.tlbCacheWrite ..)⟩
  · exact ⟨_, _, _, rfl, rfl, h⟩

omit [DecidableEq ι] in
theorem Alike.memphyRead (h : Alike s s') (addr : ℤ) :
    (memphyRead s.mram addr).2.1 = (memphyRead s'.mram addr).2.1 := by
  have hview := memphyRead_view s.mram addr
  rw [h.mram, memphyRead_view] at hview
  exact (congrArg (fun r => r.2.1) hview).symm

omit [DecidableEq ι] in
theorem Alike.memphyWrite (h : Alike s s') (addr : ℤ) (data : Byte) :
    Alike { s with mram := (memphyWrite s.mram addr data).2 }
      { s' with mram := (memphyWrite s'.mram addr data).2 } := by
  have hview := memphyWrite_view s.mram addr data
  rw [h.mram, memphyWrite_view] at hview
  exact h.setRam (congrArg Prod.snd hview).symm

theorem Alike.tlballoc (h : Alike s s') (size regIndex : BitVec 32) (raw : List ℤ) :
    Matched (fun r r' => r.1 = r'.1 ∧ Alike r.2 r'.2) (tlballoc s p size regIndex raw)
      (tlballoc s' p size regIndex raw) := by
  unfold Mem.tlballoc
  have halloc := h.allocRgid (p := p) (argInt regIndex) (argInt size) raw
  generalize Mem.allocRgid s p (argInt regIndex) (argInt size) raw = x at halloc ⊢
  generalize Mem.allocRgid s' p (argInt regIndex) (argInt size) raw = x' at halloc ⊢
  cases halloc with
  | error e => exact .error e
  | ok hr =>
    obtain ⟨hret, haddr, ht⟩ := hr
    simp only [← hret, ← haddr]
    split_ifs
    · exact .ok ⟨rfl, ht⟩
    · exact .ok (ht.tlbCachePages ..)

theorem Alike.tlbfreeData (h : Alike s s') (regIndex : BitVec 32) :
    Matched (fun r r' => r.1 = r'.1 ∧ Alike r.2 r'.2) (tlbfreeData s p regIndex)
      (tlbfreeData s' p regIndex) := by
  unfold Mem.tlbfreeData
  cases getSymrgById (argInt regIndex) with
  | error e => exact .error e
  | ok rg =>
    cases rg with
    | none => exact .ok ⟨rfl, h⟩
    | some rgid =>
      simp only [(h.mm p).symrgtbl, h.pidInt p]
      exact .ok ⟨rfl, ((h.setTlb (h.tlb.tlbFreePages ..)).free rgid).2⟩

theorem Alike.tlbread (h : Alike s s') (source offset : BitVec 32) :
    Matched (fun r r' => r.1 = r'.1 ∧ r.2.1 = r'.2.1 ∧ Alike r.2.2 r'.2.2)
      (tlbread s p source offset) (tlbread s' p source offset) := by
  unfold Mem.tlbread
  cases getSymrgById (argInt source) with
  | error e => exact .error e
  | ok rg =>
    cases rg with
    | none => exact .ok ⟨rfl, rfl, h⟩
    | some rgid =>
      obtain ⟨frmnum, t, t', hr, hr', ht⟩ :=
        h.tlbFrame (p := p) (pagingPgn (rgAddr ((s.mm p).symrgtbl rgid) offset))
      simp only [(h.mm p).symrgtbl, hr, hr']
      split_ifs
      · exact .ok ⟨rfl, rfl, h⟩
      · cases frmnum with
        | none => exact .ok ⟨rfl, rfl, ht⟩
        | some frmnum => exact .ok ⟨rfl, ht.memphyRead _, ht⟩

theorem Alike.tlbwrite (h : Alike s s') (data : Byte) (destination offset : BitVec 32) :
    Matched (fun r r' => r.1 = r'.1 ∧ Alike r.2 r'.2) (tlbwrite s p data destination offset)
      (tlbwrite s' p data destination offset) := by
  unfold Mem.tlbwrite
  cases getSymrgById (argInt destination) with
  | error e => exact .error e
  | ok rg =>
    cases rg with
    | none => exact .ok ⟨rfl, h⟩
    | some rgid =>
      obtain ⟨frmnum, t, t', hr, hr', ht⟩ :=
        h.tlbFrame (p := p) (pagingPgn (rgAddr ((s.mm p).symrgtbl rgid) offset))
      simp only [(h.mm p).symrgtbl, hr, hr']
      split_ifs
      · exact .ok ⟨rfl, h⟩
      · cases frmnum with
        | none => exact .ok ⟨rfl, ht⟩
        | some frmnum => exact .ok ⟨rfl, ht.memphyWrite ..⟩

/-- An instruction has the same outcome in states that look alike, and leads to such states. -/
theorem Alike.run (h : Alike s s') (ins : Inst) (raw : List ℤ) :
    Matched (fun r r' => r.1 = r'.1 ∧ Alike r.2 r'.2) (run s p ins raw) (run s' p ins raw) := by
  unfold Mem.run
  cases ins.opcode with
  | CALC => exact .ok ⟨rfl, h⟩
  | ALLOC =>
    refine (h.tlballoc (p := p) ins.arg0 ins.arg1 raw).map fun r r' hr => ?_
    exact ⟨congrArg (Outcome.mk · none) hr.1, hr.2⟩
  | FREE =>
    refine (h.tlbfreeData (p := p) ins.arg0).map fun r r' hr => ?_
    exact ⟨congrArg (Outcome.mk · none) hr.1, hr.2⟩
  | READ =>
    refine (h.tlbread (p := p) ins.arg0 ins.arg1).map fun r r' hr => ?_
    exact ⟨congrArg₂ Outcome.mk hr.1 hr.2.1, hr.2.2⟩
  | WRITE =>
    refine (h.tlbwrite (p := p) (ins.arg0.setWidth 8) ins.arg1 ins.arg2).map fun r r' hr => ?_
    exact ⟨congrArg (Outcome.mk · none) hr.1, hr.2⟩

end

/-! ## Programs -/

/-- An instruction of a process, with the uninitialised frame numbers that it may read. -/
structure Call (ι : Type*) where
  proc : ι
  ins : Inst
  raw : List ℤ := []

/-- What the instructions return one after the other, up to the first that does not return. -/
def outcomes (s : System ι) : List (Call ι) → List (Except Fault Outcome)
  | [] => []
  | call :: prog =>
    match run s call.proc call.ins call.raw with
    | .error e => [.error e]
    | .ok (o, s) => .ok o :: outcomes s prog

/-- A program does the same in states that look alike. -/
theorem Alike.outcomes {s s' : System ι} (h : Alike s s') (prog : List (Call ι)) :
    outcomes s prog = outcomes s' prog := by
  induction prog generalizing s s' with
  | nil => rfl
  | cons call prog ih =>
    unfold Mem.outcomes
    have hrun := h.run (p := call.proc) call.ins call.raw
    generalize Mem.run s call.proc call.ins call.raw = x at hrun ⊢
    generalize Mem.run s' call.proc call.ins call.raw = x' at hrun ⊢
    cases hrun with
    | error e => rfl
    | ok hr =>
      obtain ⟨ho, ht⟩ := hr
      simp only [ho, ih ht]

end OsSim.Mem
