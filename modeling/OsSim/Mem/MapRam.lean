import OsSim.Mem.Fifo
import OsSim.Mem.Plain

/-!
# Mapping pages that need frames of other pages

`vm_map_ram` (`src/mm.c`, lines 219–250) gets the frames with
`alloc_pages_range` and maps them with `vmap_page_range`. Both loops work on the
FIFO list, the page table and the free lists. Entries are read here by the
fields `SWPTYP` and `SWPOFF` that `pte_set_swap` writes, so a swap device may
have up to `2^21` slots (`pg_getpage` decodes 9 bits of the slot only).

Results:
* `allocPagesRange_acquired`: the frames are gathered, the victims are the
  oldest pages, and no content of any page changes.
* `vmMapRam_mapsAll`: what a successful `vm_map_ram` does.
-/

namespace OsSim.Mem

open Placement Placement.Store BitField

variable {ι : Type*} [DecidableEq ι]

/-! ## Slots as the fields name them -/

/-- `GETVAL(pte, PAGING_PTE_SWPOFF_MASK, PAGING_PTE_SWPOFF_LOBIT)`. -/
def pteSwpoff (pte : Pte) : ℤ := (getval pte swpoffMask 5).toNat

theorem swpoff_pteSetSwap {swpoff : ℤ} (pte : Pte) (swptyp : ℤ) (h0 : 0 ≤ swpoff)
    (h1 : swpoff < 2 ^ 21) : pteSwpoff (pteSetSwap pte swptyp swpoff) = swpoff := by
  unfold pteSwpoff pteSetSwap swpoffMask
  simp only
  rw [getval_setval_toNat (by norm_num) (by norm_num), BitVec.toNat_ofInt]
  omega

/-- Where the fields of an entry say that its page is. -/
def fieldLoc (pte : Pte) : Option Loc :=
  if ¬ Present pte then none
  else if Swapped pte then some (.slot (pteSwptyp pte) (pteSwpoff pte))
  else some (.ram (pteFpn pte))

theorem fieldLoc_of_swapped {pte : Pte} (hp : Present pte) (hsw : Swapped pte) :
    fieldLoc pte = some (.slot (pteSwptyp pte) (pteSwpoff pte)) := by
  rw [fieldLoc, if_neg (not_not.mpr hp), if_pos hsw]

theorem fieldLoc_of_resident {pte : Pte} (h : Resident pte) :
    fieldLoc pte = some (.ram (pteFpn pte)) := by
  rw [fieldLoc, if_neg (not_not.mpr h.1), if_neg h.2]

/-- The two fields hold what `pte_set_swap` is given. -/
theorem decodes_fieldLoc : Decodes fieldLoc (2 ^ 21) where
  absent _ h := if_pos h
  resident _ := fieldLoc_of_resident
  swapped pte slot h0 h1 := by
    rw [fieldLoc_of_swapped (present_pteSetSwap _ 0 slot) (swapped_pteSetSwap _ 0 slot),
      swpoff_pteSetSwap _ _ h0 h1]
    congr 2
    exact swptyp_pteSetSwap _ slot (show 0 < 32 by norm_num)

/-- The bytes of a page, at the place that the fields of its entry name. -/
def System.pageBytes (s : System ι) (p : ι) (pgn : ℕ) : Option (Fin 256 → Byte) :=
  ((Work.mk [] s).storeBy fieldLoc).view (p, pgn)

omit [DecidableEq ι] in
theorem pageBytes_of_resident {s : System ι} {p : ι} {pgn : ℕ}
    (h : Resident ((s.mm p).pgd pgn)) :
    s.pageBytes p pgn = some (s.mram.frame (pteFpn ((s.mm p).pgd pgn))) := by
  simp only [System.pageBytes, view, Work.storeBy, Work.store, fieldLoc_of_resident h,
    Option.map_some]

omit [DecidableEq ι] in
theorem pageBytes_of_swapped {s : System ι} {p : ι} {pgn : ℕ} (hp : Present ((s.mm p).pgd pgn))
    (hsw : Swapped ((s.mm p).pgd pgn)) (htyp : pteSwptyp ((s.mm p).pgd pgn) = 0) :
    s.pageBytes p pgn = some ((s.mswp 0).frame (pteSwpoff ((s.mm p).pgd pgn))) := by
  simp only [System.pageBytes, view, Work.storeBy, Work.store, fieldLoc_of_swapped hp hsw, htyp,
    Option.map_some, mswpAdd_zero]

omit [DecidableEq ι] in
/-- The bytes depend on the entry and the devices. -/
theorem pageBytes_congr {s s' : System ι} {p : ι} {pgn : ℕ} (hram : s'.mram = s.mram)
    (hswp : s'.mswp = s.mswp) (hpte : (s'.mm p).pgd pgn = (s.mm p).pgd pgn) :
    s'.pageBytes p pgn = s.pageBytes p pgn := by
  simp only [System.pageBytes, view, Work.storeBy, Work.store, hram, hswp, hpte]

/-! ## Getting the frames -/

/-- The location is a frame of RAM. -/
def Loc.IsRam : Loc → Prop
  | .ram _ => True
  | .slot _ _ => False

/-- What `alloc_pages_range` relies on when it holds the frames `held`: no frame is held, free or
in use twice, no free slot is in use, and the FIFO list holds the resident pages. -/
structure Ready (p : ι) (held : List ℤ) (s : System ι) : Prop where
  random : Random s
  apart : Apart Loc.IsRam ((Work.mk held s).storeBy fieldLoc)
  frames : ∀ fpn ∈ held ++ s.mram.freeFpList, 0 ≤ fpn ∧ fpn < 8192
  slots : ∀ slot ∈ (s.mswp 0).freeFpList, 0 ≤ slot ∧ slot < 2 ^ 21
  fifo : FifoExact (s.mm p)

section Gather

variable {p : ι} {held : List ℤ} {s : System ι}

omit [DecidableEq ι] in
theorem shuffle_get {fpn : ℤ} {rest : List ℤ} (hl : s.mram.freeFpList = fpn :: rest) :
    Shuffle ((Work.mk held s).storeBy fieldLoc)
      ((Work.mk (fpn :: held) (s.setFrames rest)).storeBy fieldLoc) := by
  refine ⟨rfl, ?_, rfl⟩
  simp only [Work.storeBy, Work.store, System.setFrames_mram, Memphy.setFree_freeFpList, hl,
    System.setFrames_mswp]
  exact (List.perm_middle.symm.map _).append_right _

omit [DecidableEq ι] in
/-- A free frame is taken. -/
theorem Ready.get (h : Ready p held s) {fpn : ℤ} {rest : List ℤ}
    (hl : s.mram.freeFpList = fpn :: rest) : Ready p (fpn :: held) (s.setFrames rest) where
  random := ⟨h.random.ram, h.random.swp⟩
  apart := (shuffle_get hl).apart h.apart
  frames x hx := by
    refine h.frames x ?_
    rw [hl]
    simp only [System.setFrames_mram, Memphy.setFree_freeFpList, List.mem_append,
      List.mem_cons] at hx ⊢
    tauto
  slots := h.slots
  fifo := h.fifo

/-- The oldest page leaves the list and RAM. -/
theorem FifoExact.swapOut {mm : Mm} (h : FifoExact mm) {vicpgn : ℕ}
    (hlast : mm.fifoPgn.getLast? = some vicpgn) (swptyp swpoff : ℤ) :
    FifoExact { mm with
      pgd := Function.update mm.pgd vicpgn (pteSetSwap (mm.pgd vicpgn) swptyp swpoff)
      fifoPgn := mm.fifoPgn.dropLast } := by
  have hfifo := List.dropLast_append_getLast? vicpgn hlast
  have hnd := h.nodup
  rw [← hfifo, List.nodup_append] at hnd
  refine ⟨hnd.1, fun k => ?_⟩
  simp only [Function.update_apply]
  split_ifs with hk
  · simp only [Resident, swapped_pteSetSwap, not_true_eq_false, and_false, iff_false]
    exact fun hmem => hnd.2.2 k hmem vicpgn (by simp) hk
  · rw [← h.mem_iff k]
    conv_rhs => rw [← hfifo]
    simp [hk]

variable {vicpgn : ℕ} {slot : ℤ} {rest : List ℤ}

/-- The state after `vicpgn`, which has left the list, has gone to `slot`. -/
def evictTo (s : System ι) (p : ι) (vicpgn : ℕ) (slot : ℤ) (rest : List ℤ) : System ι :=
  (swapOut ((s.setFifo p (s.mm p).fifoPgn.dropLast).setSlots rest) p vicpgn 0 slot).2

theorem evictTo_mm (s : System ι) (p : ι) (vicpgn : ℕ) (slot : ℤ) (rest : List ℤ) :
    (evictTo s p vicpgn slot rest).mm p = { s.mm p with
      pgd := Function.update (s.mm p).pgd vicpgn (pteSetSwap ((s.mm p).pgd vicpgn) 0 slot)
      fifoPgn := (s.mm p).fifoPgn.dropLast } := by
  rw [evictTo, swapOut_mm, System.setFifo_self]

theorem frame_evictTo (s : System ι) (p : ι) (vicpgn : ℕ) (slot : ℤ) (rest : List ℤ) :
    Frame p (s.setFifo p (s.mm p).fifoPgn.dropLast) (evictTo s p vicpgn slot rest) :=
  Frame.swapOut p _ vicpgn slot rest

/-- The page of the last node is relocated. -/
theorem Ready.relocate (h : Ready p held s) (hlast : (s.mm p).fifoPgn.getLast? = some vicpgn)
    (hl : (s.mswp 0).freeFpList = slot :: rest) :
    Relocate ((Work.mk held s).storeBy fieldLoc)
      ((Work.mk (pteFpn ((s.mm p).pgd vicpgn) :: held)
        (evictTo s p vicpgn slot rest)).storeBy fieldLoc)
      (p, vicpgn) (.ram (pteFpn ((s.mm p).pgd vicpgn))) (.slot 0 slot) := by
  have hres : Resident ((s.mm p).pgd vicpgn) :=
    (h.fifo.mem_iff vicpgn).mp (List.mem_of_getLast? hlast)
  obtain ⟨h0, h1⟩ := h.slots slot (by rw [hl]; exact List.mem_cons_self)
  have hres' : Resident (((s.setFifo p (s.mm p).fifoPgn.dropLast).mm p).pgd vicpgn) := by
    rw [System.setFifo_self]
    exact hres
  have hrandom : Random (s.setFifo p (s.mm p).fifoPgn.dropLast) := ⟨h.random.ram, h.random.swp⟩
  have hrel : Relocate ((Work.mk held (s.setFifo p (s.mm p).fifoPgn.dropLast)).storeBy fieldLoc) _
      (p, vicpgn) _ (.slot 0 slot) :=
    relocateBy_swapOut decodes_fieldLoc hrandom hres' hl h0 h1
  have hstore : (Work.mk held (s.setFifo p (s.mm p).fifoPgn.dropLast)).storeBy fieldLoc =
      (Work.mk held s).storeBy fieldLoc := by
    simp only [Work.storeBy, Work.store, System.setFifo_mram, System.setFifo_mswp,
      Store.mk.injEq, and_self, and_true]
    funext k
    by_cases hk : k.1 = p
    · rw [hk, System.setFifo_self]
    · rw [System.setFifo, System.setMm_of_ne _ _ _ hk]
  rw [hstore, System.setFifo_self] at hrel
  exact hrel

/-- A page is evicted. -/
theorem Ready.evict (h : Ready p held s) (hlast : (s.mm p).fifoPgn.getLast? = some vicpgn)
    (hl : (s.mswp 0).freeFpList = slot :: rest) :
    Ready p (pteFpn ((s.mm p).pgd vicpgn) :: held) (evictTo s p vicpgn slot rest) := by
  have hfr := frame_evictTo s p vicpgn slot rest
  obtain ⟨hram, hswp⟩ := swapOut_lists (s.setFifo p (s.mm p).fifoPgn.dropLast) p vicpgn slot rest
  rw [← evictTo] at hram hswp
  refine ⟨hfr.random ⟨h.random.ram, h.random.swp⟩,
    (h.relocate hlast hl).apart trivial h.apart, fun x hx => ?_, fun x hx => ?_, ?_⟩
  · rw [hram, System.setFifo_mram, List.cons_append, List.mem_cons] at hx
    obtain rfl | hx := hx
    · exact ⟨pteFpn_nonneg _, pteFpn_lt _⟩
    · exact h.frames x hx
  · rw [hswp] at hx
    exact h.slots x (by rw [hl]; exact List.mem_cons_of_mem _ hx)
  · rw [evictTo_mm]
    exact h.fifo.swapOut hlast 0 slot

end Gather

/-- `alloc_pages_range` has gathered `n` frames: the pages `gone` of the end of the FIFO list `kept
++ gone` are in slots that were free, and nothing else has changed. -/
structure Acquired (p : ι) (n : ℕ) (held : List ℤ) (s : System ι) (frames : List ℤ)
    (s' : System ι) (kept gone : List ℕ) : Prop where
  ready : Ready p frames s'
  length : frames.length = held.length + n
  view : ((Work.mk frames s').storeBy fieldLoc).view = ((Work.mk held s).storeBy fieldLoc).view
  before : (s.mm p).fifoPgn = kept ++ gone
  after : (s'.mm p).fifoPgn = kept
  count : gone.length = n - s.mram.avail.length
  swapped : ∀ v ∈ gone, ∃ slot ∈ (s.mswp 0).freeFpList,
    (s'.mm p).pgd v = pteSetSwap ((s.mm p).pgd v) 0 slot
  same : ∀ k, k ∉ gone → (s'.mm p).pgd k = (s.mm p).pgd k
  others : ∀ q, q ≠ p → s'.mm q = s.mm q

omit [DecidableEq ι] in
/-- A free frame is taken first. -/
theorem Acquired.get {p : ι} {n : ℕ} {held frames : List ℤ} {s s' : System ι} {kept gone : List ℕ}
    {fpn : ℤ} {rest : List ℤ} (hl : s.mram.freeFpList = fpn :: rest)
    (hav : s.mram.avail = fpn :: rest) (hav' : (s.mram.setFree rest).avail = rest)
    (h : Acquired p n (fpn :: held) (s.setFrames rest) frames s' kept gone) :
    Acquired p (n + 1) held s frames s' kept gone where
  ready := h.ready
  length := by
    rw [h.length, List.length_cons]
    omega
  view := h.view.trans (shuffle_get hl).view_eq
  before := h.before
  after := h.after
  count := by
    rw [h.count, System.setFrames_mram, hav, hav', List.length_cons]
    omega
  swapped := h.swapped
  same := h.same
  others := h.others

/-- A page is evicted first. -/
theorem Acquired.evict {p : ι} {n : ℕ} {held frames : List ℤ} {s s' : System ι}
    {kept gone : List ℕ} {vicpgn : ℕ} {slot : ℤ} {rest : List ℤ} (hr : Ready p held s)
    (hlast : (s.mm p).fifoPgn.getLast? = some vicpgn) (hav : s.mram.avail = [])
    (hl : (s.mswp 0).freeFpList = slot :: rest)
    (h : Acquired p n (pteFpn ((s.mm p).pgd vicpgn) :: held) (evictTo s p vicpgn slot rest) frames
      s' kept gone) :
    Acquired p (n + 1) held s frames s' kept (gone ++ [vicpgn]) := by
  have hfr := frame_evictTo s p vicpgn slot rest
  have hmm := evictTo_mm s p vicpgn slot rest
  have hlists := swapOut_lists (s.setFifo p (s.mm p).fifoPgn.dropLast) p vicpgn slot rest
  rw [← evictTo] at hlists
  have hav2 : (evictTo s p vicpgn slot rest).mram.avail = [] :=
    (Memphy.avail_congr s.mram hfr.ramSize hlists.1).trans hav
  have hbefore : kept ++ gone = (s.mm p).fifoPgn.dropLast := by rw [← h.before, hmm]
  -- the list holds the victim once
  have hnot : vicpgn ∉ gone := by
    have hnd := hr.fifo.nodup
    rw [← List.dropLast_append_getLast? vicpgn hlast, ← hbefore, List.nodup_append] at hnd
    exact fun hm => hnd.2.2 vicpgn (List.mem_append_right _ hm) vicpgn (by simp) rfl
  have hpgd : ∀ k, k ≠ vicpgn →
      ((evictTo s p vicpgn slot rest).mm p).pgd k = (s.mm p).pgd k := by
    intro k hk
    rw [hmm]
    exact Function.update_of_ne hk ..
  refine ⟨h.ready, ?_, h.view.trans ((hr.relocate hlast hl).view_eq hr.apart), ?_, h.after, ?_,
    fun v hv => ?_, fun k hk => ?_, fun q hq => ?_⟩
  · rw [h.length, List.length_cons]
    omega
  · rw [← List.append_assoc, hbefore, List.dropLast_append_getLast? vicpgn hlast]
  · rw [List.length_append, h.count, hav, hav2]
    simp
  · rw [List.mem_append, List.mem_singleton] at hv
    obtain hv | rfl := hv
    · obtain ⟨x, hx, hpte⟩ := h.swapped v hv
      rw [hlists.2] at hx
      have hne : v ≠ vicpgn := fun e => hnot (e ▸ hv)
      exact ⟨x, by rw [hl]; exact List.mem_cons_of_mem _ hx, by rw [hpte, hpgd v hne]⟩
    · refine ⟨slot, by rw [hl]; exact List.mem_cons_self, ?_⟩
      rw [h.same v hnot, hmm]
      exact Function.update_self ..
  · rw [List.mem_append, List.mem_singleton, not_or] at hk
    rw [h.same k hk.1, hpgd k hk.2]
  · rw [h.others q hq, hfr.mm q hq]
    exact System.setMm_of_ne _ _ _ hq

/-- A successful `alloc_pages_range`. -/
theorem allocPagesRange_acquired {p : ι} (raw : List ℤ) (n : ℕ) (held : List ℤ) (s : System ι)
    (h : Ready p held s) {frames : List ℤ} {s' : System ι}
    (hret : allocPagesRange p raw n held s = (0, frames, s')) :
    ∃ kept gone, Acquired p n held s frames s' kept gone := by
  induction n generalizing held s with
  | zero =>
    cases hret
    exact ⟨(s'.mm p).fifoPgn, [], h, rfl, rfl, by simp, rfl, by simp, by simp, fun _ _ => rfl,
      fun _ _ => rfl⟩
  | succ n ih =>
    unfold allocPagesRange at hret
    obtain ⟨hget, hav⟩ | ⟨fpn, rest, hget, hl, hav, hav'⟩ := memphyGetFreefp_eq s.mram
    · simp only [hget, findVictimPage] at hret
      cases hlast : (s.mm p).fifoPgn.getLast? with
      | none => simp [hlast] at hret
      | some vicpgn =>
        simp only [hlast] at hret
        obtain ⟨-, hneg⟩ | ⟨slot, rest, h0, hslots, -, hsearch⟩ :=
          swapSearch_cases (s.setFifo p (s.mm p).fifoPgn.dropLast)
        · simp [hneg] at hret
        · simp only [hsearch, not_lt.mpr h0, if_false, swapOut_fst, System.setSlots_mm,
            System.setFifo_self] at hret
          have hl : (s.mswp 0).freeFpList = slot :: rest := Memphy.freeFpList_of_avail hslots
          obtain ⟨kept, gone, hacq⟩ := ih _ _ (h.evict hlast hl) hret
          exact ⟨kept, gone ++ [vicpgn], hacq.evict h hlast hav hl⟩
    · simp only [hget] at hret
      obtain ⟨kept, gone, hacq⟩ := ih _ _ (h.get hl) hret
      exact ⟨kept, gone, hacq.get hl hav hav'⟩

/-! ## Mapping the pages -/

/-- The loop of `vmap_page_range`, when there is a frame for every page. -/
theorem vmapLoop_maps (pgn left pgit : ℕ) (frames : List ℤ) (mm : Mm)
    (hlen : frames.length = left) :
    let mm' := vmapLoop pgn left pgit frames mm
    (∀ i (hi : i < left), mm'.pgd (pgn + pgit + i) =
      pteSetFpn (mm.pgd (pgn + pgit + i)) (frames.get ⟨i, hlen ▸ hi⟩)) ∧
    (∀ k, ¬ InRange (pgn + pgit) left k → mm'.pgd k = mm.pgd k) ∧
    mm'.fifoPgn = (List.range' (pgn + pgit) left).reverse ++ mm.fifoPgn := by
  induction left generalizing pgit frames mm with
  | zero => exact ⟨fun i hi => absurd hi (Nat.not_lt_zero i), fun _ _ => rfl, rfl⟩
  | succ left ih =>
    obtain ⟨fpn, frames, rfl⟩ := List.exists_cons_of_length_eq_add_one hlen
    rw [vmapLoop]
    obtain ⟨hin, hout, hfifo⟩ := ih (pgit + 1) frames
      { mm with
        pgd := Function.update mm.pgd (pgn + pgit) (pteSetFpn (mm.pgd (pgn + pgit)) fpn)
        fifoPgn := enlistPgnNode mm.fifoPgn (pgn + pgit) } (by simpa using hlen)
    rw [← Nat.add_assoc] at hin hout hfifo
    refine ⟨fun i hi => ?_, fun k hk => ?_, ?_⟩
    · cases i with
      | zero =>
        rw [Nat.add_zero, hout _ fun hr => absurd hr.1 (by omega)]
        exact Function.update_self ..
      | succ i =>
        have hi' := hin i (by omega)
        simp only [show pgn + pgit + 1 + i = pgn + pgit + (i + 1) by omega] at hi'
        rw [Function.update_of_ne (by omega)] at hi'
        exact hi'
    · unfold InRange at hk hout
      rw [hout k (by omega)]
      exact Function.update_of_ne (by omega) ..
    · rw [hfifo, List.range'_succ, List.reverse_cons, List.append_assoc]
      rfl

/-! ## `vm_map_ram` -/

/-- The states in which pages of `p` are mapped: RAM has at most 8192 frames and the swap device at
most `2^21` slots, free frames and slots exist, none is free twice or in use, no two resident pages
share a frame, and the FIFO list of `p` holds its resident pages once each. -/
structure Fit (p : ι) (s : System ι) : Prop where
  random : Random s
  ramSize : numfp s.mram.maxsz ≤ 8192
  swpSize : numfp (s.mswp 0).maxsz ≤ 2 ^ 21
  free_valid : ∀ fpn ∈ s.mram.freeFpList, 0 ≤ fpn ∧ fpn < numfp s.mram.maxsz
  slot_valid : ∀ slot ∈ (s.mswp 0).freeFpList, 0 ≤ slot ∧ slot < numfp (s.mswp 0).maxsz
  free_nodup : s.mram.freeFpList.Nodup
  slot_nodup : (s.mswp 0).freeFpList.Nodup
  resident_fresh : ∀ q k, Resident ((s.mm q).pgd k) →
    pteFpn ((s.mm q).pgd k) ∉ s.mram.freeFpList
  swapped_fresh : ∀ q k, Present ((s.mm q).pgd k) → Swapped ((s.mm q).pgd k) →
    pteSwptyp ((s.mm q).pgd k) = 0 → pteSwpoff ((s.mm q).pgd k) ∉ (s.mswp 0).freeFpList
  resident_inj : ∀ q k q' k', Resident ((s.mm q).pgd k) → Resident ((s.mm q').pgd k') →
    pteFpn ((s.mm q).pgd k) = pteFpn ((s.mm q').pgd k') → q = q' ∧ k = k'
  fifo : FifoExact (s.mm p)

theorem fieldLoc_eq_ram {pte : Pte} {fpn : ℤ} :
    fieldLoc pte = some (.ram fpn) ↔ Resident pte ∧ pteFpn pte = fpn := by
  unfold fieldLoc Resident
  split_ifs with hp hsw <;> simp_all

theorem fieldLoc_eq_slot {pte : Pte} {d : ℕ} {x : ℤ} :
    fieldLoc pte = some (.slot d x) ↔
      Present pte ∧ Swapped pte ∧ pteSwptyp pte = d ∧ pteSwpoff pte = x := by
  unfold fieldLoc
  split_ifs with hp hsw <;> simp_all

omit [DecidableEq ι] in
theorem Fit.ready {p : ι} {s : System ι} (h : Fit p s) : Ready p [] s where
  random := h.random
  apart := by
    refine ⟨?_, ?_, ?_⟩
    · simp only [Work.storeBy, Work.store, List.nil_append]
      refine (h.free_nodup.map fun a b e => by simpa using e).append
        (h.slot_nodup.map fun a b e => by simpa using e) ?_
      simp [List.Disjoint]
    · rintro ⟨q, k⟩ ⟨q', k'⟩ (fpn | ⟨d, x⟩) hram h1 h2
      · obtain ⟨hres, hfpn⟩ := fieldLoc_eq_ram.mp h1
        obtain ⟨hres', hfpn'⟩ := fieldLoc_eq_ram.mp h2
        obtain ⟨rfl, rfl⟩ := h.resident_inj q k q' k' hres hres' (hfpn.trans hfpn'.symm)
        rfl
      · exact absurd hram id
    · rintro ⟨q, k⟩ (fpn | ⟨d, x⟩) h1
      · obtain ⟨hres, rfl⟩ := fieldLoc_eq_ram.mp h1
        simpa [Work.storeBy, Work.store] using h.resident_fresh q k hres
      · obtain ⟨hp, hsw, rfl, rfl⟩ := fieldLoc_eq_slot.mp h1
        have hfresh := h.swapped_fresh q k hp hsw
        simp only [Work.storeBy, Work.store, List.nil_append, List.mem_append, List.mem_map,
          Loc.slot.injEq, reduceCtorEq, and_false, exists_false, false_or, not_exists, not_and]
        rintro x hx h0 rfl
        exact hfresh h0.symm hx
  frames fpn hm := by
    have hv := h.free_valid fpn (by simpa using hm)
    have hr := h.ramSize
    omega
  slots slot hm := by
    have hv := h.slot_valid slot hm
    have hr := h.swpSize
    omega
  fifo := h.fifo

omit [DecidableEq ι] in
/-- The frames that can be taken are those on the list. -/
theorem Fit.avail {p : ι} {s : System ι} (h : Fit p s) :
    s.mram.avail = s.mram.freeFpList := by
  unfold Memphy.avail
  split_ifs with hm
  · refine (List.eq_nil_iff_forall_not_mem.mpr fun fpn hfpn => ?_).symm
    have hv := h.free_valid fpn hfpn
    exact absurd (maxsz_pos_of_numfp (lt_of_le_of_lt hv.1 hv.2)) (not_lt.mpr hm)
  · rfl

/-- `n` pages from `pgn` on have been mapped for `p`. The pages `gone`, the oldest ones, have made
room: each is in a slot that was free. -/
structure MapsAll (p : ι) (pgn n : ℕ) (s s' : System ι) (kept gone : List ℕ) : Prop where
  oldest : (s.mm p).fifoPgn = kept ++ gone
  count : gone.length = n - s.mram.freeFpList.length
  resident : ∀ k, InRange pgn n k → Resident ((s'.mm p).pgd k)
  distinct : ∀ k k', InRange pgn n k → InRange pgn n k' →
    pteFpn ((s'.mm p).pgd k) = pteFpn ((s'.mm p).pgd k') → k = k'
  swapped : ∀ v ∈ gone, Resident ((s.mm p).pgd v) ∧
    Present ((s'.mm p).pgd v) ∧ Swapped ((s'.mm p).pgd v) ∧ pteSwptyp ((s'.mm p).pgd v) = 0 ∧
    pteSwpoff ((s'.mm p).pgd v) ∈ (s.mswp 0).freeFpList ∧
    (s'.mswp 0).frame (pteSwpoff ((s'.mm p).pgd v)) = s.mram.frame (pteFpn ((s.mm p).pgd v))
  same : ∀ q k, (q = p → k ∉ gone ∧ ¬ InRange pgn n k) → (s'.mm q).pgd k = (s.mm q).pgd k
  bytes : ∀ q k, (q = p → ¬ InRange pgn n k) → s'.pageBytes q k = s.pageBytes q k
  newest : (s'.mm p).fifoPgn = (List.range' pgn n).reverse ++ kept

/-- The pages are mapped on the frames that have been gathered. -/
theorem Acquired.mapsAll {p : ι} {pgn n : ℕ} {s s' : System ι} {frames : List ℤ}
    {kept gone : List ℕ} (h : Fit p s)
    (habs : ∀ k, InRange pgn n k → ¬ Present ((s.mm p).pgd k))
    (hacq : Acquired p n [] s frames s' kept gone) :
    MapsAll p pgn n s (s'.setMm p (vmapLoop pgn n 0 frames (s'.mm p))) kept gone := by
  have hlen : frames.length = n := by
    rw [hacq.length, List.length_nil, Nat.zero_add]
  obtain ⟨hin, hout, hfifo⟩ := vmapLoop_maps pgn n 0 frames (s'.mm p) hlen
  rw [Nat.add_zero] at hin hout hfifo
  have hmem : ∀ v, v ∈ gone → Resident ((s.mm p).pgd v) := fun v hv =>
    (h.fifo.mem_iff v).mp (by rw [hacq.before]; exact List.mem_append_right _ hv)
  have hdisj : ∀ v, v ∈ gone → ¬ InRange pgn n v := fun v hv hr => habs v hr (hmem v hv).1
  have hvalid : ∀ fpn ∈ frames, 0 ≤ fpn ∧ fpn < 8192 := fun fpn hf =>
    hacq.ready.frames fpn (List.mem_append_left _ hf)
  have hnodup : frames.Nodup := by
    have hnd := hacq.ready.apart.nodup
    simp only [Work.storeBy, Work.store, List.map_append] at hnd
    exact hnd.of_append_left.of_append_left.of_map _
  -- the entry of a page of the range, and of any other
  have hmap : ∀ k (hr : InRange pgn n k), ∃ i : Fin frames.length, k = pgn + i ∧
      (vmapLoop pgn n 0 frames (s'.mm p)).pgd k = pteSetFpn ((s'.mm p).pgd k) (frames.get i) := by
    intro k hr
    have hk : k = pgn + (k - pgn) := by have := hr.1; omega
    have hi : k - pgn < n := by have := hr.2; have := hr.1; omega
    refine ⟨⟨k - pgn, hlen ▸ hi⟩, hk, ?_⟩
    have hpte := hin (k - pgn) hi
    rwa [← hk] at hpte
  have hrest : ∀ k, ¬ InRange pgn n k →
      ((s'.setMm p (vmapLoop pgn n 0 frames (s'.mm p))).mm p).pgd k = (s'.mm p).pgd k := by
    intro k hk
    rw [System.setMm_self, hout k hk]
  have hbytes : ∀ q k, s'.pageBytes q k = s.pageBytes q k :=
    fun q k => congrFun hacq.view (q, k)
  have hothers : ∀ q, q ≠ p →
      (s'.setMm p (vmapLoop pgn n 0 frames (s'.mm p))).mm q = s'.mm q :=
    fun q hq => System.setMm_of_ne _ _ _ hq
  refine ⟨hacq.before, h.avail ▸ hacq.count, fun k hr => ?_, fun k k' hr hr' heq => ?_,
    fun v hv => ?_, fun q k hk => ?_, fun q k hk => ?_, ?_⟩
  · obtain ⟨i, -, hpte⟩ := hmap k hr
    rw [System.setMm_self, hpte]
    exact resident_pteSetFpn _ _
  · obtain ⟨i, hk, hpte⟩ := hmap k hr
    obtain ⟨i', hk', hpte'⟩ := hmap k' hr'
    obtain ⟨h0, h1⟩ := hvalid _ (List.get_mem frames i)
    obtain ⟨h0', h1'⟩ := hvalid _ (List.get_mem frames i')
    rw [System.setMm_self, hpte, hpte', fpn_pteSetFpn _ h0 h1, fpn_pteSetFpn _ h0' h1'] at heq
    rw [hk, hk', hnodup.get_inj_iff.mp heq]
  · obtain ⟨slot, hslot, hpte⟩ := hacq.swapped v hv
    obtain ⟨h0, h1⟩ := h.ready.slots slot hslot
    have hoff : pteSwpoff ((s'.mm p).pgd v) = slot := by
      rw [hpte, swpoff_pteSetSwap _ _ h0 h1]
    have htyp : pteSwptyp ((s'.mm p).pgd v) = 0 := by
      rw [hpte]
      exact swptyp_pteSetSwap _ slot (show 0 < 32 by norm_num)
    have hp : Present ((s'.mm p).pgd v) := by rw [hpte]; exact present_pteSetSwap _ _ _
    have hsw : Swapped ((s'.mm p).pgd v) := by rw [hpte]; exact swapped_pteSetSwap _ _ _
    rw [hrest v (hdisj v hv)]
    refine ⟨hmem v hv, hp, hsw, htyp, by rw [hoff]; exact hslot, ?_⟩
    have hb := hbytes p v
    rw [pageBytes_of_swapped hp hsw htyp, pageBytes_of_resident (hmem v hv)] at hb
    exact Option.some.inj hb
  · by_cases hq : q = p
    · obtain ⟨hg, hr⟩ := hk hq
      rw [hq, hrest k hr, hacq.same k hg]
    · rw [hothers q hq, hacq.others q hq]
  · rw [← hbytes q k]
    refine pageBytes_congr rfl rfl ?_
    by_cases hq : q = p
    · rw [hq, hrest k (hk hq)]
    · rw [hothers q hq]
  · rw [System.setMm_self, hfifo, hacq.after]

/-- What a `vm_map_ram` that returns 0 has done. -/
theorem vmMapRam_mapsAll {p : ι} {s s' : System ι} {mapstart : ℤ} {n : ℕ} {raw : List ℤ}
    (h : Fit p s)
    (habs : ∀ k, InRange (pagingPgn mapstart) n k → ¬ Present ((s.mm p).pgd k))
    (hret : vmMapRam s p mapstart n raw = (0, s')) :
    ∃ kept gone, MapsAll p (pagingPgn mapstart) n s s' kept gone := by
  have hstat := allocPagesRange_plain p raw n [] s
  unfold vmMapRam at hret
  rw [Int.toNat_natCast] at hret
  generalize hfr : allocPagesRange p raw n [] s = r at hret hstat
  obtain ⟨ret, frames, s1⟩ := r
  obtain ⟨-, h0, -⟩ | ⟨-, h0⟩ := hstat
  · simp only at h0
    subst h0
    obtain ⟨kept, gone, hacq⟩ := allocPagesRange_acquired raw n [] s h.ready hfr
    cases hret
    exact ⟨kept, gone, hacq.mapsAll h habs⟩
  · simp only at h0
    subst h0
    simp at hret

/-- Two frames of RAM: one is free, the other one holds page 0 of process 0. -/
def oneFree : System (Fin 2) :=
  ((Config.two 512 512).init.setFrames [1]).setMm 0
    { Mm.zero with pgd := Function.update Mm.zero.pgd 0 (pteSetFpn 0 0), fifoPgn := [0] }

theorem present_oneFree {q : Fin 2} {k : ℕ} (h : Present ((oneFree.mm q).pgd k)) :
    q = 0 ∧ k = 0 := by
  by_contra hne
  refine not_present_zero ?_
  by_cases hq : q = 0
  · have hk : k ≠ 0 := fun e => hne ⟨hq, e⟩
    subst hq
    simpa [oneFree, hk, Mm.zero] using h
  · simpa [oneFree, System.setMm_of_ne _ _ _ hq, Config.init, initMm, Mm.zero] using h

theorem fit_oneFree : Fit 0 oneFree where
  random := ⟨by decide, by decide⟩
  ramSize := by decide
  swpSize := by decide
  free_valid := by decide
  slot_valid := by decide
  free_nodup := by decide
  slot_nodup := by decide
  resident_fresh q k hres := by
    obtain ⟨rfl, rfl⟩ := present_oneFree hres.1
    decide
  swapped_fresh q k hp hsw := by
    obtain ⟨rfl, rfl⟩ := present_oneFree hp
    exact absurd hsw (by decide)
  resident_inj q k q' k' h h' _ := by
    obtain ⟨rfl, rfl⟩ := present_oneFree h.1
    obtain ⟨rfl, rfl⟩ := present_oneFree h'.1
    exact ⟨rfl, rfl⟩
  fifo := by
    refine ⟨by decide, fun k => ⟨fun hm => ?_, fun hres => ?_⟩⟩
    · obtain rfl := List.mem_singleton.mp hm
      decide
    · rw [(present_oneFree hres.1).2]
      decide

/-- Two pages are mapped there: page 0 has to leave its frame. -/
theorem vmMapRam_mapsAll_oneFree :
    let s' := (vmMapRam oneFree 0 256 2 []).2
    Swapped ((s'.mm 0).pgd 0) ∧ ∃ kept gone, MapsAll 0 1 2 oneFree s' kept gone := by
  refine ⟨by decide +kernel, ?_⟩
  have habs : ∀ k, InRange (pagingPgn 256) 2 k → ¬ Present ((oneFree.mm 0).pgd k) := by
    intro k hk hp
    obtain ⟨-, rfl⟩ := present_oneFree hp
    exact absurd hk.1 (by decide)
  have hret : vmMapRam oneFree 0 256 (2 : ℕ) [] = (0, (vmMapRam oneFree 0 256 2 []).2) :=
    Prod.ext (by decide +kernel) rfl
  have hmaps := vmMapRam_mapsAll fit_oneFree habs hret
  rwa [show pagingPgn 256 = 1 by decide] at hmaps

end OsSim.Mem
