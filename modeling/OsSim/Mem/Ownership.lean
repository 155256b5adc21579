import OsSim.Lib.Placement
import OsSim.Mem.Coherence

/-!
# Who owns a frame

The pages of all processes are keys of a `Placement.Store` whose locations are
RAM frames and swap slots. A move that is good is one of the changes of such a
store (`Move.change`), so in runs of good moves no frame and no slot has two
owners.

Results:
* `exclusiveOwners_of_run`: the runs in which ownership stays exclusive.
* `not_exclusiveOwners_spill`: a run in which it does not.
-/

namespace OsSim.Mem

open Placement Placement.Store BitField

variable {ι : Type*} [DecidableEq ι]

/-! ## Pages and their locations -/

/-- A frame of RAM, or a slot of a swap device. -/
inductive Loc where
  | ram (fpn : ℤ)
  | slot (swptyp : ℕ) (swpoff : ℤ)
  deriving DecidableEq

/-- Where an entry says that its page is, as `pg_getpage` decodes it. -/
def pteLoc (pte : Pte) : Option Loc :=
  if ¬ Present pte then none
  else if Swapped pte then some (.slot (pteSwptyp pte) (pagingSwp pte))
  else some (.ram (pteFpn pte))

theorem pteLoc_of_not_present {pte : Pte} (h : ¬ Present pte) : pteLoc pte = none := if_pos h

theorem pteLoc_of_resident {pte : Pte} (h : Resident pte) :
    pteLoc pte = some (.ram (pteFpn pte)) := by
  rw [pteLoc, if_neg (not_not.mpr h.1), if_neg h.2]

theorem pteLoc_of_swapped {pte : Pte} (hp : Present pte) (hsw : Swapped pte) :
    pteLoc pte = some (.slot (pteSwptyp pte) (pagingSwp pte)) := by
  rw [pteLoc, if_neg (not_not.mpr hp), if_pos hsw]

/-- The pages of all processes, the free frames, those held, and the free slots. -/
def Work.store (w : Work ι) : Store (ι × ℕ) Loc (Fin 256 → Byte) where
  loc k := pteLoc ((w.sys.mm k.1).pgd k.2)
  free := (w.held ++ w.sys.mram.freeFpList).map .ram ++
    (w.sys.mswp 0).freeFpList.map (.slot 0)
  cell
    | .ram fpn => w.sys.mram.frame fpn
    | .slot swptyp swpoff => (mswpAdd w.sys.mswp swptyp).frame swpoff

/-- The same store with the entries read by `dec`. -/
def Work.storeBy (dec : Pte → Option Loc) (w : Work ι) : Store (ι × ℕ) Loc (Fin 256 → Byte) :=
  { w.store with loc := fun k => dec ((w.sys.mm k.1).pgd k.2) }

/-- `dec` reads the entry of a resident page as the code does, and finds a slot below `slots` of the
first swap device in the entry that `pte_set_swap` has written for it. -/
structure Decodes (dec : Pte → Option Loc) (slots : ℤ) : Prop where
  absent : ∀ pte, ¬ Present pte → dec pte = none
  resident : ∀ pte, Resident pte → dec pte = some (.ram (pteFpn pte))
  swapped : ∀ pte slot, 0 ≤ slot → slot < slots → dec (pteSetSwap pte 0 slot) = some (.slot 0 slot)

/-- `pg_getpage` reads 9 bits of the slot. -/
theorem decodes_pteLoc : Decodes pteLoc 512 where
  absent _ := pteLoc_of_not_present
  resident _ := pteLoc_of_resident
  swapped pte slot h0 h1 := by
    rw [pteLoc_of_swapped (present_pteSetSwap _ 0 slot) (swapped_pteSetSwap _ 0 slot),
      swp_pteSetSwap _ _ h0 h1]
    congr 2
    exact swptyp_pteSetSwap _ slot (show 0 < 32 by norm_num)

/-- A frame of a RAM of `frames` frames, or a slot of the first swap device with `slots` slots. -/
def Loc.Valid (frames slots : ℤ) : Loc → Prop
  | .ram fpn => 0 ≤ fpn ∧ fpn < frames
  | .slot swptyp swpoff => swptyp = 0 ∧ 0 ≤ swpoff ∧ swpoff < slots

/-- RAM and the first swap device are random access devices. -/
structure Random (s : System ι) : Prop where
  ram : s.mram.rdmflg ≠ 0
  swp : (s.mswp 0).rdmflg ≠ 0

omit [DecidableEq ι] in
theorem Frame.random {p : ι} {s s' : System ι} (h : Frame p s s') (hr : Random s) : Random s' :=
  ⟨h.ramFlag ▸ hr.ram, h.swpFlag ▸ hr.swp⟩

theorem storeBy_loc_update (dec : Pte → Option Loc) (held : List ℤ) {held' : List ℤ}
    {s s' : System ι} {p : ι} {pgn : ℕ} {pte : Pte}
    (hother : ∀ q, q ≠ p → s'.mm q = s.mm q)
    (hpgd : (s'.mm p).pgd = Function.update (s.mm p).pgd pgn pte) :
    ((Work.mk held' s').storeBy dec).loc =
      Function.update ((Work.mk held s).storeBy dec).loc (p, pgn) (dec pte) := by
  funext ⟨q, k⟩
  simp only [Work.storeBy, Function.update_apply, Prod.mk.injEq]
  by_cases hq : q = p
  · subst hq
    rw [hpgd, Function.update_apply]
    by_cases hk : k = pgn <;> simp [hk]
  · simp [hother q hq, hq]

theorem store_loc_update (held : List ℤ) {held' : List ℤ} {s s' : System ι} {p : ι} {pgn : ℕ}
    {pte : Pte}
    (hother : ∀ q, q ≠ p → s'.mm q = s.mm q)
    (hpgd : (s'.mm p).pgd = Function.update (s.mm p).pgd pgn pte) :
    (Work.mk held' s').store.loc =
      Function.update (Work.mk held s).store.loc (p, pgn) (pteLoc pte) :=
  storeBy_loc_update pteLoc held hother hpgd

omit [DecidableEq ι] in
/-- The TLB and the regions are not part of the store. -/
theorem store_congr {held : List ℤ} {s s' : System ι} (hram : s'.mram = s.mram)
    (hswp : s'.mswp = s.mswp) (hpgd : ∀ q, (s'.mm q).pgd = (s.mm q).pgd) :
    (Work.mk held s').store = (Work.mk held s).store := by
  simp only [Work.store, hram, hswp, hpgd]

theorem swapCpPage_fst {mpsrc : Memphy} (hs : mpsrc.rdmflg ≠ 0) (mpdst : Memphy)
    (hd : mpdst.rdmflg ≠ 0) (srcfpn dstfpn : ℤ) :
    (swapCpPage mpsrc srcfpn mpdst dstfpn).1 = mpsrc := by
  rw [swapCpPage_eq hs hd]

/-! ## Moves are changes of the store -/

section Change

variable {p : ι} {held : List ℤ} {s : System ι} {pgn : ℕ} {frames slots : ℤ}

/-- An eviction relocates the page from its frame to the slot, if the entry can hold the slot. -/
theorem relocateBy_swapOut {dec : Pte → Option Loc} (hd : Decodes dec slots) (hr : Random s)
    (hres : Resident ((s.mm p).pgd pgn)) {slot : ℤ}
    {rest : List ℤ} (hl : (s.mswp 0).freeFpList = slot :: rest) (h0 : 0 ≤ slot)
    (h1 : slot < slots) :
    Relocate ((Work.mk held s).storeBy dec)
      ((Work.mk (pteFpn ((s.mm p).pgd pgn) :: held)
        (swapOut (s.setSlots rest) p pgn 0 slot).2).storeBy dec)
      (p, pgn) (.ram (pteFpn ((s.mm p).pgd pgn))) (.slot 0 slot) := by
  have hframe := Frame.swapOut p s pgn slot rest
  obtain ⟨hram, hswp⟩ := swapOut_lists s p pgn slot rest
  have hsrc : (swapOut (s.setSlots rest) p pgn 0 slot).2.mram = s.mram := by
    rw [swapOut_snd]
    simpa using swapCpPage_fst hr.ram ((s.mswp 0).setFree rest) hr.swp _ slot
  have hdst : (swapOut (s.setSlots rest) p pgn 0 slot).2.mswp 0 =
      (swapCpPage s.mram (pteFpn ((s.mm p).pgd pgn)) ((s.mswp 0).setFree rest) slot).2 := by
    rw [swapOut_snd]
    simp
  refine ⟨hd.resident _ hres, ?_, ?_, ?_, ?_, ?_⟩
  · rw [storeBy_loc_update dec held hframe.mm (by rw [swapOut_mm]), hd.swapped _ slot h0 h1]
  · simp only [Work.storeBy, Work.store, hram, hswp, hl, List.map_cons, List.cons_append]
    exact (List.Perm.swap ..).trans (.cons _ List.perm_middle.symm)
  · simp [Work.storeBy, Work.store, hl]
  · simp only [Work.storeBy, Work.store, mswpAdd_zero, hdst]
    exact frame_swapCpPage_target hr.ram ((s.mswp 0).setFree rest) hr.swp ..
  · rintro (fpn | ⟨d, x⟩) hne
    · simp only [Work.storeBy, Work.store, hsrc]
    · simp only [Work.storeBy, Work.store]
      by_cases hd : d = 0
      · subst hd
        rw [mswpAdd_zero, mswpAdd_zero, hdst]
        refine frame_swapCpPage_of_ne hr.ram ((s.mswp 0).setFree rest) hr.swp _ ?_
        rintro rfl
        exact hne rfl
      · simp only [mswpAdd, hd, if_false]

theorem relocate_swapOut (hr : Random s) (hres : Resident ((s.mm p).pgd pgn)) {slot : ℤ}
    {rest : List ℤ} (hl : (s.mswp 0).freeFpList = slot :: rest) (h0 : 0 ≤ slot)
    (h1 : slot < 512) :
    Relocate (Work.mk held s).store
      (Work.mk (pteFpn ((s.mm p).pgd pgn) :: held)
        (swapOut (s.setSlots rest) p pgn 0 slot).2).store
      (p, pgn) (.ram (pteFpn ((s.mm p).pgd pgn))) (.slot 0 slot) :=
  relocateBy_swapOut decodes_pteLoc hr hres hl h0 h1

/-- Swapping in relocates the page from its slot to the frame. -/
theorem relocate_swapIn (hr : Random s) (hp : Present ((s.mm p).pgd pgn))
    (hsw : Swapped ((s.mm p).pgd pgn)) (htyp : pteSwptyp ((s.mm p).pgd pgn) = 0) {fpn : ℤ}
    {rest : List ℤ} (hl : s.mram.freeFpList = fpn :: rest) (h0 : 0 ≤ fpn) (h1 : fpn < 8192) :
    Relocate (Work.mk held s).store
      (Work.mk held (swapIn (s.setFrames rest) p pgn (pteSwptyp ((s.mm p).pgd pgn))
        (pagingSwp ((s.mm p).pgd pgn)) fpn)).store
      (p, pgn) (.slot 0 (pagingSwp ((s.mm p).pgd pgn))) (.ram fpn) := by
  rw [htyp]
  have hframe := Frame.swapIn p s pgn 0 (pagingSwp ((s.mm p).pgd pgn)) fpn rest
  have hslots := swapIn_slots (s.setFrames rest) p pgn 0 (pagingSwp ((s.mm p).pgd pgn)) fpn
  have hframes := swapIn_frames (s.setFrames rest) p pgn 0 (pagingSwp ((s.mm p).pgd pgn)) fpn
  rw [if_pos rfl, System.setFrames_mswp] at hslots
  rw [System.setFrames_mram, Memphy.setFree_freeFpList] at hframes
  have hdst : (swapIn (s.setFrames rest) p pgn 0 (pagingSwp ((s.mm p).pgd pgn)) fpn).mram =
      (swapCpPage (s.mswp 0) (pagingSwp ((s.mm p).pgd pgn)) (s.mram.setFree rest) fpn).2 := by
    rw [swapIn_eq]
    simp
  have hsrc : ((swapIn (s.setFrames rest) p pgn 0 (pagingSwp ((s.mm p).pgd pgn)) fpn).mswp
      0).storage = (s.mswp 0).storage := by
    rw [swapIn_eq]
    simp [memphyPutFreefp, swapCpPage_fst hr.swp (s.mram.setFree rest) hr.ram]
  refine ⟨?_, ?_, ?_, ?_, ?_, ?_⟩
  · rw [← htyp]
    exact pteLoc_of_swapped hp hsw
  · rw [store_loc_update held hframe.mm (by rw [swapIn_mm]; rfl),
      pteLoc_of_resident (resident_pteSetFpn _ fpn), fpn_pteSetFpn _ h0 h1]
  · simp only [Work.store, hslots, hframes, hl, List.map_cons, List.map_append]
    refine (List.Perm.cons _ List.perm_middle).trans ((List.Perm.swap ..).trans (.cons _ ?_))
    simp only [List.append_assoc, List.cons_append]
    exact List.perm_middle.symm
  · simp [Work.store, hl]
  · simp only [Work.store, hdst]
    exact frame_swapCpPage_target hr.swp (s.mram.setFree rest) hr.ram ..
  · rintro (f | ⟨d, x⟩) hne
    · simp only [Work.store, hdst]
      refine frame_swapCpPage_of_ne hr.swp (s.mram.setFree rest) hr.ram _ ?_
      rintro rfl
      exact hne rfl
    · simp only [Work.store, mswpAdd]
      split_ifs
      · funext off
        simp only [Memphy.frame, hsrc]
      · rfl

/-- Mapping assigns one of the frames held to the page. -/
theorem assign_map {fpn : ℤ} {mm : Mm} (habs : ¬ Present ((s.mm p).pgd pgn))
    (hpgd : mm.pgd = Function.update (s.mm p).pgd pgn (pteSetFpn ((s.mm p).pgd pgn) fpn))
    (h0 : 0 ≤ fpn) (h1 : fpn < 8192) :
    Assign (Work.mk (fpn :: held) s).store (Work.mk held (s.setMm p mm)).store (p, pgn)
      (.ram fpn) := by
  refine ⟨pteLoc_of_not_present habs, ?_, ?_, fun _ _ => rfl⟩
  · rw [store_loc_update (fpn :: held) (Frame.setMm p s mm).mm
      (by rw [System.setMm_self]; exact hpgd), pteLoc_of_resident (resident_pteSetFpn _ fpn),
      fpn_pteSetFpn _ h0 h1]
  · simp [Work.store]

/-- A release takes the frame from the page. -/
theorem release_put {fpn : ℤ} (hres : Resident ((s.mm p).pgd pgn))
    (hmod : fpn % 8192 = pteFpn ((s.mm p).pgd pgn)) (h0 : 0 ≤ fpn) (h1 : fpn < 8192) :
    Release (Work.mk held s).store
      (Work.mk held ({ s with mram := memphyPutFreefp s.mram fpn }.setPte p pgn
        (clrbit ((s.mm p).pgd pgn) presentMask))).store (p, pgn) (.ram fpn) := by
  have hfpn : pteFpn ((s.mm p).pgd pgn) = fpn := by omega
  refine ⟨?_, ?_, ?_, rfl⟩
  · rw [← hfpn]
    exact pteLoc_of_resident hres
  · have hother : ∀ q, q ≠ p → ({ s with mram := memphyPutFreefp s.mram fpn }.setPte p pgn
        (clrbit ((s.mm p).pgd pgn) presentMask)).mm q = s.mm q :=
      fun q hq => System.setMm_of_ne _ _ _ hq
    rw [store_loc_update held hother (by rw [System.setPte_self]),
      pteLoc_of_not_present (not_present_clrbit _)]
  · simp only [Work.store, System.setPte_mram, System.setPte_mswp, memphyPutFreefp,
      List.map_append, List.map_cons]
    rw [List.append_assoc, List.append_assoc]
    exact List.perm_middle

end Change

/-! ## The invariant -/

/-- Frames and slots have one owner each, and all of them exist. -/
structure Owned (frames slots : ℤ) (w : Work ι) : Prop where
  random : Random w.sys
  exclusive : Exclusive w.store
  within : Within (Loc.Valid frames slots) w.store

/-- A good move is a change of the store. -/
theorem Move.change {p : ι} {a : Act} {w w' : Work ι} {frames slots : ℤ} (hm : Move p a w w')
    (hg : a.Good) (hframes : frames ≤ 8192) (h : Owned frames slots w) :
    Change w.store w'.store (a.page.map (p, ·)) := by
  cases hm with
  | @get held s fpn rest hl =>
    refine .shuffle ⟨rfl, ?_, rfl⟩
    simp only [Work.store, System.setFrames_mram, Memphy.setFree_freeFpList, hl,
      System.setFrames_mswp]
    exact (List.perm_middle.symm.map _).append_right _
  | evict hres hl h0 => exact .relocate (relocate_swapOut h.random hres hl h0 hg)
  | putBack =>
    refine .shuffle ⟨rfl, ?_, ?_⟩
    · simp only [Work.store, memphyPutAll_eq, Memphy.setFree_freeFpList, List.nil_append]
      exact (((List.reverse_perm _).append_right _).map _).append_right _
    · simp only [Work.store, memphyPutAll_eq]
      rfl
  | spill => exact absurd hg id
  | @map held s pgn fpn mm habs hpgd =>
    have hv : Loc.Valid frames slots (.ram fpn) := h.within.free _ (by simp [Work.store])
    exact .assign (assign_map habs hpgd hv.1 (lt_of_lt_of_le hv.2 hframes))
  | @swapIn held s pgn fpn rest hp hsw hl =>
    have hv : Loc.Valid frames slots (.ram fpn) := h.within.free _ (by simp [Work.store, hl])
    have htyp := (h.within.used (p, pgn) _ (pteLoc_of_swapped hp hsw)).1
    exact .relocate (relocate_swapIn h.random hp hsw htyp hl hv.1
      (lt_of_lt_of_le hv.2 hframes))
  | release hres hmod hunc => exact .release (release_put hres hmod hg.1 hg.2)
  | @space held s mm hpgd =>
    have heq : (Work.mk held (s.setMm p mm)).store = (Work.mk held s).store := by
      refine store_congr rfl rfl fun q => ?_
      by_cases hq : q = p
      · rw [hq, System.setMm_self, hpgd]
      · rw [System.setMm_of_ne _ _ _ hq]
    exact .shuffle ⟨by rw [heq], by rw [heq], by rw [heq]⟩
  | cache => exact .shuffle ⟨rfl, .rfl, rfl⟩
  | uncache => exact .shuffle ⟨rfl, .rfl, rfl⟩

theorem Move.owned {p : ι} {a : Act} {w w' : Work ι} {frames slots : ℤ} (hm : Move p a w w')
    (hg : a.Good) (hframes : frames ≤ 8192) (h : Owned frames slots w) : Owned frames slots w' :=
  have hc := hm.change hg hframes h
  ⟨hm.frame.random h.random, hc.exclusive h.exclusive, hc.within h.within⟩

/-- Good moves, one after the other. -/
theorem Moves.owned {p : ι} {P : Act → Prop} {w w' : Work ι} {frames slots : ℤ}
    (hm : Moves p P w w') (hg : ∀ a, P a → a.Good) (hframes : frames ≤ 8192)
    (h : Owned frames slots w) : Owned frames slots w' :=
  hm.invariant (I := Owned frames slots) (fun a _ _ ha hI hst => hst.owned (hg a ha) hframes hI) h

omit [DecidableEq ι] in
theorem Owned.framesOk {s : System ι} {frames slots : ℤ} (h : Owned frames slots ⟨[], s⟩)
    (hframes : frames ≤ 8192) : FramesOk s := by
  intro fpn hm
  have hv : Loc.Valid frames slots (.ram fpn) := h.within.free _ (by simp [Work.store, hm])
  exact ⟨hv.1, lt_of_lt_of_le hv.2 hframes⟩

omit [DecidableEq ι] in
theorem Owned.store {s : System ι} {frames slots : ℤ} (h : Owned frames slots ⟨[], s⟩) (addr : ℤ)
    (data : Byte) : Owned frames slots ⟨[], s.store addr data⟩ := by
  obtain ⟨st, c, hw⟩ := memphyWrite_fields s.mram addr data
  have hfree : (Work.mk [] (s.store addr data)).store.free = (Work.mk [] s).store.free := by
    simp only [Work.store, System.store, hw]
  refine ⟨⟨?_, h.random.swp⟩, ⟨?_, h.exclusive.inj, fun k l hk => ?_⟩, ⟨?_, h.within.used⟩⟩
  · simpa [System.store, hw] using h.random.ram
  · rw [hfree]
    exact h.exclusive.nodup
  · rw [hfree]
    exact h.exclusive.fresh k l hk
  · rw [hfree]
    exact h.within.free

/-! ## Runs -/

/-- A step before which an `ALLOC` is known to keep the break within `2^22` and to find its frames
without losing track of any. -/
def StepOk (s : System ι) (a : Label ι) (_ : System ι) : Prop :=
  SizeOk s a.proc a.ins ∧ SlotsOk s a.proc a.ins

instance (s : System ι) (a : Label ι) (s' : System ι) : Decidable (StepOk s a s') :=
  inferInstanceAs (Decidable (_ ∧ _))

/-- The invariant of the runs whose steps are `StepOk`. -/
structure OwnedInv (c : Config ι) (s : System ι) : Prop where
  base : RunInv s
  owned : Owned (numfp c.ramSz) (numfp (c.swpSz 0)) ⟨[], s⟩
  ramSize : s.mram.maxsz = c.ramSz
  swpSize : (s.mswp 0).maxsz = c.swpSz 0

omit [DecidableEq ι] in
theorem OwnedInv.init (c : Config ι) : OwnedInv c c.init where
  base := .init c
  owned :=
    { random := ⟨rdmflg_initMemphy _ _ _, rdmflg_initMemphy _ _ _⟩
      exclusive := by
        have hno : ∀ k, (Work.mk [] c.init).store.loc k = none :=
          fun _ => pteLoc_of_not_present not_present_zero
        refine ⟨?_, fun k _ _ hk => by simp [hno] at hk, fun k _ hk => by simp [hno] at hk⟩
        rw [Work.store, List.nil_append]
        refine ((nodup_initMemphy ..).map fun a b h => by simpa using h).append
          ((nodup_initMemphy ..).map fun a b h => by simpa using h) ?_
        intro l hl hl'
        obtain ⟨fpn, -, rfl⟩ := List.mem_map.mp hl
        simp at hl'
      within := by
        refine ⟨fun l hl => ?_, fun k _ hk => ?_⟩
        · rw [Work.store, List.nil_append, List.mem_append, List.mem_map, List.mem_map] at hl
          obtain ⟨fpn, hm, rfl⟩ | ⟨off, hm, rfl⟩ := hl
          · exact mem_initMemphy.mp hm
          · exact ⟨rfl, mem_initMemphy.mp hm⟩
        · have : (Work.mk [] c.init).store.loc k = none := pteLoc_of_not_present not_present_zero
          simp [this] at hk }
  ramSize := maxsz_initMemphy ..
  swpSize := maxsz_initMemphy ..

theorem OwnedInv.moves {c : Config ι} (hram : numfp c.ramSz ≤ 8192) {s s' : System ι} {p : ι}
    {P : Act → Prop} (h : OwnedInv c s) (hm : Moves p P ⟨[], s⟩ ⟨[], s'⟩)
    (hg : ∀ a, P a → a.Good) (hok : ProcOk s' p) : OwnedInv c s' :=
  have hframe : Frame p s s' := hm.frame
  ⟨h.base.moves hm hok, hm.owned hg hram h.owned, hframe.ramSize.trans h.ramSize,
    hframe.swpSize.trans h.swpSize⟩

omit [DecidableEq ι] in
theorem OwnedInv.store {c : Config ι} {s : System ι} (h : OwnedInv c s) (addr : ℤ) (data : Byte) :
    OwnedInv c (s.store addr data) := by
  obtain ⟨st, c', hw⟩ := memphyWrite_fields s.mram addr data
  exact ⟨h.base.store addr data, h.owned.store addr data,
    by simpa [System.store, hw] using h.ramSize, h.swpSize⟩

/-- One instruction. -/
theorem OwnedInv.step {c : Config ι} (hram : numfp c.ramSz ≤ 8192) {s s' : System ι} {p : ι}
    {ins : Inst} {raw : List ℤ} {o : Outcome} (h : OwnedInv c s) (hsize : SizeOk s p ins)
    (hslots : SlotsOk s p ins) (hrun : run s p ins raw = .ok (o, s')) : OwnedInv c s' := by
  obtain ⟨t, hm, hok, ht⟩ := (run_moves (h.base.proc p) h.base.tlb.unique hsize hrun).mid
  have ht' := h.moves hram hm (fun a ha => ha (h.owned.framesOk hram) hslots) hok
  obtain rfl | ⟨addr, data, rfl⟩ := ht
  · exact ht'
  · exact ht'.store addr data

theorem ownedInv_of_run {c : Config ι} (hram : numfp c.ramSz ≤ 8192) {tr : List (Label ι)}
    {s : System ι} (h : ((memLts c).guard StepOk).Run tr s) : OwnedInv c s :=
  h.invariant (fun _ h0 => h0 ▸ .init c)
    fun _ _ _ hi hst => hi.step hram hst.2.1 hst.2.2 hst.1

/-- Every frame and every slot has one owner. -/
structure ExclusiveOwners (s : System ι) : Prop where
  free_valid : ∀ fpn ∈ s.mram.freeFpList, 0 ≤ fpn ∧ fpn < numfp s.mram.maxsz
  free_nodup : s.mram.freeFpList.Nodup
  frame : ∀ p pgn, Resident ((s.mm p).pgd pgn) →
    (0 ≤ pteFpn ((s.mm p).pgd pgn) ∧ pteFpn ((s.mm p).pgd pgn) < numfp s.mram.maxsz) ∧
    pteFpn ((s.mm p).pgd pgn) ∉ s.mram.freeFpList ∧
    ∀ q k, Resident ((s.mm q).pgd k) → pteFpn ((s.mm q).pgd k) = pteFpn ((s.mm p).pgd pgn) →
      q = p ∧ k = pgn
  slot : ∀ p pgn, Present ((s.mm p).pgd pgn) → Swapped ((s.mm p).pgd pgn) →
    ∃ d : Fin pagingMaxMmswp, pteSwptyp ((s.mm p).pgd pgn) = d ∧
      (0 ≤ pagingSwp ((s.mm p).pgd pgn) ∧
        pagingSwp ((s.mm p).pgd pgn) < numfp (s.mswp d).maxsz) ∧
      pagingSwp ((s.mm p).pgd pgn) ∉ (s.mswp d).freeFpList ∧
      ∀ q k, Present ((s.mm q).pgd k) → Swapped ((s.mm q).pgd k) →
        pteSwptyp ((s.mm q).pgd k) = pteSwptyp ((s.mm p).pgd pgn) →
        pagingSwp ((s.mm q).pgd k) = pagingSwp ((s.mm p).pgd pgn) → q = p ∧ k = pgn

omit [DecidableEq ι] in
theorem OwnedInv.exclusiveOwners {c : Config ι} {s : System ι} (h : OwnedInv c s) :
    ExclusiveOwners s := by
  have hx := h.owned.exclusive
  have hw := h.owned.within
  have hmem : ∀ fpn, Loc.ram fpn ∈ (Work.mk [] s).store.free ↔ fpn ∈ s.mram.freeFpList := by
    simp [Work.store]
  have hmem' : ∀ off, Loc.slot 0 off ∈ (Work.mk [] s).store.free ↔
      off ∈ (s.mswp 0).freeFpList := by
    simp [Work.store]
  refine ⟨fun fpn hf => ?_, ?_, fun p pgn hres => ?_, fun p pgn hp hsw => ?_⟩
  · rw [h.ramSize]
    exact hw.free _ ((hmem fpn).mpr hf)
  · have hnd := hx.nodup
    rw [Work.store, List.nil_append, List.nodup_append] at hnd
    exact hnd.1.of_map _
  · have hl : (Work.mk [] s).store.loc (p, pgn) = some (.ram (pteFpn ((s.mm p).pgd pgn))) :=
      pteLoc_of_resident hres
    rw [h.ramSize]
    refine ⟨hw.used _ _ hl, fun hf => hx.fresh _ _ hl ((hmem _).mpr hf), fun q k hres' heq => ?_⟩
    have hl' : (Work.mk [] s).store.loc (q, k) = some (.ram (pteFpn ((s.mm p).pgd pgn))) := by
      rw [← heq]
      exact pteLoc_of_resident hres'
    exact Prod.mk.inj (hx.inj _ _ _ hl' hl)
  · have hl : (Work.mk [] s).store.loc (p, pgn) =
        some (.slot (pteSwptyp ((s.mm p).pgd pgn)) (pagingSwp ((s.mm p).pgd pgn))) :=
      pteLoc_of_swapped hp hsw
    obtain ⟨htyp, hv⟩ := hw.used _ _ hl
    refine ⟨0, htyp, by rw [h.swpSize]; exact hv, fun hf => ?_, fun q k hp' hsw' ht heq => ?_⟩
    · refine hx.fresh _ _ hl ?_
      rw [htyp]
      exact (hmem' _).mpr hf
    · have hl' : (Work.mk [] s).store.loc (q, k) =
          some (.slot (pteSwptyp ((s.mm p).pgd pgn)) (pagingSwp ((s.mm p).pgd pgn))) := by
        rw [← ht, ← heq]
        exact pteLoc_of_swapped hp' hsw'
      exact Prod.mk.inj (hx.inj _ _ _ hl' hl)

/-- In every run in which each `ALLOC` keeps the break within `2^22` and finds its frames without
losing track of any, every frame and every slot has one owner. -/
theorem exclusiveOwners_of_run {c : Config ι} (hram : numfp c.ramSz ≤ 8192)
    {tr : List (Label ι)} {s : System ι} (h : ((memLts c).guard StepOk).Run tr s) :
    ExclusiveOwners s :=
  (ownedInv_of_run hram h).exclusiveOwners

/-- A run in which one page of each process is in RAM and one is in swap. -/
theorem exclusiveOwners_evicted : ∃ s,
    ((memLts (Config.two 512 512)).guard StepOk).Run
      [⟨0, ⟨.ALLOC, 256, 0, 0⟩, [], ⟨0, none⟩⟩, ⟨1, ⟨.ALLOC, 256, 0, 0⟩, [], ⟨0, none⟩⟩,
        ⟨0, ⟨.ALLOC, 256, 1, 0⟩, [], ⟨0, none⟩⟩, ⟨1, ⟨.ALLOC, 256, 1, 0⟩, [], ⟨0, none⟩⟩] s ∧
      (∀ p, Resident ((s.mm p).pgd 1) ∧ Swapped ((s.mm p).pgd 0)) ∧ ExclusiveOwners s := by
  obtain ⟨s, hrun, htest⟩ := exists_run_of_runAll (Config.two 512 512) StepOk
    [⟨0, ⟨.ALLOC, 256, 0, 0⟩, [], ⟨0, none⟩⟩, ⟨1, ⟨.ALLOC, 256, 0, 0⟩, [], ⟨0, none⟩⟩,
      ⟨0, ⟨.ALLOC, 256, 1, 0⟩, [], ⟨0, none⟩⟩, ⟨1, ⟨.ALLOC, 256, 1, 0⟩, [], ⟨0, none⟩⟩]
    (fun s => decide (∀ p, Resident ((s.mm p).pgd 1) ∧ Swapped ((s.mm p).pgd 0)))
    (by decide +kernel)
  exact ⟨s, hrun, of_decide_eq_true htest, exclusiveOwners_of_run (by decide) hrun⟩

/-- One frame of RAM and no swap: the second `ALLOC` finds a victim for its page and no slot, and
puts the number in `newfp_str` on the free list, here 0, the frame of page 0. -/
theorem not_exclusiveOwners_spill : ∃ s,
    (memLts (Config.two 256 0)).Run
      [⟨0, ⟨.ALLOC, 256, 0, 0⟩, [], ⟨0, none⟩⟩, ⟨0, ⟨.ALLOC, 256, 1, 0⟩, [0], ⟨-1, none⟩⟩] s ∧
      ¬ ExclusiveOwners s := by
  obtain ⟨s, hrun, htest⟩ := exists_run_of_runAll (Config.two 256 0) BreaksOk
    [⟨0, ⟨.ALLOC, 256, 0, 0⟩, [], ⟨0, none⟩⟩, ⟨0, ⟨.ALLOC, 256, 1, 0⟩, [0], ⟨-1, none⟩⟩]
    (fun s => decide (Resident ((s.mm 0).pgd 0) ∧ pteFpn ((s.mm 0).pgd 0) ∈ s.mram.freeFpList))
    (by decide +kernel)
  obtain ⟨hres, hfree⟩ := of_decide_eq_true htest
  exact ⟨s, hrun.of_guard, fun h => (h.frame 0 0 hres).2.1 hfree⟩

end OsSim.Mem
