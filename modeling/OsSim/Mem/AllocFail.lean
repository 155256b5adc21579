import OsSim.Mem.Carving
import OsSim.Mem.Conservation
import OsSim.Mem.Defined
import OsSim.Mem.Live

/-!
# Failed allocations

What an `__alloc` that returns -1 leaves behind. `alloc_pages_range` puts the frames
that it has gathered back when there is no victim left; when there is one and no swap
slot for it, it puts back `newfp_str`, which holds none of them. On the break path
the break has been raised by then, and nothing lowers it again. On the free-list path
the region that was found goes back to the list, but not the other pieces that the
search took off it, and the entry of the symbol table is cleared whatever it held.
Besides it goes back as the variable `rgnode` of the call, which is gone when the call
returns: what the list holds from then on is not known.

Results:
* `allocPagesRange_stopped`: how `alloc_pages_range` fails.
* `restored_iff`: when everything would be as before if the variable were kept.
* `allocKeepsAll_iff`: no failed allocation leaves the process as it was.
-/

namespace OsSim.Mem

open Placement Placement.Store BitField

variable {ι : Type*} [DecidableEq ι]

/-! ## What is asked for -/

/-- RAM frame `fpn` is on the free list or holds a page. -/
def HasFrame (s : System ι) (fpn : ℤ) : Prop :=
  fpn ∈ s.mram.freeFpList ∨
    ∃ q k, Resident ((s.mm q).pgd k) ∧ pteFpn ((s.mm q).pgd k) = fpn

/-- Entries that differ belong to pages that have gone from RAM to swap. -/
def MovedOut (pgd pgd' : ℕ → Pte) : Prop :=
  ∀ k, pgd' k = pgd k ∨ (Resident (pgd k) ∧ Present (pgd' k) ∧ Swapped (pgd' k))

/-- Regions, breaks, free addresses, frames and contents of `t` are those of `s`, except that pages
of `p` may have moved to swap; the regions on the free list are taken as they were put there. -/
structure Restored (p : ι) (s t : System ι) : Prop where
  symrgtbl : ∀ q, (t.mm q).symrgtbl = (s.mm q).symrgtbl
  sbrk : ∀ q, (t.mm q).mmap.sbrk = (s.mm q).mmap.sbrk
  vmEnd : ∀ q, (t.mm q).mmap.vmEnd = (s.mm q).mmap.vmEnd
  free : ∀ q, covered (t.mm q).mmap.vmFreergList = covered (s.mm q).mmap.vmFreergList
  frames : ∀ fpn, HasFrame t fpn ↔ HasFrame s fpn
  pages : ∀ q r k, ((s.mm q).symrgtbl r).HasPage k → t.page q k = s.page q k
  others : ∀ q, q ≠ p → (t.mm q).pgd = (s.mm q).pgd
  moved : MovedOut (s.mm p).pgd (t.mm p).pgd

/-- Besides, no free list leads to a variable that is gone that did not before. -/
structure Intact (p : ι) (s t : System ι) : Prop extends Restored p s t where
  dangling : ∀ q, (t.mm q).mmap.dangling = (s.mm q).mmap.dangling

/-- `__alloc` returns without an access that has no meaning, and if it returns -1, everything is as
it was. -/
def AllocKeepsAll (s : System ι) (p : ι) (r : Fin pagingMaxSymtblSz) (n : ℕ) (raw : List ℤ) :
    Prop :=
  AllocDefined s p n ∧ ∃ stat addr t, alloc s p r n raw = .ok (stat, addr, t) ∧
    (stat = -1 → Intact p s t)

/-- The pages that have been evicted when the slots run out. -/
def spilled (s : System ι) (p : ι) : List ℕ :=
  (s.mm p).fifoPgn.drop ((s.mm p).fifoPgn.length - (s.mswp 0).avail.length)

/-- An `alloc_pages_range` that fails gives the frames back: it ends without a victim, or the list
that `newfp_str` happens to head holds the frames gathered and no unknown one. -/
def FramesBack (s : System ι) (p : ι) (raw : List ℤ) : Prop :=
  (s.mm p).fifoPgn.length ≤ (s.mswp 0).avail.length ∨
    ((∀ fpn ∈ raw, HasFrame s fpn) ∧ (∀ fpn ∈ s.mram.freeFpList, fpn ∈ raw) ∧
      ∀ k ∈ spilled s p, pteFpn ((s.mm p).pgd k) ∈ raw)

/-! ## How `alloc_pages_range` fails -/

theorem MovedOut.refl (pgd : ℕ → Pte) : MovedOut pgd pgd := fun _ => .inl rfl

theorem MovedOut.trans {pgd pgd' pgd'' : ℕ → Pte} (h : MovedOut pgd pgd')
    (h' : MovedOut pgd' pgd'') : MovedOut pgd pgd'' := by
  intro k
  obtain hk' | ⟨hres, hsw'⟩ := h' k
  · rw [hk']
    exact h k
  · obtain hk | ⟨-, -, hsw⟩ := h k
    · rw [hk] at hres
      exact .inr ⟨hres, hsw'⟩
    · exact absurd hsw hres.2

theorem MovedOut.update {pgd : ℕ → Pte} {pgn : ℕ} (hres : Resident (pgd pgn)) (swptyp swpoff : ℤ) :
    MovedOut pgd (Function.update pgd pgn (pteSetSwap (pgd pgn) swptyp swpoff)) := by
  intro k
  rw [Function.update_apply]
  split_ifs with hk
  · rw [hk]
    exact .inr ⟨hres, present_pteSetSwap _ _ _, swapped_pteSetSwap _ _ _⟩
  · exact .inl rfl

/-- The numbers of the free slots are those that an entry can hold. -/
def SlotsFit (s : System ι) : Prop := ∀ x ∈ (s.mswp 0).freeFpList, x < 512

/-- `alloc_pages_range` has failed in state `u` with the frames `held`. -/
structure StoppedAt (p : ι) (raw held0 : List ℤ) (s t : System ι) (held : List ℤ) (u : System ι) :
    Prop where
  moves : Moves p (fun a => a.page = none ∧ (SlotsFit s → a.Good)) ⟨held0, s⟩ ⟨held, u⟩
  pages : SamePages (s.mm p) (u.mm p)
  moved : MovedOut (s.mm p).pgd (u.mm p).pgd
  empty : u.mram.avail = []
  ending : ((s.mm p).fifoPgn.length ≤ (s.mswp 0).avail.length ∧
      t = { u with mram := memphyPutAll u.mram held }) ∨
    ((s.mswp 0).avail.length < (s.mm p).fifoPgn.length ∧
      t = { u with mram := memphyPutAll u.mram raw } ∧
      ∀ fpn, fpn ∈ held ↔ fpn ∈ held0 ∨ fpn ∈ s.mram.avail ∨
        ∃ k ∈ spilled s p, pteFpn ((s.mm p).pgd k) = fpn)

section

variable {p : ι} {raw held held' : List ℤ} {s t u : System ι} {rest : List ℤ}

/-- A frame of the free list is gathered before the rest fails. -/
theorem StoppedAt.get {fpn : ℤ} (hl : s.mram.freeFpList = fpn :: rest)
    (hav : s.mram.avail = fpn :: rest) (hav' : (s.mram.setFree rest).avail = rest)
    (hst : StoppedAt p raw (fpn :: held) (s.setFrames rest) t held' u) :
    StoppedAt p raw held s t held' u where
  moves := .cons (.get hl) ⟨rfl, fun _ => trivial⟩ hst.moves
  pages := hst.pages
  moved := hst.moved
  empty := hst.empty
  ending := by
    obtain hend | ⟨hlt, ht, hheld⟩ := hst.ending
    · exact .inl hend
    refine .inr ⟨hlt, ht, fun x => ?_⟩
    rw [hheld, System.setFrames_mram, hav', hav]
    simp only [List.mem_cons]
    constructor
    · rintro ((hx | hx) | hx | hx)
      · exact .inr (.inl (.inl hx))
      · exact .inl hx
      · exact .inr (.inl (.inr hx))
      · exact .inr (.inr hx)
    · rintro (hx | (hx | hx) | hx)
      · exact .inl (.inr hx)
      · exact .inl (.inl hx)
      · exact .inr (.inl hx)
      · exact .inr (.inr hx)

/-- The victim goes to the first slot before the rest fails. -/
theorem StoppedAt.evict {vicpgn : ℕ} {slot : ℤ} {s2 : System ι} (h : MmInv (s.mm p))
    (hlast : (s.mm p).fifoPgn.getLast? = some vicpgn)
    (hl : (s.mswp 0).freeFpList = slot :: rest) (hslots : (s.mswp 0).avail = slot :: rest)
    (hav : s.mram.avail = [])
    (hevict : Move p (.evict slot) ⟨held, s.setFifo p (s.mm p).fifoPgn.dropLast⟩
      ⟨pteFpn ((s.mm p).pgd vicpgn) :: held, s2⟩)
    (hmm : s2.mm p = { s.mm p with
      pgd := Function.update (s.mm p).pgd vicpgn (pteSetSwap ((s.mm p).pgd vicpgn) 0 slot)
      fifoPgn := (s.mm p).fifoPgn.dropLast })
    (hl2 : (s2.mswp 0).freeFpList = rest) (hslots2 : (s2.mswp 0).avail = rest)
    (hav2 : s2.mram.avail = [])
    (hst : StoppedAt p raw (pteFpn ((s.mm p).pgd vicpgn) :: held) s2 t held' u) :
    StoppedAt p raw held s t held' u := by
  have hres := h.fifo_resident _ (List.mem_of_getLast? hlast)
  have hlen := length_of_getLast? hlast
  have hfifo2 : (s2.mm p).fifoPgn = (s.mm p).fifoPgn.dropLast := by rw [hmm]
  have hfit : SlotsFit s → SlotsFit s2 := fun hf x hx => hf x (by
    rw [hl2] at hx
    rw [hl]
    exact List.mem_cons_of_mem _ hx)
  have hpages : SamePages (s.mm p) (s2.mm p) := by
    rw [hmm]
    exact .update hres.1 (present_pteSetSwap ((s.mm p).pgd vicpgn) 0 slot) _
  have hmoved : MovedOut (s.mm p).pgd (s2.mm p).pgd := by
    rw [hmm]
    exact .update hres 0 slot
  have hspace : Move p .space ⟨held, s⟩ ⟨held, s.setFifo p (s.mm p).fifoPgn.dropLast⟩ := .space rfl
  refine ⟨.cons hspace ⟨rfl, fun _ => trivial⟩ (.cons hevict ⟨rfl, fun hf => ?_⟩
    (hst.moves.mono fun a ha => ⟨ha.1, fun hf => ha.2 (hfit hf)⟩)),
    hpages.trans hst.pages, hmoved.trans hst.moved, hst.empty, ?_⟩
  · exact hf slot (by rw [hl]; exact List.mem_cons_self)
  have hend := hst.ending
  rw [hslots2, hfifo2] at hend
  rw [hslots, List.length_cons, hlen]
  obtain ⟨hle, ht⟩ | ⟨hlt, ht, hheld⟩ := hend
  · exact .inl ⟨by omega, ht⟩
  refine .inr ⟨by omega, ht, fun fpn => ?_⟩
  have hsp : spilled s p = spilled s2 p ++ [vicpgn] := by
    unfold spilled
    rw [hslots2, hfifo2, hslots, List.length_cons, hlen, Nat.add_sub_add_right]
    exact drop_of_getLast? hlast (Nat.sub_le ..)
  -- the victim is on the list once
  have hnot : ∀ k ∈ spilled s2 p, (s2.mm p).pgd k = (s.mm p).pgd k := by
    intro k hk
    have hk' : k ∈ (s.mm p).fifoPgn.dropLast := by
      rw [← hfifo2]
      exact List.mem_of_mem_drop hk
    have hnd := h.fifo_nodup
    rw [← List.dropLast_append_getLast? vicpgn hlast, List.nodup_append] at hnd
    rw [hmm]
    exact Function.update_of_ne (hnd.2.2 k hk' vicpgn (by simp)) ..
  have hiff : (∃ k ∈ spilled s2 p, pteFpn ((s2.mm p).pgd k) = fpn) ↔
      ∃ k ∈ spilled s2 p, pteFpn ((s.mm p).pgd k) = fpn :=
    exists_congr fun k => and_congr_right fun hk => by rw [hnot k hk]
  rw [hheld, hav, hav2, hsp, hiff]
  simp only [List.mem_cons, List.mem_append, List.not_mem_nil, false_or, or_false]
  constructor
  · rintro ((rfl | hf) | ⟨k, hk, hf⟩)
    · exact .inr ⟨vicpgn, .inr rfl, rfl⟩
    · exact .inl hf
    · exact .inr ⟨k, .inl hk, hf⟩
  · rintro (hf | ⟨k, hk | rfl, hf⟩)
    · exact .inl (.inr hf)
    · exact .inr ⟨k, hk, hf⟩
    · exact .inl (.inl hf.symm)

end

theorem allocPagesRange_stopped {p : ι} (raw : List ℤ) (n : ℕ) (held : List ℤ) (s : System ι)
    (h : ProcOk s p) (hfail : (allocPagesRange p raw n held s).1 < 0) :
    ∃ held' u, StoppedAt p raw held s (allocPagesRange p raw n held s).2.2 held' u := by
  induction n generalizing held s with
  | zero => exact absurd hfail (by simp [allocPagesRange])
  | succ n ih =>
    unfold allocPagesRange at hfail ⊢
    obtain ⟨hget, hav⟩ | ⟨fpn, rest, hget, hl, hav, hav'⟩ := memphyGetFreefp_eq s.mram
    · simp only [hget, findVictimPage] at hfail ⊢
      cases hlast : (s.mm p).fifoPgn.getLast? with
      | none =>
        have hnil := List.getLast?_eq_none_iff.mp hlast
        exact ⟨held, s, .refl _, .rfl' _, .refl _, hav, .inl ⟨by simp [hnil], rfl⟩⟩
      | some vicpgn =>
        have hres := h.mm.fifo_resident _ (List.mem_of_getLast? hlast)
        have hlen := length_of_getLast? hlast
        simp only [hlast] at hfail
        simp only
        obtain ⟨hslots, i, hsearch⟩ | ⟨slot, rest, hl, hslots, hslots', h0, hsearch⟩ :=
          swapSearch_eq (s.setFifo p (s.mm p).fifoPgn.dropLast) h.slots
        · -- a victim and no slot
          rw [System.setFifo_mswp] at hslots
          simp only [hsearch, show (-1 : ℤ) < 0 by decide, if_true]
          refine ⟨held, s.setFifo p (s.mm p).fifoPgn.dropLast,
            .single (.space rfl) ⟨rfl, fun _ => trivial⟩, ?_, ?_, hav,
            .inr ⟨by rw [hslots, hlen]; simp, rfl, fun fpn => ?_⟩⟩
          · rw [System.setFifo_self]
            exact ⟨rfl, rfl, fun _ => Iff.rfl⟩
          · rw [System.setFifo_self]
            exact .refl _
          · simp [spilled, hav, hslots]
        · -- the victim goes to the slot
          rw [System.setFifo_mswp] at hl hslots hslots'
          simp only [hsearch, show ¬ slot < 0 by omega, if_false, swapOut_fst,
            System.setSlots_mm, System.setFifo_self] at hfail ⊢
          have hevict : Move p (.evict slot) ⟨held, s.setFifo p (s.mm p).fifoPgn.dropLast⟩ _ :=
            .evict (by simpa using hres) hl h0
          have hlists := swapOut_lists (s.setFifo p (s.mm p).fifoPgn.dropLast) p vicpgn slot rest
          have hmm := swapOut_mm (s.setFifo p (s.mm p).fifoPgn.dropLast) p vicpgn slot rest
          have hfr := Frame.swapOut p (s.setFifo p (s.mm p).fifoPgn.dropLast) vicpgn slot rest
          simp only [System.setFifo_mram, System.setFifo_self] at hlists hmm hevict
          generalize hs2 : (swapOut ((s.setFifo p (s.mm p).fifoPgn.dropLast).setSlots rest) p
            vicpgn 0 slot).2 = s2 at hfail hevict hlists hmm hfr ⊢
          have hok2 : ProcOk s2 p := by
            refine ⟨?_, fun x hx => h.slots x ?_⟩
            · rw [hmm]
              exact h.mm.swapOutPage hlast 0 slot
            · rw [hlists.2] at hx
              rw [hl]
              exact List.mem_cons_of_mem _ hx
          have hslots2 := Memphy.avail_congr ((s.mswp 0).setFree rest) hfr.swpSize hlists.2
          have hav2 := Memphy.avail_congr s.mram hfr.ramSize hlists.1
          obtain ⟨held', u, hst⟩ := ih (pteFpn ((s.mm p).pgd vicpgn) :: held) s2 hok2 hfail
          exact ⟨held', u, .evict h.mm hlast hl hslots hav hevict hmm hlists.2
            (hslots2.trans hslots') (hav2.trans hav) hst⟩
    · simp only [hget] at hfail ⊢
      obtain ⟨held', u, hst⟩ := ih (fpn :: held) (s.setFrames rest) ⟨h.mm, h.slots⟩ hfail
      exact ⟨held', u, hst.get hl hav hav'⟩

/-! ## What is left of the memory -/

section

variable {p : ι} {s t u : System ι} {raw held : List ℤ} {frames slots : ℤ}

theorem pteLoc_eq_ram {pte : Pte} {fpn : ℤ} :
    pteLoc pte = some (.ram fpn) ↔ Resident pte ∧ pteFpn pte = fpn := by
  unfold pteLoc Resident
  split_ifs with hp hsw <;> simp_all

omit [DecidableEq ι] in
/-- The frames held, free or in use are the locations in RAM of the store. -/
theorem hasFrame_iff (held : List ℤ) (s : System ι) (fpn : ℤ) :
    fpn ∈ held ∨ HasFrame s fpn ↔ Loc.ram fpn ∈ (Work.mk held s).store.free ∨
      ∃ key, (Work.mk held s).store.loc key = some (.ram fpn) := by
  simp [HasFrame, Work.store, pteLoc_eq_ram, or_assoc]

/-- Good moves neither lose nor make frames. -/
theorem Moves.hasFrame {P : Act → Prop} (hm : Moves p P ⟨[], s⟩ ⟨held, u⟩)
    (hg : ∀ a, P a → a.Good) (hframes : frames ≤ 8192) (h : Owned frames slots ⟨[], s⟩) (fpn : ℤ) :
    fpn ∈ held ∨ HasFrame u fpn ↔ HasFrame s fpn := by
  have hstart := hasFrame_iff [] s fpn
  simp only [List.not_mem_nil, false_or] at hstart
  rw [hasFrame_iff, hstart]
  generalize hV : (fun l => l ∈ (Work.mk [] s).store.free ∨
    ∃ key, (Work.mk [] s).store.loc key = some l) = V
  have hcov := hm.covers hg hframes h (V := V) fun l hl => by rwa [← hV] at hl
  have hwith := hm.within hg hframes h (V := V)
    ⟨fun l hl => by rw [← hV]; exact .inl hl, fun key l hl => by rw [← hV]; exact .inr ⟨key, hl⟩⟩
  have hiff : (Loc.ram fpn ∈ (Work.mk [] s).store.free ∨
      ∃ key, (Work.mk [] s).store.loc key = some (.ram fpn)) ↔ V (.ram fpn) := by rw [← hV]
  rw [hiff]
  constructor
  · rintro (hl | ⟨key, hl⟩)
    · exact hwith.free _ hl
    · exact hwith.used key _ hl
  · exact hcov _

omit [DecidableEq ι] in
theorem page_setFree (u : System ι) (fs : List ℤ) (q : ι) (k : ℕ) :
    System.page { u with mram := u.mram.setFree fs } q k = u.page q k := rfl

/-- What a failed `vm_map_ram` leaves. -/
structure MapFailed (p : ι) (raw : List ℤ) (s t : System ι) : Prop where
  pages : SamePages (s.mm p) (t.mm p)
  moved : MovedOut (s.mm p).pgd (t.mm p).pgd
  others : ∀ q, q ≠ p → t.mm q = s.mm q
  contents : ∀ q k, t.page q k = s.page q k
  frames : (∀ fpn, HasFrame t fpn ↔ HasFrame s fpn) ↔ FramesBack s p raw

omit [DecidableEq ι] in
/-- The frames after `newfp_str` has been put on the empty list of RAM. -/
theorem framesBack_of_spill (hexcl : Exclusive (Work.mk held u).store)
    (hframe : ∀ fpn, fpn ∈ held ∨ HasFrame u fpn ↔ HasFrame s fpn)
    (hnil : u.mram.freeFpList = []) (hav : s.mram.avail = s.mram.freeFpList)
    (hheld : ∀ fpn, fpn ∈ held ↔ fpn ∈ s.mram.avail ∨
      ∃ k ∈ spilled s p, pteFpn ((s.mm p).pgd k) = fpn)
    (ht : ∀ fpn, HasFrame t fpn ↔ fpn ∈ raw ∨ HasFrame u fpn) :
    (∀ fpn, HasFrame t fpn ↔ HasFrame s fpn) ↔
      (∀ fpn ∈ raw, HasFrame s fpn) ∧ (∀ fpn ∈ s.mram.freeFpList, fpn ∈ raw) ∧
        ∀ k ∈ spilled s p, pteFpn ((s.mm p).pgd k) ∈ raw := by
  -- a frame that has been gathered holds no page
  have hgone : ∀ fpn ∈ held, ¬ HasFrame u fpn := by
    rintro fpn hf (hfree | ⟨q, k, hres, hfpn⟩)
    · rw [hnil] at hfree
      exact List.not_mem_nil hfree
    · refine hexcl.fresh (q, k) (.ram fpn) (pteLoc_eq_ram.mpr ⟨hres, hfpn⟩) ?_
      simp [Work.store, hf]
  have hback : ∀ fpn ∈ held, (HasFrame t fpn ↔ HasFrame s fpn) → fpn ∈ raw := fun fpn hf hiff =>
    ((ht fpn).mp (hiff.mpr ((hframe fpn).mp (.inl hf)))).resolve_right (hgone fpn hf)
  constructor
  · intro hall
    refine ⟨fun fpn hf => (hall fpn).mp ((ht fpn).mpr (.inl hf)), fun fpn hf => ?_, fun k hk => ?_⟩
    · exact hback fpn ((hheld fpn).mpr (.inl (hav ▸ hf))) (hall fpn)
    · exact hback _ ((hheld _).mpr (.inr ⟨k, hk, rfl⟩)) (hall _)
  · rintro ⟨hraw, hfree, hsp⟩ fpn
    rw [ht, ← hframe]
    constructor
    · rintro (hf | hf)
      · exact (hframe fpn).mpr (hraw fpn hf)
      · exact .inr hf
    · rintro (hf | hf)
      · obtain hf | ⟨k, hk, rfl⟩ := (hheld fpn).mp hf
        · exact .inl (hfree fpn (hav ▸ hf))
        · exact .inl (hsp k hk)
      · exact .inr hf

theorem StoppedAt.mapFailed (hst : StoppedAt p raw [] s t held u) (hframes : frames ≤ 8192)
    (hslots : slots ≤ 512) (ho : Owned frames slots ⟨[], s⟩)
    (hsz : (s.mm p).fifoPgn ≠ [] → 0 < s.mram.maxsz) : MapFailed p raw s t := by
  have hfit : SlotsFit s := by
    intro x hx
    have hv : Loc.Valid frames slots (.slot 0 x) := ho.within.free _ (by simp [Work.store, hx])
    exact lt_of_lt_of_le hv.2.2 hslots
  have hgood := fun (a : Act) (ha : a.page = none ∧ (SlotsFit s → a.Good)) => ha.2 hfit
  have hframe := hst.moves.frame
  have hall := hst.moves.hasFrame hgood hframes ho
  have hview : ∀ q k, u.page q k = s.page q k := fun q k =>
    hst.moves.view_eq hgood hframes ho fun _ a ha => by simp [ha.1]
  have hput : ∀ fs, t = { u with mram := memphyPutAll u.mram fs } →
      (SamePages (s.mm p) (t.mm p) ∧ MovedOut (s.mm p).pgd (t.mm p).pgd ∧
        (∀ q, q ≠ p → t.mm q = s.mm q) ∧ (∀ q k, t.page q k = s.page q k)) ∧
      ∀ fpn, HasFrame t fpn ↔ fpn ∈ fs ∨ HasFrame u fpn := by
    rintro fs rfl
    rw [memphyPutAll_eq]
    refine ⟨⟨hst.pages, hst.moved, hframe.mm, fun q k => ?_⟩, fun fpn => ?_⟩
    · rw [page_setFree, hview]
    · simp [HasFrame, or_assoc]
  obtain ⟨hle, ht⟩ | ⟨hlt, ht, hheld⟩ := hst.ending
  · obtain ⟨⟨h1, h2, h3, h4⟩, h5⟩ := hput held ht
    exact ⟨h1, h2, h3, h4, iff_of_true (fun fpn => (h5 fpn).trans (hall fpn)) (.inl hle)⟩
  · obtain ⟨⟨h1, h2, h3, h4⟩, h5⟩ := hput raw ht
    have hpos : 0 < s.mram.maxsz := hsz fun hnil => by simp [hnil] at hlt
    have hav : ∀ mp : Memphy, 0 < mp.maxsz → mp.avail = mp.freeFpList := fun mp h0 => by
      rw [Memphy.avail, if_neg (not_le.mpr h0)]
    have hnil : u.mram.freeFpList = [] := by
      have hsz' : u.mram.maxsz = s.mram.maxsz := hframe.ramSize
      rw [← hav u.mram (by rw [hsz']; exact hpos)]
      exact hst.empty
    refine ⟨h1, h2, h3, h4, ?_⟩
    rw [framesBack_of_spill (p := p)
      (hst.moves.owned hgood hframes ho).exclusive hall hnil (hav _ hpos)
      (by simpa using hheld) h5]
    exact (or_iff_right (not_le.mpr hlt)).symm

theorem vmMapRam_failed (mapstart : ℤ) (n : ℕ) (raw : List ℤ) (hframes : frames ≤ 8192)
    (hslots : slots ≤ 512) (h : ProcOk s p) (ho : Owned frames slots ⟨[], s⟩)
    (hsz : (s.mm p).fifoPgn ≠ [] → 0 < s.mram.maxsz)
    (hfail : (vmMapRam s p mapstart n raw).1 < 0) :
    MapFailed p raw s (vmMapRam s p mapstart n raw).2 := by
  have hst := allocPagesRange_stopped raw n [] s h
  unfold vmMapRam at hfail ⊢
  simp only [Int.toNat_natCast] at hfail ⊢
  generalize allocPagesRange p raw n [] s = res at hfail hst ⊢
  obtain ⟨retAlloc, frmLst, t⟩ := res
  simp only at hfail hst ⊢
  split_ifs at hfail ⊢ with hneg
  · obtain ⟨held, u, hst⟩ := hst hneg
    exact hst.mapFailed hframes hslots ho hsz
  · exact absurd hfail (by simp)

end

/-! ## `__alloc` -/

section

variable {p : ι} {s : System ι} {raw : List ℤ} {frames slots : ℤ}

theorem setMm_pgd {mm : Mm} (hpgd : mm.pgd = (s.mm p).pgd) (q : ι) :
    ((s.setMm p mm).mm q).pgd = (s.mm q).pgd := by
  by_cases hq : q = p
  · rw [hq, System.setMm_self, hpgd]
  · rw [System.setMm_of_ne _ _ _ hq]

/-- A change of the regions moves no page. -/
theorem page_setMm {mm : Mm} (hpgd : mm.pgd = (s.mm p).pgd) (q : ι) (k : ℕ) :
    (s.setMm p mm).page q k = s.page q k := by
  simp only [System.page, view, Work.store, setMm_pgd hpgd, System.setMm_mram, System.setMm_mswp]

theorem hasFrame_setMm {mm : Mm} (hpgd : mm.pgd = (s.mm p).pgd) (fpn : ℤ) :
    HasFrame (s.setMm p mm) fpn ↔ HasFrame s fpn := by
  simp only [HasFrame, setMm_pgd hpgd, System.setMm_mram]

theorem framesBack_setMm {mm : Mm} (hpgd : mm.pgd = (s.mm p).pgd)
    (hfifo : mm.fifoPgn = (s.mm p).fifoPgn) :
    FramesBack (s.setMm p mm) p raw ↔ FramesBack s p raw := by
  simp only [FramesBack, hasFrame_setMm hpgd, spilled, System.setMm_self, System.setMm_mram,
    System.setMm_mswp, hpgd, hfifo]

/-- When the regions that a process has after a failed `vm_map_ram` make everything as before. -/
theorem MapFailed.restored_setMm {mm mm' : Mm} {s1 : System ι}
    (hleft : MapFailed p raw (s.setMm p mm) s1) (hpgd : mm.pgd = (s.mm p).pgd)
    (hfifo : mm.fifoPgn = (s.mm p).fifoPgn) (hpgd' : mm'.pgd = (s1.mm p).pgd)
    (hsbrk : mm'.mmap.sbrk = (s.mm p).mmap.sbrk) (hvmEnd : mm'.mmap.vmEnd = (s.mm p).mmap.vmEnd) :
    Restored p s (s1.setMm p mm') ↔ mm'.symrgtbl = (s.mm p).symrgtbl ∧
      covered mm'.mmap.vmFreergList = covered (s.mm p).mmap.vmFreergList ∧
      FramesBack s p raw := by
  have hback := hleft.frames
  rw [framesBack_setMm hpgd hfifo] at hback
  simp only [hasFrame_setMm hpgd] at hback
  have hmoved := hleft.moved
  rw [System.setMm_self, hpgd] at hmoved
  have hq : ∀ q, q ≠ p → s1.mm q = s.mm q := fun q hq =>
    (hleft.others q hq).trans (System.setMm_of_ne s p mm hq)
  constructor
  · intro hi
    have hsym := hi.symrgtbl p
    have hfree := hi.free p
    rw [System.setMm_self] at hsym hfree
    exact ⟨hsym, hfree, hback.mp fun fpn => (hasFrame_setMm hpgd' fpn).symm.trans (hi.frames fpn)⟩
  · rintro ⟨hsym, hcov, hf⟩
    -- the other processes are as before
    have hfield : ∀ {α : Type _} (f : Mm → α), f mm' = f (s.mm p) →
        ∀ q, f ((s1.setMm p mm').mm q) = f (s.mm q) := by
      intro α f hp q
      by_cases hqp : q = p
      · rw [hqp, System.setMm_self, hp]
      · rw [System.setMm_of_ne _ _ _ hqp, hq q hqp]
    refine ⟨hfield _ hsym, hfield (fun mm => mm.mmap.sbrk) hsbrk,
      hfield (fun mm => mm.mmap.vmEnd) hvmEnd, hfield (fun mm => covered mm.mmap.vmFreergList) hcov,
      fun fpn => (hasFrame_setMm hpgd' fpn).trans (hback.mpr hf fpn), fun q r' k _ => ?_,
      fun q hqp => ?_, ?_⟩
    · rw [page_setMm hpgd', hleft.contents, page_setMm hpgd]
    · rw [System.setMm_of_ne _ _ _ hqp, hq q hqp]
    · rw [System.setMm_self, hpgd']
      exact hmoved

variable (raw) {n : ℕ} (h : ProcOk s p) (hn1 : 1 ≤ n) (hn : n ≤ 2 ^ 22) {rgs : List VmRg}
  (hr : RegionsApart (s.mm p).mmap.sbrk rgs)
  (hsub : ∀ pgn, HasPages rgs pgn → HasPages (s.mm p).mmap.vmFreergList pgn)
  (hno : ¬ Found s p (alignedSize n / 256))

include h hn hr hsub hno

include hn1 in
/-- The free-list path without frames: the region goes back, the entry of the table is cleared. -/
theorem allocFreerg_failed (hframes : frames ≤ 8192) (hslots : slots ≤ 512)
    (ho : Owned frames slots ⟨[], s⟩) (hsz : (s.mm p).fifoPgn ≠ [] → 0 < s.mram.maxsz)
    (r : Fin pagingMaxSymtblSz) {rg : VmRg} (hbelow : rg.Below (s.mm p).mmap.sbrk)
    (hend : rg.rgEnd = rg.rgStart + alignedSize n)
    (hpage : ∀ pgn, rg.HasPage pgn →
      HasPages (s.mm p).mmap.vmFreergList pgn ∧ ¬ HasPages rgs pgn) :
    ∃ t, allocFreerg (setFreerg s p rgs) p r rg raw = (-1, 0, t) ∧
      (t.mm p).mmap.dangling = true ∧
      (Restored p s t ↔ (s.mm p).symrgtbl r = ⟨0, 0⟩ ∧
        covered (enlistVmFreergList rgs rg) = covered (s.mm p).mmap.vmFreergList ∧
        FramesBack s p raw) := by
  have hlt : rg.rgStart < rg.rgEnd := by
    have := le_alignedSize n
    omega
  unfold allocFreerg
  simp only [setSymrg_setFreerg, setSymrg_setMm, pages_of_end hn hend]
  generalize hmm : ({ s.mm p with
    mmap := { (s.mm p).mmap with vmFreergList := rgs }
    symrgtbl := Function.update (s.mm p).symrgtbl r rg } : Mm) = mm
  have hinv : MmInv mm := hmm ▸ h.mm.carve r hr hsub hbelow hpage
  have hpgd : mm.pgd = (s.mm p).pgd := hmm ▸ rfl
  have hfifo : mm.fifoPgn = (s.mm p).fifoPgn := hmm ▸ rfl
  have hown : Owned frames slots ⟨[], s.setMm p mm⟩ :=
    (show Move p .space ⟨[], s⟩ ⟨[], s.setMm p mm⟩ from .space hpgd).owned trivial hframes ho
  obtain ⟨hfound, -⟩ := found_congr s (s.setMm p mm) (p := p) rfl rfl
    (by rw [System.setMm_self, hfifo]) (alignedSize n / 256)
  have hmap := vmMapRam_plain (s.setMm p mm) p (i32 rg.rgStart) (alignedSize n / 256 : ℕ) raw
  have hok : ProcOk (s.setMm p mm) p := ⟨by rw [System.setMm_self]; exact hinv, h.slots⟩
  have hleft := vmMapRam_failed (i32 rg.rgStart) (alignedSize n / 256) raw hframes hslots hok hown
    (by rw [System.setMm_self, hfifo]; exact hsz)
  rw [Int.toNat_natCast, hfound] at hmap
  obtain ⟨hf, -⟩ | ⟨-, s1, heq⟩ := hmap
  · exact absurd hf hno
  rw [heq] at hleft ⊢
  simp only at hleft ⊢
  have hleft := hleft (by norm_num)
  have hpages := hleft.pages
  rw [System.setMm_self] at hpages
  have hmmap : (s1.mm p).mmap = { (s.mm p).mmap with vmFreergList := rgs } := by
    rw [hpages.mmap, ← hmm]
  have hsym : (s1.mm p).symrgtbl = Function.update (s.mm p).symrgtbl r rg := by
    rw [hpages.symrgtbl, ← hmm]
  rw [if_pos (by norm_num)]
  refine ⟨_, rfl, by simp [VmArea.enlistRgnode, hlt], ?_⟩
  rw [hmmap, hsym, Function.update_idem]
  refine (hleft.restored_setMm hpgd hfifo ?_ ?_ ?_).trans (and_congr_left' ?_)
  · rfl
  · rfl
  · rfl
  · rw [Function.update_eq_self_iff, eq_comm]

include hn1 in
/-- The break path without frames: the break has been raised. -/
theorem allocSbrk_failed (r : Fin pagingMaxSymtblSz) :
    ∃ t, allocSbrk (setFreerg s p rgs) p r n raw = (-1, 0, t) ∧ ¬ Restored p s t := by
  have hle := le_alignedSize n
  have hsz := alignedSize_le hn
  have hbound := h.mm.bound
  have hfree := h.mm.setFree hr hsub
  have heq := allocSbrk_eq (s := setFreerg s p rgs) (p := p) (by simpa using hfree.spaceInv) r hn1
    (by rw [setFreerg_self]; simp only; omega) raw
  rw [setFreerg_self, setFreerg, System.setMm_setMm, ← setFreerg] at heq
  rw [heq]
  generalize hs1 : s.setMm p _ = s1
  have hmm1 : s1.mm p = Mm.raise { s.mm p with mmap := { (s.mm p).mmap with
      vmFreergList := rgs } } (alignedSize n) := by
    rw [← hs1, System.setMm_self]
  obtain ⟨hfound, -⟩ := found_congr s s1 (p := p) (by rw [← hs1]; rfl) (by rw [← hs1]; rfl)
    (by rw [hmm1]; rfl) (alignedSize n / 256)
  have hmap := vmMapRam_plain s1 p (s.mm p).mmap.sbrk (alignedSize n / 256 : ℕ) raw
  have hspace := (Paged.vmMapRam (p := p) s1 (s.mm p).mmap.sbrk (alignedSize n / 256 : ℕ) raw).space
  rw [Int.toNat_natCast, hfound] at hmap
  obtain ⟨hf, -⟩ | ⟨-, t, heq⟩ := hmap
  · exact absurd hf hno
  simp only [heq] at hspace ⊢
  refine ⟨t, rfl, fun hi => ?_⟩
  have hsbrk := hi.sbrk p
  rw [hspace.mmap, hmm1] at hsbrk
  simp only [Mm.raise] at hsbrk
  omega

end

/-! ## The condition -/

section

variable {c : Config ι} {p : ι} {s : System ι} {raw : List ℤ} {n : ℕ}

omit [DecidableEq ι] in
/-- The free regions share no address, and one turn of the search is sound on each. -/
theorem RegionsApart.addrs {sbrk : ℕ} {rgs : List VmRg} (h : RegionsApart sbrk rgs) :
    rgs.Pairwise fun rg rg' => Disjoint rg.addrs rg'.addrs := by
  refine h.apart.imp fun {rg rg'} hap => Set.disjoint_left.mpr fun a ha ha' => ?_
  exact hap _ (VmRg.hasPage_of_byte ha.1 ha.2) (VmRg.hasPage_of_byte ha'.1 ha'.2)

/-- `__alloc` returns, and it fails exactly if it does not find frames. -/
theorem alloc_found_iff (h : MmInv (s.mm p)) (hn1 : 1 ≤ n) (hn : n ≤ 2 ^ 22)
    (r : Fin pagingMaxSymtblSz) (raw : List ℤ) : ∃ stat addr t,
      alloc s p r n raw = .ok (stat, addr, t) ∧
        (stat = -1 ↔ ¬ Found s p (alignedSize n / 256)) := by
  obtain ⟨start, hplan, -⟩ := allocPlan_eq h hn1 hn
  obtain ⟨-, hnone⟩ | ⟨⟨stat, addr, t⟩, heq, hp⟩ := alloc_plain s p r n raw
  · rw [hplan] at hnone
    cases hnone
  refine ⟨stat, addr, t, heq, ?_⟩
  obtain ⟨hstat, hno⟩ | ⟨hstat, plan, hplan', hfound, -⟩ := hp.ending <;> simp only at hstat
  · exact iff_of_true hstat (hno _ hplan)
  · rw [hplan] at hplan'
    cases hplan'
    refine iff_of_false ?_ (not_not.mpr hfound)
    rw [hstat]
    decide

/-- An `__alloc` that does not find frames, on the free-list path and on the break path. -/
theorem alloc_failed (hram : numfp c.ramSz ≤ 8192) (hswp : numfp (c.swpSz 0) ≤ 512)
    (hinv : LiveInv c s) (r : Fin pagingMaxSymtblSz) (hn1 : 1 ≤ n) (hn : n ≤ 2 ^ 22)
    (hno : ¬ Found s p (alignedSize n / 256)) (raw : List ℤ) :
    ∃ t, alloc s p r n raw = .ok (-1, 0, t) ∧
      (Fits (s.mm p) n ∧ (t.mm p).mmap.dangling = true ∧
          (Restored p s t ↔ (s.mm p).symrgtbl r = ⟨0, 0⟩ ∧
            ((s.mm p).mmap.vmFreergList.map (VmRg.pieces (alignedSize n))).sum ≤ 1 ∧
            FramesBack s p raw) ∨
        ¬ Fits (s.mm p) n ∧ ¬ Restored p s t) := by
  have hok := hinv.proc p
  have hle := le_alignedSize n
  have hsz := alignedSize_le hn
  have hbound := hok.mm.bound
  obtain ⟨newrg, rgs, heq, hr, hsub, hfit, hnew⟩ := getFreeVmrgArea_spec hok.mm.bound
    (by omega) hsz (dvd_alignedSize n) hok.mm.free
  cases newrg with
  | some rg =>
    obtain ⟨hb, hend, hp⟩ := hnew rg rfl
    have hpos : (s.mm p).fifoPgn ≠ [] → 0 < s.mram.maxsz := fun hne => by
      obtain ⟨k, hk⟩ := List.exists_mem_of_ne_nil _ hne
      exact hinv.ram (hok.mm.fifo_resident k hk).1
    obtain ⟨t, ht, hdangling, hiff⟩ := allocFreerg_failed raw hok hn1 hn hr hsub hno hram hswp
      hinv.owned hpos r hb hend hp
    have hsound : ∀ rg ∈ (s.mm p).mmap.vmFreergList, rg.Sound (alignedSize n) := fun rg hrg =>
      (hok.mm.free.below rg hrg).under.sound (by omega) (by omega)
    rw [covered_putBack_iff hok.mm.free.addrs (by omega) hsound heq] at hiff
    refine ⟨t, ?_, .inl ⟨hfit.mp rfl, hdangling, hiff⟩⟩
    simp only [alloc, pagingPageAlignsz_natCast hn, heq, ht]
  | none =>
    obtain ⟨t, ht, hnot⟩ := allocSbrk_failed raw hok hn1 hn hr hsub hno r
    refine ⟨t, ?_, .inr ⟨fun hex => by simpa using hfit.mpr hex, hnot⟩⟩
    simp only [alloc, pagingPageAlignsz_natCast hn, heq, ht]

/-- In either build, in every state of a run whose steps are `StepOk`: an `__alloc` that fails
would leave everything as it was, if its variable were kept, exactly if it has taken the free-list
path, with one piece on the list, where the entry of the table was clear and the frames are given
back. -/
theorem restored_iff (hram : numfp c.ramSz ≤ 8192) (hswp : numfp (c.swpSz 0) ≤ 512) {b : Build}
    {tr : List (Label ι)} (h : ((buildLts b c).guard StepOk).Run tr s) (r : Fin pagingMaxSymtblSz)
    (hn1 : 1 ≤ n) (hn : n ≤ 2 ^ 22) {addr : ℤ} {t : System ι}
    (hfail : alloc s p r n raw = .ok (-1, addr, t)) :
    Restored p s t ↔ Fits (s.mm p) n ∧ (s.mm p).symrgtbl r = ⟨0, 0⟩ ∧
      ((s.mm p).mmap.vmFreergList.map (VmRg.pieces (alignedSize n))).sum ≤ 1 ∧
      FramesBack s p raw := by
  have hinv := (liveInv_of_run hram h).1
  obtain ⟨stat, addr', t', heq, hiff⟩ := alloc_found_iff (hinv.proc p).mm hn1 hn r raw
  rw [hfail] at heq
  cases heq
  obtain ⟨t', heq, hend⟩ := alloc_failed hram hswp hinv r hn1 hn (hiff.mp rfl) raw
  rw [hfail] at heq
  cases heq
  obtain ⟨hfits, -, hrestored⟩ | ⟨hfits, hnot⟩ := hend
  · rw [hrestored, and_iff_right hfits]
  · exact iff_of_false hnot fun hc => hfits hc.1

/-- In either build, in every state of a run whose steps are `StepOk`: `__alloc` leaves everything as
it was, should it fail, exactly if it finds its frames and does not fail. It is also to have a list
that does not lead to a variable that is gone, and a page table for its pages. -/
theorem allocKeepsAll_iff (hram : numfp c.ramSz ≤ 8192) (hswp : numfp (c.swpSz 0) ≤ 512) {b : Build}
    {tr : List (Label ι)} (h : ((definedLts b c).guard StepOk).Run tr s)
    (r : Fin pagingMaxSymtblSz) (hn1 : 1 ≤ n) (hn : n ≤ 2 ^ 22) :
    AllocKeepsAll s p r n raw ↔ Found s p (alignedSize n / 256) ∧ AllocDefined s p n := by
  have hinv := (liveInv_of_run hram (run_of_defined h)).1
  obtain ⟨stat, addr, t, heq, hiff⟩ := alloc_found_iff (hinv.proc p).mm hn1 hn r raw
  constructor
  · rintro ⟨hdef, stat', addr', t', heq', hkeeps⟩
    refine ⟨not_not.mp fun hno => ?_, hdef⟩
    -- the list leads to the variable, or the break has moved
    obtain ⟨t1, heq1, hend⟩ := alloc_failed hram hswp hinv r hn1 hn hno raw
    rw [heq1] at heq'
    cases heq'
    have hi := hkeeps rfl
    obtain ⟨-, hdangling, -⟩ | ⟨-, hnot⟩ := hend
    · rw [hi.dangling p, hdef.kept] at hdangling
      cases hdangling
    · exact hnot hi.toRestored
  · rintro ⟨hfound, hdef⟩
    exact ⟨hdef, stat, addr, t, heq, fun hneg => absurd hfound (hiff.mp hneg)⟩

end

/-- Process 1 has the two frames of RAM when process 0 asks for the page that it has freed. The page
goes back to the free list, as a variable that is gone. -/
theorem restored_freed : ∃ s addr t,
    ((buildLts .cpuTlb (Config.two 512 512)).guard StepOk).Run
      [⟨0, ⟨.ALLOC, 256, 0, 0⟩, [], ⟨0, none⟩⟩, ⟨0, ⟨.FREE, 0, 0, 0⟩, [], ⟨0, none⟩⟩,
        ⟨1, ⟨.ALLOC, 512, 0, 0⟩, [], ⟨0, none⟩⟩] s ∧
      alloc s 0 0 256 [0] = .ok (-1, addr, t) ∧ Restored 0 s t ∧
        (t.mm 0).mmap.dangling = true := by
  obtain ⟨s, hrun, htest⟩ := exists_run_of_runAll (Config.two 512 512) StepOk
    [⟨0, ⟨.ALLOC, 256, 0, 0⟩, [], ⟨0, none⟩⟩, ⟨0, ⟨.FREE, 0, 0, 0⟩, [], ⟨0, none⟩⟩,
      ⟨1, ⟨.ALLOC, 512, 0, 0⟩, [], ⟨0, none⟩⟩]
    (fun s => match alloc s 0 0 256 [0] with
      | .ok res => decide (res.1 = -1 ∧ (res.2.2.mm 0).mmap.dangling = true ∧
        Fits (s.mm 0) 256 ∧ (s.mm 0).symrgtbl 0 = ⟨0, 0⟩ ∧
        ((s.mm 0).mmap.vmFreergList.map (VmRg.pieces (alignedSize 256))).sum ≤ 1 ∧
        (s.mm 0).fifoPgn.length ≤ (s.mswp 0).avail.length)
      | .error _ => false) (by decide +kernel)
  cases heq : alloc s 0 0 256 [0] with
  | error e =>
    simp only [heq] at htest
    cases htest
  | ok res =>
    obtain ⟨stat, addr, t⟩ := res
    simp only [heq] at htest
    obtain ⟨rfl, hdangling, hfits, hclear, hpieces, hlen⟩ := of_decide_eq_true htest
    refine ⟨s, addr, t, hrun, heq, ?_, hdangling⟩
    exact (restored_iff (b := .cpuTlb) (by decide) (by decide) hrun 0 (by decide) (by decide)
      heq).mpr ⟨hfits, hclear, hpieces, .inl hlen⟩

/-- Process 0 has the two frames of RAM, and one of its pages goes to swap for a third one. -/
theorem allocKeepsAll_evicts : ∃ s,
    ((definedLts .cpuTlb (Config.two 512 512)).guard StepOk).Run
      [⟨0, ⟨.ALLOC, 512, 0, 0⟩, [], ⟨0, none⟩⟩, ⟨0, ⟨.WRITE, 7, 0, 300⟩, [], ⟨0, none⟩⟩] s ∧
      s.mram.avail = [] ∧ AllocKeepsAll s 0 1 256 [0] := by
  obtain ⟨s, hrun, htest⟩ := exists_defined_run_of_runAll (Config.two 512 512) StepOk
    [⟨0, ⟨.ALLOC, 512, 0, 0⟩, [], ⟨0, none⟩⟩, ⟨0, ⟨.WRITE, 7, 0, 300⟩, [], ⟨0, none⟩⟩]
    (fun s => decide (s.mram.avail = [] ∧ Found s 0 (alignedSize 256 / 256) ∧
      AllocDefined s 0 (256 : ℕ))) (by decide +kernel)
  obtain ⟨hav, hfound, hdef⟩ := of_decide_eq_true htest
  exact ⟨s, hrun, hav, (allocKeepsAll_iff (b := .cpuTlb) (by decide) (by decide) hrun 1 (by decide)
    (by decide)).mpr ⟨hfound, hdef⟩⟩

/-- Without the free region the break of process 0 has moved when its `__alloc` fails. -/
theorem not_allocKeepsAll_break : ∃ s,
    ((definedLts .cpuTlb (Config.two 512 512)).guard StepOk).Run
      [⟨1, ⟨.ALLOC, 512, 0, 0⟩, [], ⟨0, none⟩⟩] s ∧ ¬ AllocKeepsAll s 0 0 256 [0] := by
  obtain ⟨s, hrun, htest⟩ := exists_defined_run_of_runAll (Config.two 512 512) StepOk
    [⟨1, ⟨.ALLOC, 512, 0, 0⟩, [], ⟨0, none⟩⟩]
    (fun s => match alloc s 0 0 256 [0] with
      | .ok res => decide (res.1 = -1 ∧ (res.2.2.mm 0).mmap.sbrk ≠ (s.mm 0).mmap.sbrk)
      | .error _ => false) (by decide +kernel)
  refine ⟨s, hrun, ?_⟩
  rintro ⟨-, stat, addr, t, heq, hkeeps⟩
  rw [show alloc s 0 0 256 [0] = .ok (stat, addr, t) from heq] at htest
  obtain ⟨hfail, hne⟩ := of_decide_eq_true htest
  exact hne ((hkeeps hfail).sbrk 0)

end OsSim.Mem
