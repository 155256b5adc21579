import OsSim.Mem.Moves

/-!
# The loops as moves

Results:
* `allocPagesRange_moves`: gathering frames. It is good exactly as long as
  `Enough` holds: the loop does not come to a page for which a victim is left but
  no swap slot, and the slots it takes are below 512.
* `vmapLoop_moves`: mapping the gathered frames.
* `freeLoop_moves`: releasing the pages of a region.
-/

namespace OsSim.Mem

open BitField

variable {ι : Type*} [DecidableEq ι]

/-! ## Gathering frames -/

/-- `n` frames can be gathered with `k` free ones, `v` pages to evict and the free slots `slots`
without losing track of any: the loop never has a victim and no slot for it, and all slots that
it takes have numbers that `PAGING_SWP` reads back. -/
def Enough (n k v : ℕ) (slots : List ℤ) : Prop :=
  ¬ (slots.length < n - k ∧ slots.length < v) ∧ ∀ x ∈ slots.take (min (n - k) v), x < 512

instance (n k v : ℕ) (slots : List ℤ) : Decidable (Enough n k v slots) :=
  inferInstanceAs (Decidable (_ ∧ _))

theorem Enough.of_frame {n k v : ℕ} {slots : List ℤ} (h : Enough (n + 1) (k + 1) v slots) :
    Enough n k v slots := by
  unfold Enough at h ⊢
  rwa [Nat.add_sub_add_right] at h

theorem Enough.of_slot {n v : ℕ} {slot : ℤ} {slots : List ℤ}
    (h : Enough (n + 1) 0 (v + 1) (slot :: slots)) : slot < 512 ∧ Enough n 0 v slots := by
  unfold Enough at h ⊢
  simp only [List.length_cons, Nat.sub_zero, Nat.add_min_add_right, List.take_succ_cons,
    List.mem_cons, forall_eq_or_imp] at h ⊢
  exact ⟨h.2.1, by omega, h.2.2⟩

theorem not_enough_nil (n v : ℕ) : ¬ Enough (n + 1) 0 (v + 1) [] := by
  simp [Enough]

/-- `Enough` in a state of the memory. -/
def FramesEnough (s : System ι) (p : ι) (n : ℕ) : Prop :=
  Enough n s.mram.avail.length (s.mm p).fifoPgn.length (s.mswp 0).avail

instance (s : System ι) (p : ι) (n : ℕ) : Decidable (FramesEnough s p n) :=
  inferInstanceAs (Decidable (Enough ..))

/-- What `alloc_pages_range` does to get `n` more frames. -/
structure Gathered (p : ι) (n : ℕ) (held : List ℤ) (s : System ι) (r : ℤ × List ℤ × System ι) :
    Prop where
  moves : Moves p (fun a => a.page = none ∧ (FramesEnough s p n → a.Good)) ⟨held, s⟩
    ⟨if r.1 < 0 then [] else r.2.1, r.2.2⟩
  ok : ProcOk r.2.2 p
  pages : SamePages (s.mm p) (r.2.2.mm p)
  status : r.1 = 0 ∧ r.2.1.length = held.length + n ∨ r.1 = -3000

/-- One more frame, and then the rest. -/
theorem Gathered.cons {p : ι} {n : ℕ} {held held' : List ℤ} {s s' : System ι}
    {r : ℤ × List ℤ × System ι}
    (hm : Moves p (fun a => a.page = none ∧ (FramesEnough s p (n + 1) → a.Good)) ⟨held, s⟩
      ⟨held', s'⟩)
    (hpages : SamePages (s.mm p) (s'.mm p)) (hlen : held'.length = held.length + 1)
    (henough : FramesEnough s p (n + 1) → FramesEnough s' p n) (h : Gathered p n held' s' r) :
    Gathered p (n + 1) held s r where
  moves := hm.trans (h.moves.mono fun _ ha => ⟨ha.1, fun he => ha.2 (henough he)⟩)
  ok := h.ok
  pages := hpages.trans h.pages
  status := h.status.imp_left fun ⟨h1, h2⟩ => ⟨h1, by omega⟩

theorem allocPagesRange_moves (p : ι) (raw : List ℤ) (n : ℕ) (held : List ℤ) (s : System ι)
    (h : ProcOk s p) : Gathered p n held s (allocPagesRange p raw n held s) := by
  induction n generalizing held s with
  | zero => exact ⟨.refl _, h, .rfl' _, .inl ⟨rfl, rfl⟩⟩
  | succ n ih =>
    unfold allocPagesRange
    obtain ⟨hget, hav⟩ | ⟨fpn, rest, hget, hl, hav, hav'⟩ := memphyGetFreefp_eq s.mram
    · simp only [hget, findVictimPage]
      cases hlast : (s.mm p).fifoPgn.getLast? with
      | none =>
        -- no victim: the frames gathered so far go back
        exact ⟨.single .putBack ⟨rfl, fun _ => trivial⟩, ⟨h.mm, h.slots⟩, .rfl' _, .inr rfl⟩
      | some vicpgn =>
        have hfifo := length_of_getLast? hlast
        have hspace : Move p .space ⟨held, s⟩
            ⟨held, s.setFifo p (s.mm p).fifoPgn.dropLast⟩ := .space rfl
        have hok : ProcOk (s.setFifo p (s.mm p).fifoPgn.dropLast) p :=
          ⟨by simpa using h.mm.dropVictim, h.slots⟩
        have hsame : SamePages (s.mm p) ((s.setFifo p (s.mm p).fifoPgn.dropLast).mm p) := by
          rw [System.setFifo_self]
          exact ⟨rfl, rfl, fun _ => Iff.rfl⟩
        simp only
        obtain ⟨hslots, i, hsearch⟩ | ⟨slot, rest, hl, hslots, hslots', h0, hsearch⟩ :=
          swapSearch_eq (s.setFifo p (s.mm p).fifoPgn.dropLast) h.slots
        · -- a victim and no slot: `newfp_str` goes to the list of RAM
          simp only [hsearch, show (-1 : ℤ) < 0 by decide, if_true]
          refine ⟨.cons hspace ⟨rfl, fun _ => trivial⟩ (.single (.spill raw) ⟨rfl, fun he => ?_⟩),
            ⟨hok.mm, hok.slots⟩, hsame, .inr rfl⟩
          rw [System.setFifo_mswp] at hslots
          unfold FramesEnough at he
          rw [hav, hfifo, hslots] at he
          exact not_enough_nil _ _ he
        · -- the victim goes to the slot
          rw [System.setFifo_mswp] at hl hslots hslots'
          simp only [hsearch, show ¬ slot < 0 by omega, if_false, swapOut_fst]
          have hmem : vicpgn ∈ (s.mm p).fifoPgn := List.mem_of_getLast? hlast
          have hevict : Move p (.evict slot) ⟨held, s.setFifo p (s.mm p).fifoPgn.dropLast⟩ _ :=
            .evict (by simpa using h.mm.fifo_resident _ hmem) hl h0
          have hlists := swapOut_lists (s.setFifo p (s.mm p).fifoPgn.dropLast) p vicpgn slot rest
          have hmm := swapOut_mm (s.setFifo p (s.mm p).fifoPgn.dropLast) p vicpgn slot rest
          have hfr := Frame.swapOut p (s.setFifo p (s.mm p).fifoPgn.dropLast) vicpgn slot rest
          simp only [System.setFifo_mram, System.setFifo_self] at hlists hmm
          refine .cons (.cons hspace ⟨rfl, fun _ => trivial⟩ (.single hevict ⟨rfl, fun he => ?_⟩))
            ?_ (by simp) (fun he => ?_) (ih _ _ ?_)
          · unfold FramesEnough at he
            rw [hav, hfifo, hslots] at he
            exact he.of_slot.1
          · rw [hmm]
            exact .update (h.mm.fifo_resident _ hmem).1
              (present_pteSetSwap ((s.mm p).pgd vicpgn) 0 slot) _
          · unfold FramesEnough at he ⊢
            rw [hav, hfifo, hslots] at he
            rw [hmm, Memphy.avail_congr _ hfr.ramSize hlists.1, System.setFifo_mram, hav,
              Memphy.avail_congr ((s.mswp 0).setFree rest) hfr.swpSize hlists.2, hslots']
            exact he.of_slot.2
          · refine ⟨?_, fun x hx => h.slots x ?_⟩
            · rw [hmm]
              exact h.mm.swapOutPage hlast 0 slot
            · rw [hlists.2] at hx
              rw [hl]
              exact List.mem_cons_of_mem _ hx
    · simp only [hget]
      refine .cons (.single (.get hl) ⟨rfl, fun _ => trivial⟩) (.rfl' _) (by simp) (fun he => ?_)
        (ih _ _ ⟨h.mm, h.slots⟩)
      unfold FramesEnough at he ⊢
      rw [hav, List.length_cons] at he
      rw [System.setFrames_mram, hav', System.setFrames_mm, System.setFrames_mswp]
      exact he.of_frame

/-! ## Mapping the frames -/

/-- Page `pgn` is one of the `n` pages from `base` on. -/
def InRange (base n pgn : ℕ) : Prop := base ≤ pgn ∧ pgn < base + n

/-- The page can be mapped: it is absent, in no free region and below the break. -/
structure Mappable (mm : Mm) (pgn : ℕ) : Prop where
  absent : ¬ Present (mm.pgd pgn)
  notFree : ¬ HasPages mm.mmap.vmFreergList pgn
  below : pgn * 256 < mm.mmap.sbrk

/-- What `vmap_page_range` does to the `left` pages from `base` on. -/
structure Mapped (p : ι) (base left : ℕ) (frames : List ℤ) (s : System ι) (mm : Mm) : Prop where
  moves : Moves p (fun a => ∃ pgn, InRange base left pgn ∧ a = .map pgn) ⟨frames, s⟩
    ⟨[], s.setMm p mm⟩
  inv : MmInv mm
  mmap : mm.mmap = (s.mm p).mmap
  symrgtbl : mm.symrgtbl = (s.mm p).symrgtbl
  resident : ∀ pgn, InRange base left pgn → Resident (mm.pgd pgn)
  keep : ∀ pgn, ¬ InRange base left pgn → mm.pgd pgn = (s.mm p).pgd pgn

theorem vmapLoop_moves (p : ι) (pgn left pgit : ℕ) (frames : List ℤ) (s : System ι)
    (h : MmInv (s.mm p)) (hlen : frames.length = left)
    (hmap : ∀ k, InRange (pgn + pgit) left k → Mappable (s.mm p) k) :
    Mapped p (pgn + pgit) left frames s (vmapLoop pgn left pgit frames (s.mm p)) := by
  induction left generalizing pgit frames s with
  | zero =>
    obtain rfl := List.length_eq_zero_iff.mp hlen
    refine ⟨?_, h, rfl, rfl, fun k hk => absurd hk.2 (by have := hk.1; omega), fun _ _ => rfl⟩
    rw [vmapLoop, System.setMm_eta]
    exact .refl _
  | succ left ih =>
    obtain ⟨fpn, frames, rfl⟩ := List.exists_cons_of_length_eq_add_one hlen
    have h0 := hmap (pgn + pgit) ⟨le_rfl, by omega⟩
    rw [vmapLoop]
    generalize hmm : ({ s.mm p with
      pgd := Function.update (s.mm p).pgd (pgn + pgit)
        (pteSetFpn ((s.mm p).pgd (pgn + pgit)) fpn)
      fifoPgn := enlistPgnNode (s.mm p).fifoPgn (pgn + pgit) } : Mm) = mm
    have hinv : MmInv mm := hmm ▸ h.mapPage h0.absent h0.notFree h0.below fpn
    have hpgd : mm.pgd = Function.update (s.mm p).pgd (pgn + pgit)
        (pteSetFpn ((s.mm p).pgd (pgn + pgit)) fpn) := hmm ▸ rfl
    have hmmap : mm.mmap = (s.mm p).mmap := hmm ▸ rfl
    have hsym : mm.symrgtbl = (s.mm p).symrgtbl := hmm ▸ rfl
    have hrest := ih (pgit + 1) frames (s.setMm p mm) (by simpa using hinv) (by simpa using hlen)
    rw [System.setMm_self] at hrest
    have hr := hrest fun k hk => by
      have hk' : InRange (pgn + pgit) (left + 1) k := ⟨by have := hk.1; omega, by
        have := hk.2
        omega⟩
      have hne : k ≠ pgn + pgit := by
        have := hk.1
        omega
      have hm := hmap k hk'
      exact ⟨by rw [hpgd, Function.update_of_ne hne]; exact hm.absent, hmmap ▸ hm.notFree,
        hmmap ▸ hm.below⟩
    have hin : ∀ k, InRange (pgn + pgit) (left + 1) k ↔
        k = pgn + pgit ∨ InRange (pgn + (pgit + 1)) left k := by
      intro k
      unfold InRange
      omega
    refine ⟨?_, hr.inv, ?_, ?_, fun k hk => ?_, fun k hk => ?_⟩
    · have hmoves := hr.moves
      rw [System.setMm_setMm] at hmoves
      refine .cons (.map h0.absent hpgd) ⟨_, (hin _).mpr (.inl rfl), rfl⟩
        (hmoves.mono fun a => ?_)
      rintro ⟨k, hk, rfl⟩
      exact ⟨k, (hin k).mpr (.inr hk), rfl⟩
    · simpa [hmmap] using hr.mmap
    · simpa [hsym] using hr.symrgtbl
    · by_cases hk' : InRange (pgn + (pgit + 1)) left k
      · exact hr.resident k hk'
      · obtain rfl := ((hin k).mp hk).resolve_right hk'
        rw [hr.keep _ hk', System.setMm_self, hpgd, Function.update_self]
        exact resident_pteSetFpn ..
    · rw [hin, not_or] at hk
      rw [hr.keep k hk.2, System.setMm_self, hpgd, Function.update_of_ne hk.1]

/-- What `vm_map_ram` does to the `n` pages from `base` on. -/
structure Mapping (p : ι) (base n : ℕ) (s : System ι) (r : ℤ × System ι) : Prop where
  moves : Moves p (fun a => a.Maps (InRange base n) ∧ (FramesEnough s p n → a.Good)) ⟨[], s⟩
    ⟨[], r.2⟩
  ok : ProcOk r.2 p
  mmap : (r.2.mm p).mmap = (s.mm p).mmap
  symrgtbl : (r.2.mm p).symrgtbl = (s.mm p).symrgtbl
  keep : ∀ pgn, ¬ InRange base n pgn →
    (Present ((r.2.mm p).pgd pgn) ↔ Present ((s.mm p).pgd pgn))
  status : (r.1 = 0 ∧ ∀ pgn, InRange base n pgn → Resident ((r.2.mm p).pgd pgn)) ∨
    (r.1 = -1 ∧ ∀ pgn, InRange base n pgn → ¬ Present ((r.2.mm p).pgd pgn))

theorem vmMapRam_moves (s : System ι) (p : ι) (mapstart : ℤ) (n : ℕ) (raw : List ℤ)
    (h : ProcOk s p) (hmap : ∀ k, InRange (pagingPgn mapstart) n k → Mappable (s.mm p) k) :
    Mapping p (pagingPgn mapstart) n s (vmMapRam s p mapstart n raw) := by
  have hg := allocPagesRange_moves p raw n [] s h
  unfold vmMapRam
  rw [Int.toNat_natCast]
  generalize allocPagesRange p raw n [] s = r at hg
  obtain ⟨retAlloc, frmLst, s'⟩ := r
  obtain ⟨hmoves, hok, hpages, hstatus⟩ := hg
  have hmoves' := hmoves.mono (Q := fun a =>
    a.Maps (InRange (pagingPgn mapstart) n) ∧ (FramesEnough s p n → a.Good))
    fun a ha => ⟨Act.maps_of_page ha.1 _, ha.2⟩
  simp only at hmoves' hok hpages hstatus ⊢
  obtain ⟨rfl, hlen⟩ | rfl := hstatus
  · rw [if_neg (by decide)] at hmoves' ⊢
    have hv := vmapLoop_moves p (pagingPgn mapstart) n 0 frmLst s' hok.mm (by simpa using hlen)
      fun k hk => by
        have hm := hmap k hk
        exact ⟨fun hp => hm.absent ((hpages.present k).mp hp),
          by rw [hpages.mmap]; exact hm.notFree, by rw [hpages.mmap]; exact hm.below⟩
    rw [Nat.add_zero] at hv
    rw [vmapPageRange]
    refine ⟨hmoves'.trans (hv.moves.mono ?_), ⟨?_, hok.slots⟩, ?_, ?_, fun k hk => ?_,
      .inl ⟨rfl, ?_⟩⟩
    · rintro a ⟨k, hk, rfl⟩
      exact ⟨hk, fun _ => trivial⟩
    · simpa using hv.inv
    · simpa [hpages.mmap] using hv.mmap
    · simpa [hpages.symrgtbl] using hv.symrgtbl
    · simp only [System.setMm_self]
      rw [hv.keep k hk]
      exact hpages.present k
    · simpa using hv.resident
  · rw [if_pos (by decide)] at hmoves' ⊢
    exact ⟨hmoves', hok, hpages.mmap, hpages.symrgtbl, fun k _ => hpages.present k,
      .inr ⟨rfl, fun k hk hp => (hmap k hk).absent ((hpages.present k).mp hp)⟩⟩

/-! ## Fetching a page -/

/-- The frames on the list of RAM have numbers that an entry can hold. -/
def FramesOk (s : System ι) : Prop := ∀ fpn ∈ s.mram.freeFpList, 0 ≤ fpn ∧ fpn < 8192

/-- What `pg_getpage` does for page `pgn`. -/
structure Fetched (p : ι) (pgn : ℕ) (s : System ι) (r : ℤ × ℤ × System ι) : Prop where
  moves : Moves p (fun a => a.page = none ∧ a.Good) ⟨[], s⟩ ⟨[], r.2.2⟩
  ok : ProcOk r.2.2 p
  pages : SamePages (s.mm p) (r.2.2.mm p)
  tlb : r.2.2.tlb = s.tlb
  status : (r.1 = 0 ∧ Resident ((r.2.2.mm p).pgd pgn) ∧
    r.2.1 % 8192 = pteFpn ((r.2.2.mm p).pgd pgn)) ∨ r.1 = -1
  frames : FramesOk s → FramesOk r.2.2 ∧ (r.1 = 0 → 0 ≤ r.2.1 ∧ r.2.1 < 8192)

theorem pgGetpage_moves {s : System ι} {p : ι} (h : ProcOk s p) (pgn : ℕ) :
    Fetched p pgn s (pgGetpage s p pgn) := by
  obtain ⟨-, hr⟩ | ⟨hres, hr⟩ | ⟨-, -, -, hr⟩ | ⟨hp, hsw, fpn, rest, hl, -, hr⟩ :=
    pgGetpage_cases s p pgn <;> rw [hr]
  · exact ⟨.refl _, h, .rfl' _, rfl, .inr rfl, fun hf => ⟨hf, by simp⟩⟩
  · have hlt := pteFpn_lt ((s.mm p).pgd pgn)
    have hge := pteFpn_nonneg ((s.mm p).pgd pgn)
    exact ⟨.refl _, h, .rfl' _, rfl, .inl ⟨rfl, hres, Int.emod_eq_of_lt hge hlt⟩,
      fun hf => ⟨hf, fun _ => ⟨hge, hlt⟩⟩⟩
  · refine ⟨.single (.space rfl) ⟨rfl, trivial⟩, ⟨?_, h.slots⟩, ?_, rfl, .inr rfl,
      fun hf => ⟨hf, by simp⟩⟩
    · simpa using h.mm.dropVictim
    · simp only [System.setFifo_self]
      exact ⟨rfl, rfl, fun _ => Iff.rfl⟩
  · have hmm := swapIn_mm (s.setFrames rest) p pgn (pteSwptyp ((s.mm p).pgd pgn))
      (pagingSwp ((s.mm p).pgd pgn)) fpn
    have hslots := swapIn_slots (s.setFrames rest) p pgn (pteSwptyp ((s.mm p).pgd pgn))
      (pagingSwp ((s.mm p).pgd pgn)) fpn
    have hframes := swapIn_frames (s.setFrames rest) p pgn (pteSwptyp ((s.mm p).pgd pgn))
      (pagingSwp ((s.mm p).pgd pgn)) fpn
    refine ⟨.single (.swapIn hp hsw hl) ⟨rfl, trivial⟩, ⟨?_, fun x hx => ?_⟩, ?_,
      swapIn_tlb .., .inl ⟨rfl, ?_, ?_⟩, fun hf => ⟨fun x hx => hf x ?_, fun _ => hf fpn ?_⟩⟩
    · rw [hmm]
      exact h.mm.swapInPage hp hsw fpn
    · rw [hslots, System.setFrames_mswp] at hx
      have h0 : 0 ≤ pagingSwp ((s.mm p).pgd pgn) := by
        unfold pagingSwp
        omega
      split_ifs at hx with hd
      · rcases List.mem_cons.mp hx with rfl | hx
        · exact h0
        · exact h.slots x hx
      · exact h.slots x hx
    · rw [hmm]
      exact .update hp (present_pteSetFpn _ fpn) _
    · rw [hmm, mmSwappedIn]
      simp
    · rw [hmm, mmSwappedIn]
      simp [fpn_pteSetFpn_mod]
    · rw [hframes] at hx
      rw [hl]
      exact List.mem_cons_of_mem _ hx
    · rw [hl]
      exact List.mem_cons_self

/-! ## Releasing pages -/

/-- What the loop of `__free` does to the `n` pages from `base` on. -/
structure Released (p : ι) (base n : ℕ) (s : System ι) (r : ℤ × System ι) : Prop where
  moves : Moves p (fun a => a.Releases (InRange base n) ∧ (FramesOk s → a.Good)) ⟨[], s⟩
    ⟨[], r.2⟩
  ok : ProcOk r.2 p
  mmap : (r.2.mm p).mmap = (s.mm p).mmap
  symrgtbl : (r.2.mm p).symrgtbl = (s.mm p).symrgtbl
  keep : ∀ pgn, ¬ InRange base n pgn →
    (Present ((r.2.mm p).pgd pgn) ↔ Present ((s.mm p).pgd pgn))
  absent : ∀ pgn, ¬ Present ((s.mm p).pgd pgn) → ¬ Present ((r.2.mm p).pgd pgn)
  status : (r.1 = 0 ∧ ∀ pgn, InRange base n pgn → ¬ Present ((r.2.mm p).pgd pgn)) ∨ r.1 = -1

theorem freeLoop_moves (p : ι) (left pgn : ℕ) (s : System ι) (h : ProcOk s p)
    (hunc : ∀ k, InRange pgn left k → Uncached s p k) :
    Released p pgn left s (freeLoop p left pgn s) := by
  induction left generalizing pgn s with
  | zero =>
    exact ⟨.refl _, h, rfl, rfl, fun _ _ => Iff.rfl, fun _ hp => hp,
      .inl ⟨rfl, fun k hk => absurd hk.2 (by have := hk.1; omega)⟩⟩
  | succ left ih =>
    have hf := pgGetpage_moves h pgn
    unfold freeLoop
    generalize pgGetpage s p pgn = r at hf
    obtain ⟨ret, fpn, s1⟩ := r
    obtain ⟨hmoves, hok, hpages, htlb, hstatus, hframes⟩ := hf
    have hmoves' := hmoves.mono (Q := fun a =>
      a.Releases (InRange pgn (left + 1)) ∧ (FramesOk s → a.Good))
      fun a ha => ⟨Act.releases_of_page ha.1 _, fun _ => ha.2⟩
    simp only at hmoves' hok hpages htlb hstatus hframes ⊢
    obtain ⟨rfl, hres, hmod⟩ | rfl := hstatus
    · rw [if_neg (by decide)]
      have hpid : s1.pid = s.pid := hmoves.frame.pid
      have hcached : ∀ k, InRange pgn (left + 1) k → Uncached s1 p k := by
        intro k hk
        have := hunc k hk
        unfold Uncached System.pidInt at this ⊢
        rwa [htlb, hpid]
      have hrel : Move p _ ⟨[], s1⟩ _ := .release hres hmod (hcached pgn ⟨le_rfl, by omega⟩)
      generalize hs2 : ({ s1 with mram := memphyPutFreefp s1.mram fpn }.setPte p pgn
        (clrbit ((s1.mm p).pgd pgn) presentMask)) = s2 at hrel
      have hmm : (s2.setFifo p (clearPgnNode (s2.mm p).fifoPgn pgn)).mm p = { s1.mm p with
          pgd := Function.update (s1.mm p).pgd pgn (clrbit ((s1.mm p).pgd pgn) presentMask)
          fifoPgn := clearPgnNode (s1.mm p).fifoPgn pgn } := by
        rw [System.setFifo_self, ← hs2, System.setPte_self]
      have hspace : Move p .space ⟨[], s2⟩
        ⟨[], s2.setFifo p (clearPgnNode (s2.mm p).fifoPgn pgn)⟩ := .space rfl
      have hstep : Moves p (fun a =>
          a.Releases (InRange pgn (left + 1)) ∧ (FramesOk s → a.Good)) ⟨[], s⟩
          ⟨[], s2.setFifo p (clearPgnNode (s2.mm p).fifoPgn pgn)⟩ := by
        refine hmoves'.trans (.cons hrel ⟨?_, fun hf => (hframes hf).2 rfl⟩
          (.single hspace ⟨trivial, fun _ => trivial⟩))
        exact ⟨le_rfl, by omega⟩
      have hs3 : ProcOk (s2.setFifo p (clearPgnNode (s2.mm p).fifoPgn pgn)) p ∧
          (FramesOk s → FramesOk (s2.setFifo p (clearPgnNode (s2.mm p).fifoPgn pgn))) ∧
          (s2.setFifo p (clearPgnNode (s2.mm p).fifoPgn pgn)).tlb = s1.tlb ∧
          (s2.setFifo p (clearPgnNode (s2.mm p).fifoPgn pgn)).pid = s1.pid := by
        refine ⟨⟨hmm ▸ hok.mm.releasePage pgn, fun x hx => hok.slots x ?_⟩, fun hf x hx => ?_,
          hs2 ▸ rfl, hs2 ▸ rfl⟩
        · rw [← hs2] at hx
          exact hx
        · rw [← hs2] at hx
          rcases List.mem_cons.mp hx with rfl | hx
          · exact (hframes hf).2 rfl
          · exact (hframes hf).1 x hx
      generalize s2.setFifo p (clearPgnNode (s2.mm p).fifoPgn pgn) = s3 at hmm hstep hs3
      obtain ⟨hok3, hframes3, htlb3, hpid3⟩ := hs3
      have hr := ih (pgn + 1) s3 hok3 fun k hk => by
        have := hcached k ⟨by have := hk.1; omega, by have := hk.2; omega⟩
        unfold Uncached System.pidInt at this ⊢
        rwa [htlb3, hpid3]
      have hin : ∀ k, InRange pgn (left + 1) k ↔ k = pgn ∨ InRange (pgn + 1) left k := by
        intro k
        unfold InRange
        omega
      have hpgn : ¬ Present ((s3.mm p).pgd pgn) := by
        rw [hmm]
        simp
      have hother : ∀ k, k ≠ pgn →
          (Present ((s3.mm p).pgd k) ↔ Present ((s.mm p).pgd k)) := by
        intro k hk
        rw [hmm]
        simp only [Function.update_of_ne hk]
        exact hpages.present k
      refine ⟨hstep.trans (hr.moves.mono fun a ha =>
          ⟨ha.1.mono fun k hk => (hin k).mpr (.inr hk), fun hf => ha.2 (hframes3 hf)⟩), hr.ok,
        ?_, ?_, fun k hk => ?_, fun k hk => ?_,
        hr.status.imp_left fun ⟨h1, h2⟩ => ⟨h1, fun k hk => ?_⟩⟩
      · rw [hr.mmap, hmm]
        exact hpages.mmap
      · rw [hr.symrgtbl, hmm]
        exact hpages.symrgtbl
      · rw [hin, not_or] at hk
        exact (hr.keep k hk.2).trans (hother k hk.1)
      · refine hr.absent k ?_
        by_cases e : k = pgn
        · exact e ▸ hpgn
        · exact fun hp => hk ((hother k e).mp hp)
      · obtain rfl | hk := (hin k).mp hk
        · exact hr.absent _ hpgn
        · exact h2 k hk
    · rw [if_pos (by decide)]
      exact ⟨hmoves', hok, hpages.mmap, hpages.symrgtbl, fun k _ => hpages.present k,
        fun k hk hp => hk ((hpages.present k).mp hp), .inr rfl⟩

end OsSim.Mem
