import OsSim.Mem.PlainRuns

/-!
# The pages of live regions

In runs in which no `ALLOC` loses track of a frame, every page of a live region is
in RAM or in swap. `ALLOC` maps the pages of the new region and takes no page away
from the others; `FREE` clears the region whose pages it has released, and a `FREE`
that fails does so at the first page, before it has released any.

All of this holds in either build. The plain build has no TLB, so its instructions
are sequences of moves but for the TLB (`MemMoves`).

Results:
* `buildRun_moves`: an instruction of either build as a sequence of moves.
* `free_fails`: what a failed `__free` has changed.
* `liveInv_of_run`: the invariant of the runs whose steps are `StepOk`.
-/

namespace OsSim.Mem

open BitField

variable {ι : Type*} [DecidableEq ι]

/-! ## Moves but for the TLB -/

/-- Moves that lead from one memory to the other, whatever is in the TLB. -/
def MemMoves (p : ι) (P : Act → Prop) (s s' : System ι) : Prop :=
  ∃ u v, Moves p P ⟨[], s.setTlb u⟩ ⟨[], s'.setTlb v⟩

section

variable {p q : ι} {P Q : Act → Prop} {s s' : System ι} {frames slots : ℤ}

theorem Moves.mem (h : Moves p P ⟨[], s⟩ ⟨[], s'⟩) : MemMoves p P s s' := ⟨s.tlb, s'.tlb, h⟩

theorem MemMoves.refl (p : ι) (P : Act → Prop) (s : System ι) : MemMoves p P s s :=
  Moves.mem (.refl _)

theorem MemMoves.mono (h : MemMoves p P s s') (hPQ : ∀ a, P a → Q a) : MemMoves p Q s s' := by
  obtain ⟨u, v, hm⟩ := h
  exact ⟨u, v, hm.mono hPQ⟩

theorem MemMoves.frame (h : MemMoves p P s s') : Frame p s s' := by
  obtain ⟨u, v, hm⟩ := h
  have hf := hm.frame
  exact ⟨hf.pid, hf.mm, hf.ramSize, hf.ramFlag, hf.swpSize, hf.swpFlag, hf.swpOther⟩

omit [DecidableEq ι] in
theorem Owned.setTlb (h : Owned frames slots ⟨[], s⟩) (tlb : Tlb) :
    Owned frames slots ⟨[], s.setTlb tlb⟩ :=
  ⟨⟨h.random.ram, h.random.swp⟩, h.exclusive, h.within⟩

theorem MemMoves.owned (h : MemMoves p P s s') (hg : ∀ a, P a → a.Good) (hframes : frames ≤ 8192)
    (ho : Owned frames slots ⟨[], s⟩) : Owned frames slots ⟨[], s'⟩ := by
  obtain ⟨u, v, hm⟩ := h
  exact (hm.owned hg hframes (ho.setTlb u)).setTlb s'.tlb

/-- Pages that are neither mapped nor released keep their contents. -/
theorem MemMoves.page_eq (h : MemMoves p P s s') (hg : ∀ a, P a → a.Good) (hframes : frames ≤ 8192)
    (ho : Owned frames slots ⟨[], s⟩) {k : ℕ} (hpage : q = p → ∀ a, P a → a.page ≠ some k) :
    s'.page q k = s.page q k := by
  obtain ⟨u, v, hm⟩ := h
  exact hm.view_eq hg hframes (ho.setTlb u) hpage

theorem present_of_update {pgd : ℕ → Pte} {pgn k : ℕ} {pte : Pte} (hpgn : Present (pgd pgn))
    (hp : Present (Function.update pgd pgn pte k)) : Present (pgd k) := by
  rw [Function.update_apply] at hp
  split_ifs at hp with e
  · exact e ▸ hpgn
  · exact hp

/-- A page that is present after a move was present before, or a frame was held for it. -/
theorem Move.present_of {a : Act} {w w' : Work ι} {k : ℕ} (hm : Move p a w w')
    (hp : Present ((w'.sys.mm q).pgd k)) : Present ((w.sys.mm q).pgd k) ∨ w.held ≠ [] := by
  by_cases hq : q = p
  · subst hq
    cases hm with
    | map => exact .inr (by simp)
    | evict hres =>
      simp only [swapOut_mm] at hp
      exact .inl (present_of_update hres.1 hp)
    | swapIn hpres =>
      simp only [swapIn_mm, mmSwappedIn] at hp
      exact .inl (present_of_update hpres hp)
    | release hres =>
      simp only [System.setPte_self] at hp
      exact .inl (present_of_update hres.1 hp)
    | space hpgd =>
      rw [System.setMm_self, hpgd] at hp
      exact .inl hp
    | _ => exact .inl hp
  · rw [hm.frame.mm q hq] at hp
    exact .inl hp

/-- There are present pages only if RAM has a frame. -/
theorem MemMoves.frames_pos (h : MemMoves p P s s') (hg : ∀ a, P a → a.Good)
    (hframes : frames ≤ 8192) (ho : Owned frames slots ⟨[], s⟩)
    (hpos : ∀ q k, Present ((s.mm q).pgd k) → 0 < frames) (hp : ∃ q k, Present ((s'.mm q).pgd k)) :
    0 < frames := by
  obtain ⟨u, v, hm⟩ := h
  obtain ⟨q, k, hp⟩ := hp
  refine (hm.invariant (I := fun w => Owned frames slots w ∧
    ∀ q k, Present ((w.sys.mm q).pgd k) → 0 < frames) (fun a w w' ha hI hst => ?_)
    ⟨ho.setTlb u, hpos⟩).2 q k hp
  refine ⟨hst.owned (hg a ha) hframes hI.1, fun q k hp => ?_⟩
  obtain hp | hheld := hst.present_of hp
  · exact hI.2 q k hp
  · obtain ⟨fpn, rest, hheld⟩ := List.exists_cons_of_ne_nil hheld
    have hv : Loc.Valid frames slots (.ram fpn) :=
      hI.1.within.free _ (by simp [Work.store, hheld])
    exact lt_of_le_of_lt hv.1 hv.2

end

/-! ## Instructions of either build -/

section

variable {s s' : System ι} {p : ι} {ins : Inst} {raw : List ℤ} {o : Outcome} {b : Build}

/-- `__free` as moves. -/
theorem free_freed (h : ProcOk s p) (r : Fin pagingMaxSymtblSz) :
    ∃ tlb, Freed p r (s.setTlb tlb) ((free s p r).1, (free s p r).2.setTlb tlb) := by
  have hf := free_moves (s := s.setTlb ⟨[], s.tlb.rand⟩) (p := p) ⟨h.mm, h.slots⟩ r
    fun _ _ e he => absurd he List.not_mem_nil
  rw [free_setTlb] at hf
  exact ⟨_, hf⟩

/-- What an instruction of either build does: moves, and for a `WRITE` a store to RAM. -/
structure BuildRan (p : ι) (ins : Inst) (s s' : System ι) : Prop where
  intro ::
  mid : ∃ t, MemMoves p (fun a => FramesOk s → SlotsOk s p ins → a.Good) s t ∧ ProcOk t p ∧
    (s' = t ∨ ∃ addr data, s' = t.store addr data)

theorem runPaging_moves (h : ProcOk s p) (hsize : SizeOk s p ins)
    (hrun : runPaging s p ins raw = .ok (o, s')) : BuildRan p ins s s' := by
  have hsame : BuildRan p ins s s := ⟨s, .refl _ _ _, h, .inl rfl⟩
  cases executedPaging_of_run hrun with
  | compute => exact hsame
  | @alloc r stat addr s' hop h0 halloc =>
    obtain ⟨hn1, hn, hbrk⟩ := hsize hop
    rw [argInt_eq (by omega)] at halloc
    obtain ⟨res, heq, ha⟩ := alloc_moves h r hn1 hn hbrk raw
    rw [heq] at halloc
    cases halloc
    exact ⟨_, (ha.moves.mono fun a ha _ hs => ha.2 (hs hop)).mem, ha.ok, .inl rfl⟩
  | @free r hop =>
    obtain ⟨tlb, hf⟩ := free_freed h r
    exact ⟨_, ⟨tlb, tlb, hf.moves.mono fun a ha hfr _ => ha.2 hfr⟩, ⟨hf.ok.mm, hf.ok.slots⟩,
      .inl rfl⟩
  | @read r ret data s' hop hr hlive hin hget =>
    have hf := pgGetpage_moves h (pagingPgn (rgAddr ((s.mm p).symrgtbl r) ins.arg1))
    unfold pgGetval at hget
    generalize pgGetpage s p _ = res at hf hget
    obtain ⟨ret', fpn, t⟩ := res
    simp only at hget
    split_ifs at hget <;> cases hget <;>
      exact ⟨_, (hf.moves.mono fun a ha _ _ => ha.2).mem, hf.ok, .inl rfl⟩
  | @write r ret s' hop hr hin hset =>
    have hf := pgGetpage_moves h (pagingPgn (rgAddr ((s.mm p).symrgtbl r) ins.arg2))
    unfold pgSetval at hset
    generalize pgGetpage s p _ = res at hf hset
    obtain ⟨ret', fpn, t⟩ := res
    simp only at hset
    split_ifs at hset <;> cases hset
    · exact ⟨_, (hf.moves.mono fun a ha _ _ => ha.2).mem, hf.ok, .inl rfl⟩
    · exact ⟨_, (hf.moves.mono fun a ha _ _ => ha.2).mem, hf.ok, .inr ⟨_, _, rfl⟩⟩
  | refused => exact hsame

theorem buildRun_moves (h : ProcOk s p) (hu : b = .cpuTlb → TlbUnique s.tlb)
    (hsize : SizeOk s p ins) (hrun : b.run s p ins raw = .ok (o, s')) : BuildRan p ins s s' := by
  cases b with
  | cpuTlb =>
    obtain ⟨t, hm, hok, ht⟩ := (run_moves h (hu rfl) hsize hrun).mid
    exact ⟨t, hm.mem, hok, ht⟩
  | mmPaging => exact runPaging_moves h hsize hrun

end

/-! ## A failed `__free` -/

section

variable {s : System ι} {p : ι}

/-- The loop of `__free` over present pages fails only at the first one, which is in swap while no
frame is free. -/
theorem freeLoop_fails {left pgn : ℕ} (hsz : 0 < s.mram.maxsz)
    (hp : ∀ k, InRange pgn left k → Present ((s.mm p).pgd k))
    (hfail : (freeLoop p left pgn s).1 ≠ 0) :
    (freeLoop p left pgn s).2 = s.setFifo p (s.mm p).fifoPgn.dropLast := by
  obtain ⟨h0, -⟩ | ⟨-, hno⟩ := freeLoop_status p left pgn s
  · exact absurd h0 hfail
  cases left with
  | zero => exact absurd rfl hfail
  | succ left =>
    have hacc : ¬ Accessible s p pgn := fun hacc => hno ((freeable_succ_iff s p pgn left).mpr
      ⟨hacc, fun k hk => hp k ⟨by have := hk.1; omega, by have := hk.2; omega⟩, .inr hsz⟩)
    have hpgn : Present ((s.mm p).pgd pgn) := hp pgn ⟨le_rfl, by omega⟩
    unfold freeLoop
    obtain ⟨habs, -⟩ | ⟨hres, -⟩ | ⟨-, -, -, hr⟩ | ⟨-, hsw, fpn, rest, -, hav, -⟩ :=
      pgGetpage_cases s p pgn
    · exact absurd hpgn habs
    · exact absurd (.inl hres) hacc
    · rw [hr]
      rfl
    · exact absurd (.inr ⟨hpgn, hsw, by simp [hav]⟩) hacc

/-- A failed `__free` of a region whose pages are present has changed nothing but the FIFO list. -/
theorem free_fails (h : MmInv (s.mm p)) (hsz : 0 < s.mram.maxsz) {r : Fin pagingMaxSymtblSz}
    (hp : ∀ k, ((s.mm p).symrgtbl r).HasPage k → Present ((s.mm p).pgd k))
    (hfail : (free s p r).1 ≠ 0) :
    (free s p r).2 = s ∨ (free s p r).2 = s.setFifo p (s.mm p).fifoPgn.dropLast := by
  have hrange := (h.live r).inRange_iff h.bound
  unfold free at hfail ⊢
  by_cases h0 : ((s.mm p).symrgtbl r).rgEnd = 0
  · simp only [h0, if_true]
    exact .inl trivial
  · have hloop := freeLoop_fails hsz fun k hk => hp k ((hrange k).mp hk)
    simp only [h0, if_false] at hfail ⊢
    generalize freeLoop p _ _ s = res at hfail hloop
    obtain ⟨ret, t⟩ := res
    simp only at hfail hloop ⊢
    split_ifs at hfail ⊢ with hret
    · exact .inr (hloop hret)
    · exact absurd rfl hfail

end

/-! ## The pages of live regions -/

/-- Every page of a live region is in RAM or in swap. -/
def Mm.LivePresent (mm : Mm) : Prop :=
  ∀ r pgn, (mm.symrgtbl r).HasPage pgn → Present (mm.pgd pgn)

section

variable {mm mm' : Mm}

theorem Mm.LivePresent.congr (h : mm.LivePresent) (hsym : mm'.symrgtbl = mm.symrgtbl)
    (hp : ∀ pgn, Present (mm.pgd pgn) → Present (mm'.pgd pgn)) : mm'.LivePresent :=
  fun r pgn hr => hp pgn (h r pgn (hsym ▸ hr))

theorem SamePages.livePresent (hs : SamePages mm mm') (h : mm.LivePresent) : mm'.LivePresent :=
  h.congr hs.symrgtbl fun pgn hp => (hs.present pgn).mpr hp

/-- A region of the table is replaced by one whose pages are present. -/
theorem Mm.LivePresent.update (h : mm.LivePresent) {r : Fin pagingMaxSymtblSz} {rg : VmRg}
    (hsym : mm'.symrgtbl = Function.update mm.symrgtbl r rg)
    (hp : ∀ r' pgn, r' ≠ r → (mm.symrgtbl r').HasPage pgn → Present (mm.pgd pgn) →
      Present (mm'.pgd pgn))
    (hrg : ∀ pgn, rg.HasPage pgn → Present (mm'.pgd pgn)) : mm'.LivePresent := by
  intro r' pgn hr'
  rw [hsym, Function.update_apply] at hr'
  split_ifs at hr' with e
  · exact hrg pgn hr'
  · exact hp r' pgn e hr' (h r' pgn hr')

theorem AllocEnd.livePresent {n : ℕ} {r : Fin pagingMaxSymtblSz} {stat addr : ℤ}
    (ha : AllocEnd n r mm stat addr mm')
    (hp : ∀ pgn, Present (mm.pgd pgn) → Present (mm'.pgd pgn)) (h : mm.LivePresent) :
    mm'.LivePresent := by
  cases ha with
  | mapped rg _ _ hsym _ _ hpages =>
    exact h.update hsym (fun _ pgn _ _ => hp pgn) fun pgn hr => (hpages pgn hr).2.1
  | failed _ hsym =>
    obtain hsym | hsym := hsym
    · exact h.congr hsym hp
    · exact h.update hsym (fun _ pgn _ _ => hp pgn) fun pgn hr =>
        absurd hr (VmRg.not_hasPage_cleared pgn)

end

section

variable {s s' : System ι} {p : ι} {ins : Inst} {raw : List ℤ} {o : Outcome} {b : Build}

theorem livePresent_free (h : ProcOk s p) (hl : (s.mm p).LivePresent)
    (hram : ∀ k, Present ((s.mm p).pgd k) → 0 < s.mram.maxsz) (r : Fin pagingMaxSymtblSz) :
    ((free s p r).2.mm p).LivePresent := by
  obtain ⟨tlb, hf⟩ := free_freed h r
  have hsub : ∀ r' pgn, r' ≠ r → ((s.mm p).symrgtbl r').HasPage pgn →
      Present ((s.mm p).pgd pgn) → Present (((free s p r).2.mm p).pgd pgn) :=
    fun r' pgn hne hr' hp => (hf.keep pgn (h.mm.live_apart r' r hne pgn hr')).mpr hp
  by_cases h0 : (free s p r).1 = 0
  · obtain ⟨hneg, -⟩ | ⟨-, hpaged⟩ := free_space s p r
    · rw [h0] at hneg
      cases hneg
    · have hsym := hpaged.space.symrgtbl
      rw [System.setMm_self] at hsym
      exact hl.update hsym hsub fun pgn hr => absurd hr (VmRg.not_hasPage_cleared pgn)
  · by_cases hex : ∃ k, ((s.mm p).symrgtbl r).HasPage k
    · obtain ⟨k, hk⟩ := hex
      obtain heq | heq := free_fails h.mm (hram k (hl r k hk)) (hl r) h0 <;> rw [heq]
      · exact hl
      · rw [System.setFifo_self]
        exact hl
    · -- a region without pages
      rw [not_exists] at hex
      obtain hsym | hsym := hf.symrgtbl
      · intro r' pgn hr'
        rw [System.setTlb_mm, System.setTlb_mm] at hsym
        rw [hsym] at hr'
        exact (hf.keep pgn fun hr => hex pgn hr).mpr (hl r' pgn hr')
      · exact hl.update hsym hsub fun pgn hr => absurd hr (VmRg.not_hasPage_cleared pgn)

/-- What an instruction does to the `mm_struct` of its process. -/
inductive MmStep (s : System ι) (p : ι) (mm : Mm) : Prop
  | pages : SamePages (s.mm p) mm → MmStep s p mm
  | alloc {n : ℕ} {r : Fin pagingMaxSymtblSz} {stat addr : ℤ} : 1 ≤ n →
      AllocEnd n r (s.mm p) stat addr mm →
      (∀ pgn, Present ((s.mm p).pgd pgn) → Present (mm.pgd pgn)) → MmStep s p mm
  | free (r : Fin pagingMaxSymtblSz) : mm = (free s p r).2.mm p → MmStep s p mm

theorem run_mmStep (h : ProcOk s p) (hsize : SizeOk s p ins)
    (hrun : run s p ins raw = .ok (o, s')) : MmStep s p (s'.mm p) := by
  have hsame : MmStep s p (s.mm p) := .pages (.rfl' _)
  have haccess : ∀ {rgid offset : BitVec 32} {t : System ι}, Accessed s p rgid offset t →
      MmStep s p (t.mm p) := by
    intro rgid offset t ha
    obtain ⟨pgn, hpgn, rfl⟩ := ha.exists_page
    exact .pages (tlbFrame_moves h hpgn).pages
  cases executed_of_run hrun with
  | compute => exact hsame
  | alloc hop hid _ hr =>
    obtain ⟨hn1, hn, hbrk⟩ := hsize hop
    obtain ⟨res, heq, ha⟩ := tlballoc_moves h hid hn1 hn hbrk raw
    rw [heq] at hr
    cases hr
    obtain ⟨addr, hend⟩ := ha.ending
    exact .alloc hn1 hend ha.present
  | free hop hr =>
    obtain he | hid := lt_of_tlbfreeData hr
    · cases he
      exact hsame
    · obtain ⟨tlb, heq⟩ := tlbfreeData_free s p hid
      rw [heq] at hr
      cases hr
      exact .free _ rfl
  | read hop hr =>
    obtain rfl | ha := tlbread_state hr
    · exact hsame
    · exact haccess ha
  | write hop hr =>
    obtain rfl | ⟨t, ha, rfl | ⟨addr, rfl⟩⟩ := tlbwrite_state hr
    · exact hsame
    · exact haccess ha
    · have hstep := haccess ha
      exact hstep

theorem runPaging_mmStep (h : ProcOk s p) (hsize : SizeOk s p ins)
    (hrun : runPaging s p ins raw = .ok (o, s')) : MmStep s p (s'.mm p) := by
  have hsame : MmStep s p (s.mm p) := .pages (.rfl' _)
  have hget : ∀ pgn, MmStep s p ((pgGetpage s p pgn).2.2.mm p) :=
    fun pgn => .pages (pgGetpage_moves h pgn).pages
  cases executedPaging_of_run hrun with
  | compute => exact hsame
  | @alloc r stat addr s' hop h0 halloc =>
    obtain ⟨hn1, hn, hbrk⟩ := hsize hop
    rw [argInt_eq (by omega)] at halloc
    obtain ⟨res, heq, ha⟩ := alloc_moves h r hn1 hn hbrk raw
    rw [heq] at halloc
    cases halloc
    exact .alloc hn1 ha.ending ha.present
  | @free r => exact .free r rfl
  | @read r ret data s' hop hr hlive hin hval =>
    have hstep := hget (pagingPgn (rgAddr ((s.mm p).symrgtbl r) ins.arg1))
    unfold pgGetval at hval
    simp only at hval
    split_ifs at hval <;> cases hval <;> exact hstep
  | @write r ret s' hop hr hin hval =>
    have hstep := hget (pagingPgn (rgAddr ((s.mm p).symrgtbl r) ins.arg2))
    unfold pgSetval at hval
    simp only at hval
    split_ifs at hval <;> cases hval <;> exact hstep
  | refused => exact hsame

theorem buildRun_mmStep (h : ProcOk s p) (hsize : SizeOk s p ins)
    (hrun : b.run s p ins raw = .ok (o, s')) : MmStep s p (s'.mm p) := by
  cases b with
  | cpuTlb => exact run_mmStep h hsize hrun
  | mmPaging => exact runPaging_mmStep h hsize hrun

theorem MmStep.livePresent {mm : Mm} (hst : MmStep s p mm) (h : ProcOk s p)
    (hl : (s.mm p).LivePresent) (hram : ∀ k, Present ((s.mm p).pgd k) → 0 < s.mram.maxsz) :
    mm.LivePresent := by
  cases hst with
  | pages hs => exact hs.livePresent hl
  | alloc _ hend hp => exact hend.livePresent hp hl
  | free r heq => exact heq ▸ livePresent_free h hl hram r

end

/-! ## Runs -/

/-- The invariant of the runs whose steps are `StepOk`, in either build. -/
structure LiveInv (c : Config ι) (s : System ι) : Prop where
  proc : ∀ p, ProcOk s p
  owned : Owned (numfp c.ramSz) (numfp (c.swpSz 0)) ⟨[], s⟩
  ramSize : s.mram.maxsz = c.ramSz
  swpSize : (s.mswp 0).maxsz = c.swpSz 0
  frames : ∀ p k, Present ((s.mm p).pgd k) → 0 < numfp c.ramSz
  live : ∀ p, (s.mm p).LivePresent

section

variable {c : Config ι} {s s' : System ι} {p : ι} {ins : Inst} {raw : List ℤ} {o : Outcome}
  {b : Build}

omit [DecidableEq ι] in
theorem LiveInv.init (c : Config ι) : LiveInv c c.init where
  proc := (RunInv.init c).proc
  owned := (OwnedInv.init c).owned
  ramSize := (OwnedInv.init c).ramSize
  swpSize := (OwnedInv.init c).swpSize
  frames _ _ hp := absurd hp not_present_zero
  live _ _ pgn hr := absurd hr (VmRg.not_hasPage_cleared pgn)

omit [DecidableEq ι] in
/-- RAM has a frame as soon as there is a page. -/
theorem LiveInv.ram (h : LiveInv c s) {k : ℕ} (hp : Present ((s.mm p).pgd k)) :
    0 < s.mram.maxsz := by
  rw [h.ramSize]
  exact maxsz_pos_of_numfp (h.frames p k hp)

/-- One instruction. -/
theorem LiveInv.step (hram : numfp c.ramSz ≤ 8192) (h : LiveInv c s)
    (hu : b = .cpuTlb → TlbUnique s.tlb) (hsize : SizeOk s p ins) (hslots : SlotsOk s p ins)
    (hrun : b.run s p ins raw = .ok (o, s')) : LiveInv c s' := by
  have hlive : (s'.mm p).LivePresent :=
    (buildRun_mmStep (h.proc p) hsize hrun).livePresent (h.proc p) (h.live p) fun k => h.ram
  obtain ⟨t, hm, hok, ht⟩ := (buildRun_moves (h.proc p) hu hsize hrun).mid
  have hgood := fun (a : Act) (ha : FramesOk s → SlotsOk s p ins → a.Good) =>
    ha (h.owned.framesOk hram) hslots
  have hframe := hm.frame
  have howned := hm.owned hgood hram h.owned
  have hpos := fun q k hp => hm.frames_pos hgood hram h.owned h.frames ⟨q, k, hp⟩
  have hmm : ∀ q, s'.mm q = t.mm q := fun q => by
    obtain rfl | ⟨addr, data, rfl⟩ := ht <;> rfl
  have hother : ∀ q, q ≠ p → s'.mm q = s.mm q := fun q hq => (hmm q).trans (hframe.mm q hq)
  have hslot : s'.mswp = t.mswp := by
    obtain rfl | ⟨addr, data, rfl⟩ := ht <;> rfl
  refine ⟨fun q => ⟨?_, fun x hx => hok.slots x (hslot ▸ hx)⟩, ?_, ?_, ?_, fun q k hp => ?_,
    fun q => ?_⟩
  · by_cases hq : q = p
    · rw [hq, hmm]
      exact hok.mm
    · rw [hother q hq]
      exact (h.proc q).mm
  · obtain rfl | ⟨addr, data, rfl⟩ := ht
    · exact howned
    · exact howned.store addr data
  · obtain rfl | ⟨addr, data, rfl⟩ := ht
    · exact hframe.ramSize.trans h.ramSize
    · exact ((Frame.store p t addr data).ramSize.trans hframe.ramSize).trans h.ramSize
  · rw [hslot]
    exact hframe.swpSize.trans h.swpSize
  · rw [hmm] at hp
    exact hpos q k hp
  · by_cases hq : q = p
    · exact hq ▸ hlive
    · rw [hother q hq]
      exact h.live q

/-- In either build, the pages of live regions are present in every run whose steps are `StepOk`.
In the build with a TLB, the TLB is coherent. -/
theorem liveInv_of_run (hram : numfp c.ramSz ≤ 8192) {tr : List (Label ι)}
    (h : ((buildLts b c).guard StepOk).Run tr s) :
    LiveInv c s ∧ (b = .cpuTlb → OwnedInv c s) := by
  refine h.invariant (I := fun s => LiveInv c s ∧ (b = .cpuTlb → OwnedInv c s)) (fun s h0 => ?_)
    fun s a s' hi hst => ?_
  · rw [show s = c.init from h0]
    exact ⟨.init c, fun _ => .init c⟩
  · refine ⟨hi.1.step hram (fun hb => (hi.2 hb).base.tlb.unique) hst.2.1 hst.2.2 hst.1, ?_⟩
    rintro rfl
    exact (hi.2 rfl).step hram hst.2.1 hst.2.2 hst.1

end

end OsSim.Mem
