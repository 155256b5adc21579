import OsSim.Mem.Ownership

/-!
# No frame is lost

The whole simulation as the memory sees it: processes execute the instructions
of their code, one whole instruction at a time and in any order, and when a
process is at the end of its code `cpu_routine` frees its `pcb_t`
(`src/os.c`, lines 73–81). Nothing gives its frames back.

Results:
* `noneLost_of_run`: no frame and no slot is lost in the runs in which no
  `ALLOC` loses track of a frame and processes have freed their pages before
  they finish.
* `not_noneLost_finish`: a process that finishes with a page.
-/

namespace OsSim.Mem

open Placement Placement.Store

variable {ι : Type*} [DecidableEq ι]

/-! ## The simulation -/

/-- The memory, and how far each process is. -/
structure Sim (ι : Type*) where
  sys : System ι
  pc : ι → ℕ
  finished : ι → Bool

/-- An instruction, or the end of a process. -/
inductive SimLabel (ι : Type*) where
  | exec (a : Label ι)
  | finish (p : ι)

/-- The steps of the simulation. -/
inductive SimStep (code : ι → List Inst) : Sim ι → SimLabel ι → Sim ι → Prop
  | exec {s : Sim ι} {a : Label ι} {sys : System ι} : s.finished a.proc = false →
      (code a.proc)[s.pc a.proc]? = some a.ins →
      run s.sys a.proc a.ins a.raw = .ok (a.out, sys) →
      SimStep code s (.exec a)
        ⟨sys, Function.update s.pc a.proc (s.pc a.proc + 1), s.finished⟩
  | finish {s : Sim ι} {p : ι} : s.finished p = false → s.pc p = (code p).length →
      SimStep code s (.finish p) { s with finished := Function.update s.finished p true }

/-- The simulation of the processes with the given code. -/
def simLts (c : Config ι) (code : ι → List Inst) : Lts (Sim ι) (SimLabel ι) where
  init s := s = ⟨c.init, fun _ => 0, fun _ => false⟩
  step := SimStep code

/-- Every frame and every slot is on a free list or belongs to a page of a process that has not
finished. -/
structure NoneLost (s : Sim ι) : Prop where
  frame : ∀ fpn, 0 ≤ fpn → fpn < numfp s.sys.mram.maxsz → fpn ∈ s.sys.mram.freeFpList ∨
    ∃ p pgn, s.finished p = false ∧ Resident ((s.sys.mm p).pgd pgn) ∧
      pteFpn ((s.sys.mm p).pgd pgn) = fpn
  slot : ∀ d off, 0 ≤ off → off < numfp (s.sys.mswp d).maxsz → off ∈ (s.sys.mswp d).freeFpList ∨
    ∃ p pgn, s.finished p = false ∧ Present ((s.sys.mm p).pgd pgn) ∧
      Swapped ((s.sys.mm p).pgd pgn) ∧ pteSwptyp ((s.sys.mm p).pgd pgn) = d ∧
      pagingSwp ((s.sys.mm p).pgd pgn) = off

/-! ## The invariant -/

/-- An `ALLOC` is `StepOk`; a process that finishes has no page left. -/
def SimOk (s : Sim ι) (l : SimLabel ι) (_ : Sim ι) : Prop :=
  match l with
  | .exec a => StepOk s.sys a s.sys
  | .finish p => ∀ pgn, ¬ Present ((s.sys.mm p).pgd pgn)

/-- What the steps that are `SimOk` keep. -/
structure SimInv (c : Config ι) (s : Sim ι) : Prop where
  owned : OwnedInv c s.sys
  covers : Covers (Loc.Valid (numfp c.ramSz) (numfp (c.swpSz 0))) (Work.mk [] s.sys).store
  finished : ∀ p, s.finished p = true → ∀ pgn, ¬ Present ((s.sys.mm p).pgd pgn)
  swpOther : ∀ d, d ≠ 0 → s.sys.mswp d = c.init.mswp d

omit [DecidableEq ι] in
theorem SimInv.init (c : Config ι) : SimInv c ⟨c.init, fun _ => 0, fun _ => false⟩ where
  owned := .init c
  covers := by
    rintro (fpn | ⟨d, off⟩) hv
    · left
      simp only [Work.store, List.nil_append, List.mem_append, List.mem_map]
      exact .inl ⟨fpn, mem_initMemphy.mpr hv, rfl⟩
    · left
      obtain ⟨rfl, hv⟩ := hv
      simp only [Work.store, List.mem_append, List.mem_map]
      exact .inr ⟨off, mem_initMemphy.mpr hv, rfl⟩
  finished _ h := by cases h
  swpOther _ _ := rfl

/-- Good moves lose no location. -/
theorem Moves.covers {p : ι} {P : Act → Prop} {w w' : Work ι} {frames slots : ℤ}
    (hm : Moves p P w w') (hg : ∀ a, P a → a.Good) (hframes : frames ≤ 8192)
    (h : Owned frames slots w) {V : Loc → Prop} (hc : Covers V w.store) : Covers V w'.store := by
  refine (hm.invariant (I := fun w => Owned frames slots w ∧ Covers V w.store)
    (fun a _ _ ha hI hst => ?_) ⟨h, hc⟩).2
  exact ⟨hst.owned (hg a ha) hframes hI.1, (hst.change (hg a ha) hframes hI.1).covers hI.2⟩

/-- Nor do they make one. -/
theorem Moves.within {p : ι} {P : Act → Prop} {w w' : Work ι} {frames slots : ℤ}
    (hm : Moves p P w w') (hg : ∀ a, P a → a.Good) (hframes : frames ≤ 8192)
    (h : Owned frames slots w) {V : Loc → Prop} (hw : Within V w.store) : Within V w'.store := by
  refine (hm.invariant (I := fun w => Owned frames slots w ∧ Within V w.store)
    (fun a _ _ ha hI hst => ?_) ⟨h, hw⟩).2
  exact ⟨hst.owned (hg a ha) hframes hI.1, (hst.change (hg a ha) hframes hI.1).within hI.2⟩

omit [DecidableEq ι] in
/-- A store moves nothing. -/
theorem covers_store {V : Loc → Prop} {s : System ι} (hc : Covers V (Work.mk [] s).store)
    (addr : ℤ) (data : Byte) : Covers V (Work.mk [] (s.store addr data)).store := by
  obtain ⟨st, c', hw⟩ := memphyWrite_fields s.mram addr data
  have hfree : (Work.mk [] (s.store addr data)).store.free = (Work.mk [] s).store.free := by
    simp only [Work.store, System.store, hw]
  intro l hl
  rw [hfree]
  exact hc l hl

theorem SimInv.step {c : Config ι} (hram : numfp c.ramSz ≤ 8192) {code : ι → List Inst}
    {s s' : Sim ι} {l : SimLabel ι} (h : SimInv c s) (hst : SimStep code s l s')
    (hok : SimOk s l s') : SimInv c s' := by
  cases hst with
  | @exec a sys hfin hins hrun =>
    obtain ⟨t, hm, -, ht⟩ :=
      (run_moves (h.owned.base.proc a.proc) h.owned.base.tlb.unique hok.1 hrun).mid
    have hframe : Frame a.proc s.sys t := hm.frame
    have hcov : Covers (Loc.Valid (numfp c.ramSz) (numfp (c.swpSz 0))) (Work.mk [] t).store :=
      hm.covers (fun x hx => hx (h.owned.owned.framesOk hram) hok.2) hram h.owned.owned h.covers
    have hsys : sys.mm = t.mm ∧ sys.mswp = t.mswp := by
      obtain rfl | ⟨addr, data, rfl⟩ := ht
      · exact ⟨rfl, rfl⟩
      · exact ⟨rfl, rfl⟩
    refine ⟨h.owned.step hram hok.1 hok.2 hrun, ?_, fun q hq pgn => ?_, fun d hd => ?_⟩
    · obtain rfl | ⟨addr, data, rfl⟩ := ht
      · exact hcov
      · exact covers_store hcov addr data
    · -- a process that has finished executes nothing
      have hne : q ≠ a.proc := by
        rintro rfl
        rw [hfin] at hq
        cases hq
      simp only [hsys.1, hframe.mm q hne]
      exact h.finished q hq pgn
    · simp only [hsys.2, hframe.swpOther d hd]
      exact h.swpOther d hd
  | @finish p hfin hpc =>
    refine ⟨h.owned, h.covers, fun q hq pgn => ?_, h.swpOther⟩
    by_cases hqp : q = p
    · exact hqp ▸ hok pgn
    · simp only [Function.update_of_ne hqp] at hq
      exact h.finished q hq pgn

omit [DecidableEq ι] in
theorem SimInv.noneLost {c : Config ι} {s : Sim ι} (h : SimInv c s) : NoneLost s := by
  have hfin : ∀ p pgn, Present ((s.sys.mm p).pgd pgn) → s.finished p = false := by
    intro p pgn hp
    by_contra hf
    exact h.finished p (by simpa using hf) pgn hp
  refine ⟨fun fpn h0 h1 => ?_, fun d off h0 h1 => ?_⟩
  · rw [h.owned.ramSize] at h1
    obtain hm | ⟨⟨p, pgn⟩, hl⟩ := h.covers (.ram fpn) ⟨h0, h1⟩
    · left
      simpa [Work.store] using hm
    · right
      simp only [Work.store, pteLoc] at hl
      split_ifs at hl with hp hsw
      · cases hl
      · cases hl
        exact ⟨p, pgn, hfin p pgn hp, ⟨hp, hsw⟩, rfl⟩
  · by_cases hd : d = 0
    · subst hd
      rw [h.owned.swpSize] at h1
      obtain hm | ⟨⟨p, pgn⟩, hl⟩ := h.covers (.slot 0 off) ⟨rfl, h0, h1⟩
      · left
        simpa [Work.store] using hm
      · right
        simp only [Work.store, pteLoc] at hl
        split_ifs at hl with hp hsw
        · obtain ⟨htyp, hoff⟩ : pteSwptyp ((s.sys.mm p).pgd pgn) = 0 ∧
              pagingSwp ((s.sys.mm p).pgd pgn) = off := by simpa using hl
          exact ⟨p, pgn, hfin p pgn hp, hp, hsw, htyp, hoff⟩
        · cases hl
    · -- the other devices are never used
      left
      rw [h.swpOther d hd] at h1 ⊢
      refine mem_initMemphy.mpr ⟨h0, ?_⟩
      simpa [Config.init] using h1

theorem simInv_of_run {c : Config ι} (hram : numfp c.ramSz ≤ 8192) {code : ι → List Inst}
    {tr : List (SimLabel ι)} {s : Sim ι} (h : ((simLts c code).guard SimOk).Run tr s) :
    SimInv c s := by
  refine h.invariant (fun s h0 => ?_) fun _ _ _ hi hst => hi.step hram hst.1 hst.2
  rw [show s = _ from h0]
  exact .init c

/-- In every run of the simulation in which each `ALLOC` keeps the break within `2^22` and finds
its frames without losing track of any, and each process that finishes has freed its pages, no
frame and no slot is lost. -/
theorem noneLost_of_run {c : Config ι} (hram : numfp c.ramSz ≤ 8192) {code : ι → List Inst}
    {tr : List (SimLabel ι)} {s : Sim ι} (h : ((simLts c code).guard SimOk).Run tr s) :
    NoneLost s :=
  (simInv_of_run hram h).noneLost

/-! ## Runs of the memory system -/

/-- A run of the memory system is a run of the simulation of processes whose code begins with the
instructions that they execute in it. -/
theorem simRun_of_run {c : Config ι} (code : ι → List Inst) {tr : List (Label ι)} {s : System ι}
    (h : ((memLts c).guard StepOk).Run tr s)
    (hcode : ∀ p, ((tr.filter fun a => a.proc = p).map Label.ins) <+: code p) :
    ((simLts c code).guard SimOk).Run (tr.map .exec)
      ⟨s, fun p => (tr.filter fun a => a.proc = p).length, fun _ => false⟩ := by
  refine h.history (I := fun tr s =>
    (∀ p, ((tr.filter fun a => a.proc = p).map Label.ins) <+: code p) →
    ((simLts c code).guard SimOk).Run (tr.map .exec)
      ⟨s, fun p => (tr.filter fun a => a.proc = p).length, fun _ => false⟩)
    (fun s h0 _ => ?_) (fun tr s a s' ih hst hcode => ?_) hcode
  · rw [show s = c.init from h0]
    exact .init rfl
  · have hpre := ih fun p => by
      refine List.IsPrefix.trans ?_ (hcode p)
      rw [List.filter_append, List.map_append]
      exact List.prefix_append ..
    rw [List.map_append]
    have hins : (code a.proc)[(tr.filter fun b => b.proc = a.proc).length]? = some a.ins := by
      obtain ⟨rest, hrest⟩ := hcode a.proc
      rw [← hrest]
      simp
    have hpc : (fun p => ((tr ++ [a]).filter fun b => b.proc = p).length) =
        Function.update (fun p => (tr.filter fun b => b.proc = p).length) a.proc
          ((tr.filter fun b => b.proc = a.proc).length + 1) := by
      funext p
      rw [Function.update_apply]
      split_ifs with hp
      · simp [hp]
      · simp [List.filter_append, Ne.symm hp]
    rw [hpc]
    exact hpre.step ⟨.exec rfl hins hst.1, hst.2⟩

/-- A process at the end of its code finishes. -/
theorem simRun_finish {c : Config ι} {code : ι → List Inst}
    {P : Sim ι → SimLabel ι → Sim ι → Prop} {tr : List (SimLabel ι)} {s : Sim ι}
    (h : ((simLts c code).guard P).Run tr s) {p : ι} (hfin : s.finished p = false)
    (hpc : s.pc p = (code p).length)
    (hP : P s (.finish p) { s with finished := Function.update s.finished p true }) :
    ((simLts c code).guard P).Run (tr ++ [.finish p])
      { s with finished := Function.update s.finished p true } :=
  h.step ⟨SimStep.finish hfin hpc, hP⟩

/-- A process that allocates a page, frees it and finishes. -/
theorem noneLost_freed : ∃ s,
    ((simLts (Config.two 512 256) (fun p => if p = 0 then [⟨.ALLOC, 256, 0, 0⟩, ⟨.FREE, 0, 0, 0⟩]
      else [])).guard SimOk).Run
      [.exec ⟨0, ⟨.ALLOC, 256, 0, 0⟩, [], ⟨0, none⟩⟩, .exec ⟨0, ⟨.FREE, 0, 0, 0⟩, [], ⟨0, none⟩⟩,
        .finish 0] s ∧ NoneLost s := by
  obtain ⟨s, hrun, htest⟩ := exists_run_of_runAll (Config.two 512 256) StepOk
    [⟨0, ⟨.ALLOC, 256, 0, 0⟩, [], ⟨0, none⟩⟩, ⟨0, ⟨.FREE, 0, 0, 0⟩, [], ⟨0, none⟩⟩]
    (fun s => decide ((s.mm 0).mmap.sbrk = 256 ∧ ¬ Present ((s.mm 0).pgd 0)))
    (by decide +kernel)
  obtain ⟨hbrk, habs⟩ := of_decide_eq_true htest
  have hmm := ((ownedInv_of_run (by decide) hrun).base.proc 0).mm
  have hgone : ∀ pgn, ¬ Present ((s.mm 0).pgd pgn) := by
    intro pgn
    by_cases hp : pgn = 0
    · exact hp ▸ habs
    · exact hmm.above_absent pgn (by rw [hbrk]; omega)
  have hsim := simRun_of_run (fun p => if p = 0 then
    [⟨.ALLOC, 256, 0, 0⟩, ⟨.FREE, 0, 0, 0⟩] else []) hrun (by decide)
  have hfin := simRun_finish (p := 0) hsim rfl rfl hgone
  exact ⟨_, hfin, noneLost_of_run (by decide) hfin⟩

/-- A process that allocates a page and finishes: its frame is lost. -/
theorem not_noneLost_finish : ∃ s,
    (simLts (Config.two 512 256) (fun p => if p = 0 then [⟨.ALLOC, 256, 0, 0⟩] else [])).Run
      [.exec ⟨0, ⟨.ALLOC, 256, 0, 0⟩, [], ⟨0, none⟩⟩, .finish 0] s ∧ ¬ NoneLost s := by
  obtain ⟨s, hrun, htest⟩ := exists_run_of_runAll (Config.two 512 256) StepOk
    [⟨0, ⟨.ALLOC, 256, 0, 0⟩, [], ⟨0, none⟩⟩]
    (fun s => decide ((s.mm 1).mmap.sbrk = 0 ∧ 0 ∉ s.mram.freeFpList ∧ s.mram.maxsz = 512))
    (by decide +kernel)
  obtain ⟨hbrk, hfree, hsz⟩ := of_decide_eq_true htest
  have hmm := ((ownedInv_of_run (by decide) hrun).base.proc 1).mm
  have hsim := (simRun_of_run (fun p => if p = 0 then [⟨.ALLOC, 256, 0, 0⟩] else []) hrun
    (by decide)).guard_mono fun _ _ _ _ => trivial
  refine ⟨_, (simRun_finish (P := fun _ _ _ => True) (p := 0) hsim rfl rfl trivial).of_guard,
    fun h => ?_⟩
  obtain hf | ⟨p, pgn, hp, hres, -⟩ := h.frame 0 le_rfl (by
    rw [show numfp s.mram.maxsz = 2 by rw [hsz]; decide]
    decide)
  · exact hfree hf
  · -- process 1 has no page
    have h1 : ∀ q : Fin 2, Function.update (fun _ => false) 0 true q = false → q = 1 := by decide
    obtain rfl := h1 p hp
    exact hmm.above_absent pgn (by rw [hbrk]; omega) hres.1

end OsSim.Mem
