import OsSim.Mem.CpuTlb
import OsSim.Mem.MmInv
import Mathlib.Logic.Relation

/-!
# Moves

Every memory function is a sequence of a few small changes of the state: a frame
is taken from the RAM list, a victim goes to a swap slot, a page gets one of the
frames held, a page is swapped in, a page gives up its frame, and so on. `Move`
lists them, each with what the code guarantees before it. What an instruction
keeps is proved for each move once; `Moves` puts them together.

The state of a move holds, besides the system, the frames that
`alloc_pages_range` has gathered and not mapped yet.

Results:
* `Move.frame`: what no move changes.
* `pgGetpage_cases`: the four ways through `pg_getpage`.
* `allocPagesRange_moves`, `vmapLoop_moves`, `freeLoop_moves`: the loops as
  sequences of moves.
-/

namespace OsSim.Mem

open BitField

variable {ι : Type*} [DecidableEq ι]

/-- The frames held and the system. -/
structure Work (ι : Type*) where
  held : List ℤ
  sys : System ι

/-- The kinds of moves, with what tells a good one from a bad one. -/
inductive Act where
  | get
  | evict (slot : ℤ)
  | putBack
  | spill
  | map (pgn : ℕ)
  | swapIn
  | release (pgn : ℕ) (fpn : ℤ)
  | space
  | cache
  | uncache

/-- The page that gets or gives up a frame. -/
def Act.page : Act → Option ℕ
  | .map pgn => some pgn
  | .release pgn _ => some pgn
  | _ => none

/-- The move keeps track of every frame: no frame list is dropped, slots and frames have numbers
that an entry can hold. -/
def Act.Good : Act → Prop
  | .evict slot => slot < 512
  | .spill => False
  | .release _ fpn => 0 ≤ fpn ∧ fpn < 8192
  | _ => True

/-- The move gives a frame to no page but one in `P`, and takes none back. -/
def Act.Maps (P : ℕ → Prop) : Act → Prop
  | .map pgn => P pgn
  | .release _ _ => False
  | _ => True

/-- The move takes a frame back from no page but one in `P`, and gives out none. -/
def Act.Releases (P : ℕ → Prop) : Act → Prop
  | .map _ => False
  | .release pgn _ => P pgn
  | _ => True

theorem Act.maps_of_page {a : Act} (h : a.page = none) (P : ℕ → Prop) : a.Maps P := by
  cases a <;> trivial

theorem Act.releases_of_page {a : Act} (h : a.page = none) (P : ℕ → Prop) : a.Releases P := by
  cases a <;> trivial

theorem Act.Maps.mono {a : Act} {P Q : ℕ → Prop} (h : a.Maps P) (hPQ : ∀ k, P k → Q k) :
    a.Maps Q := by
  cases a with
  | map pgn => exact hPQ pgn h
  | _ => exact h

theorem Act.Releases.mono {a : Act} {P Q : ℕ → Prop} (h : a.Releases P)
    (hPQ : ∀ k, P k → Q k) : a.Releases Q := by
  cases a with
  | release pgn _ => exact hPQ pgn h
  | _ => exact h

/-- No valid TLB entry translates page `pgn` of `p`. -/
def Uncached (s : System ι) (p : ι) (pgn : ℕ) : Prop :=
  ∀ e ∈ s.tlb.entries, e.Valid → e.key ≠ tlbKey (s.pidInt p) pgn

/-- One small change made on behalf of process `p`. -/
inductive Move (p : ι) : Act → Work ι → Work ι → Prop
  | get {held : List ℤ} {s : System ι} {fpn : ℤ} {rest : List ℤ} :
      s.mram.freeFpList = fpn :: rest →
      Move p .get ⟨held, s⟩ ⟨fpn :: held, s.setFrames rest⟩
  | evict {held : List ℤ} {s : System ι} {pgn : ℕ} {slot : ℤ} {rest : List ℤ} :
      Resident ((s.mm p).pgd pgn) → (s.mswp 0).freeFpList = slot :: rest → 0 ≤ slot →
      Move p (.evict slot) ⟨held, s⟩
        ⟨pteFpn ((s.mm p).pgd pgn) :: held, (swapOut (s.setSlots rest) p pgn 0 slot).2⟩
  | putBack {held : List ℤ} {s : System ι} :
      Move p .putBack ⟨held, s⟩ ⟨[], { s with mram := memphyPutAll s.mram held }⟩
  | spill {held : List ℤ} {s : System ι} (raw : List ℤ) :
      Move p .spill ⟨held, s⟩ ⟨[], { s with mram := memphyPutAll s.mram raw }⟩
  | map {held : List ℤ} {s : System ι} {pgn : ℕ} {fpn : ℤ} {mm : Mm} :
      ¬ Present ((s.mm p).pgd pgn) →
      mm.pgd = Function.update (s.mm p).pgd pgn (pteSetFpn ((s.mm p).pgd pgn) fpn) →
      Move p (.map pgn) ⟨fpn :: held, s⟩ ⟨held, s.setMm p mm⟩
  | swapIn {held : List ℤ} {s : System ι} {pgn : ℕ} {fpn : ℤ} {rest : List ℤ} :
      Present ((s.mm p).pgd pgn) → Swapped ((s.mm p).pgd pgn) →
      s.mram.freeFpList = fpn :: rest →
      Move p .swapIn ⟨held, s⟩
        ⟨held, Mem.swapIn (s.setFrames rest) p pgn
          (pteSwptyp ((s.mm p).pgd pgn)) (pagingSwp ((s.mm p).pgd pgn)) fpn⟩
  | release {held : List ℤ} {s : System ι} {pgn : ℕ} {fpn : ℤ} :
      Resident ((s.mm p).pgd pgn) → fpn % 8192 = pteFpn ((s.mm p).pgd pgn) → Uncached s p pgn →
      Move p (.release pgn fpn) ⟨held, s⟩
        ⟨held, { s with mram := memphyPutFreefp s.mram fpn }.setPte p pgn
          (clrbit ((s.mm p).pgd pgn) presentMask)⟩
  | space {held : List ℤ} {s : System ι} {mm : Mm} :
      mm.pgd = (s.mm p).pgd → Move p .space ⟨held, s⟩ ⟨held, s.setMm p mm⟩
  | cache {held : List ℤ} {s : System ι} {pgn : ℕ} {fpn : ℤ} :
      Resident ((s.mm p).pgd pgn) → fpn % 8192 = pteFpn ((s.mm p).pgd pgn) → pgn < 2 ^ 14 →
      Move p .cache ⟨held, s⟩ ⟨held, { s with tlb := tlbCacheWrite s.tlb (s.pidInt p) pgn fpn }⟩
  | uncache {held : List ℤ} {s : System ι} (pgn : ℕ) :
      Move p .uncache ⟨held, s⟩
        ⟨held, { s with tlb := (tlbCacheInvalidate s.tlb (s.pidInt p) pgn).2 }⟩

/-- Moves that satisfy `P`, one after the other. -/
def Moves (p : ι) (P : Act → Prop) : Work ι → Work ι → Prop :=
  Relation.ReflTransGen fun w w' => ∃ a, P a ∧ Move p a w w'

namespace Moves

variable {p : ι} {P Q : Act → Prop} {w w' w'' : Work ι}

theorem refl (w : Work ι) : Moves p P w w := Relation.ReflTransGen.refl

theorem trans (h : Moves p P w w') (h' : Moves p P w' w'') : Moves p P w w'' :=
  Relation.ReflTransGen.trans h h'

theorem single {a : Act} (h : Move p a w w') (ha : P a) : Moves p P w w' :=
  Relation.ReflTransGen.single ⟨a, ha, h⟩

theorem cons {a : Act} (h : Move p a w w') (ha : P a) (h' : Moves p P w' w'') :
    Moves p P w w'' :=
  (single h ha).trans h'

theorem mono (h : Moves p P w w') (hPQ : ∀ a, P a → Q a) : Moves p Q w w' :=
  Relation.ReflTransGen.mono (fun _ _ ⟨a, ha, hm⟩ => ⟨a, hPQ a ha, hm⟩) _ _ h

/-- What every move keeps, a sequence of moves keeps. -/
theorem invariant {I : Work ι → Prop} (h : Moves p P w w')
    (hstep : ∀ a w w', P a → I w → Move p a w w' → I w') (h0 : I w) : I w' := by
  induction h with
  | refl => exact h0
  | tail _ hst ih =>
    obtain ⟨a, ha, hm⟩ := hst
    exact hstep a _ _ ha ih hm

end Moves

/-! ## Swapping a page out and in -/

section Swap

variable (s : System ι) (p : ι) (pgn : ℕ)

theorem swapOut_fst (slot : ℤ) (k : ℕ) :
    (swapOut s p pgn k slot).1 = pteFpn ((s.mm p).pgd pgn) := by
  simp only [swapOut]

theorem swapOut_snd (slot : ℤ) :
    (swapOut s p pgn 0 slot).2 =
      { s with
        tlb := (tlbCacheInvalidate s.tlb (s.pidInt p) pgn).2
        mram := (swapCpPage s.mram (pteFpn ((s.mm p).pgd pgn)) (s.mswp 0) slot).1
        mswp := Function.update s.mswp 0
          (swapCpPage s.mram (pteFpn ((s.mm p).pgd pgn)) (s.mswp 0) slot).2 }.setPte p pgn
        (pteSetSwap ((s.mm p).pgd pgn) 0 slot) := by
  simp only [swapOut, mswpAdd_zero, setMswpAdd_zero, Nat.cast_zero]

theorem swapOut_mm (slot : ℤ) (rest : List ℤ) :
    (swapOut (s.setSlots rest) p pgn
      0 slot).2.mm p =
      { s.mm p with
        pgd := Function.update (s.mm p).pgd pgn (pteSetSwap ((s.mm p).pgd pgn) 0 slot) } := by
  rw [swapOut_snd, System.setPte_self]
  rfl

/-- The lists of free frames and slots after an eviction. -/
theorem swapOut_lists (slot : ℤ) (rest : List ℤ) :
    let s' := (swapOut (s.setSlots rest) p pgn 0 slot).2
    s'.mram.freeFpList = s.mram.freeFpList ∧ (s'.mswp 0).freeFpList = rest := by
  obtain ⟨⟨c, hc⟩, st, d, hd⟩ := swapCpPage_fields s.mram (pteFpn ((s.mm p).pgd pgn))
    ((s.mswp 0).setFree rest) slot
  simp [swapOut_snd, hc, hd]

/-- The `mm_struct` after a page has been swapped in. -/
def mmSwappedIn (mm : Mm) (fpn : ℤ) : Mm :=
  { mm with
    pgd := Function.update mm.pgd pgn (pteSetFpn (mm.pgd pgn) fpn)
    fifoPgn := enlistPgnNode mm.fifoPgn pgn }

theorem swapIn_eq (swapType : ℕ) (swapOff fpn : ℤ) :
    swapIn s p pgn swapType swapOff fpn =
      { s with
        mram := (swapCpPage (mswpAdd s.mswp swapType) swapOff s.mram fpn).2
        mswp := setMswpAdd
          (setMswpAdd s.mswp swapType (swapCpPage (mswpAdd s.mswp swapType) swapOff s.mram fpn).1)
          swapType
          (memphyPutFreefp (mswpAdd (setMswpAdd s.mswp swapType
            (swapCpPage (mswpAdd s.mswp swapType) swapOff s.mram fpn).1) swapType) swapOff) }.setMm p
        (mmSwappedIn pgn (s.mm p) fpn) := by
  unfold swapIn mmSwappedIn
  simp only [System.setPte, System.setFifo]
  simp [System.setMm]

theorem swapIn_mm (swapType : ℕ) (swapOff fpn : ℤ) :
    (swapIn s p pgn swapType swapOff fpn).mm p = mmSwappedIn pgn (s.mm p) fpn := by
  rw [swapIn_eq, System.setMm_self]

theorem swapIn_tlb (swapType : ℕ) (swapOff fpn : ℤ) :
    (swapIn s p pgn swapType swapOff fpn).tlb = s.tlb := by
  rw [swapIn_eq, System.setMm_tlb]

theorem swapIn_frames (swapType : ℕ) (swapOff fpn : ℤ) :
    (swapIn s p pgn swapType swapOff fpn).mram.freeFpList = s.mram.freeFpList := by
  obtain ⟨-, st, d, hd⟩ := swapCpPage_fields (mswpAdd s.mswp swapType) swapOff s.mram fpn
  rw [swapIn_eq, System.setMm_mram, hd]

/-- The free slots after a page has been swapped in. -/
theorem swapIn_slots (swapType : ℕ) (swapOff fpn : ℤ) :
    ((swapIn s p pgn swapType swapOff fpn).mswp 0).freeFpList =
      if swapType = 0 then swapOff :: (s.mswp 0).freeFpList else (s.mswp 0).freeFpList := by
  rw [swapIn_eq]
  simp only [System.setMm_mswp, mswpAdd, setMswpAdd]
  split_ifs with h
  · obtain ⟨⟨c, hc⟩, -⟩ := swapCpPage_fields (s.mswp 0) swapOff s.mram fpn
    simp only [Function.update_self, memphyPutFreefp, hc]
  · rfl

end Swap

omit [DecidableEq ι] in
/-- The search for a slot succeeds at the first device or not at all. -/
theorem swapSearch_eq (s : System ι) (hslots : ∀ x ∈ (s.mswp 0).freeFpList, 0 ≤ x) :
    ((s.mswp 0).avail = [] ∧ ∃ i, swapSearch pagingMaxMmswp 0 (-1) s = (i, -1, s)) ∨
      ∃ slot rest, (s.mswp 0).freeFpList = slot :: rest ∧ (s.mswp 0).avail = slot :: rest ∧
        ((s.mswp 0).setFree rest).avail = rest ∧ 0 ≤ slot ∧
        swapSearch pagingMaxMmswp 0 (-1) s = (0, slot, s.setSlots rest) := by
  have hnone : ∀ k, k ≠ 0 → memphyGetFreefp (mswpAdd s.mswp k) = none :=
    fun k hk => memphyGetFreefp_mswpAdd hk
  obtain ⟨hget, hav⟩ | ⟨slot, rest, hget, hl, hav, hav'⟩ := memphyGetFreefp_eq (s.mswp 0)
  · refine .inl ⟨hav, 4, ?_⟩
    simp [swapSearch, hget, hnone]
  · have h0 : 0 ≤ slot := hslots slot (by simp [hl])
    refine .inr ⟨slot, rest, hl, hav, hav', h0, ?_⟩
    simp [swapSearch, hget, h0, System.setSlots]

/-! ## The invariant of the process whose turn it is -/

/-- The process has a well-formed `mm_struct`, and no free slot has a negative number. -/
structure ProcOk (s : System ι) (p : ι) : Prop where
  mm : MmInv (s.mm p)
  slots : ∀ x ∈ (s.mswp 0).freeFpList, 0 ≤ x

/-- The regions are the same and so are the present pages. -/
structure SamePages (mm mm' : Mm) : Prop where
  mmap : mm'.mmap = mm.mmap
  symrgtbl : mm'.symrgtbl = mm.symrgtbl
  present : ∀ pgn, Present (mm'.pgd pgn) ↔ Present (mm.pgd pgn)

theorem SamePages.rfl' (mm : Mm) : SamePages mm mm := ⟨rfl, rfl, fun _ => Iff.rfl⟩

theorem SamePages.trans {mm mm' mm'' : Mm} (h : SamePages mm mm') (h' : SamePages mm' mm'') :
    SamePages mm mm'' :=
  ⟨h'.mmap.trans h.mmap, h'.symrgtbl.trans h.symrgtbl,
    fun pgn => (h'.present pgn).trans (h.present pgn)⟩

/-- Replacing a present entry by a present one. -/
theorem SamePages.update {mm : Mm} {pgn : ℕ} {pte : Pte} (h : Present (mm.pgd pgn))
    (hpte : Present pte) (fifo : List ℕ) :
    SamePages mm { mm with pgd := Function.update mm.pgd pgn pte, fifoPgn := fifo } := by
  refine ⟨rfl, rfl, fun k => ?_⟩
  simp only [Function.update_apply]
  split_ifs with e
  · rw [e]
    exact iff_of_true hpte h
  · exact Iff.rfl

/-! ## `pg_getpage` -/

theorem setFifo_eq_self {s : System ι} {p : ι} {fifo : List ℕ} (h : fifo = (s.mm p).fifoPgn) :
    s.setFifo p fifo = s := by
  rw [System.setFifo, h]
  exact System.setMm_eta s p

/-- The ways through `pg_getpage`. A page in swap is fetched only if a RAM frame is free: the loop
that looks for a swap slot is never entered, so no victim is exchanged for the page. -/
theorem pgGetpage_cases (s : System ι) (p : ι) (pgn : ℕ) :
    let pte := (s.mm p).pgd pgn
    (¬ Present pte ∧ pgGetpage s p pgn = (-1, -1, s)) ∨
      (Resident pte ∧ pgGetpage s p pgn = (0, pteFpn pte, s)) ∨
      (Present pte ∧ Swapped pte ∧ s.mram.avail = [] ∧
        pgGetpage s p pgn = (-1, -1, s.setFifo p (s.mm p).fifoPgn.dropLast)) ∨
      (Present pte ∧ Swapped pte ∧ ∃ fpn rest, s.mram.freeFpList = fpn :: rest ∧
        s.mram.avail = fpn :: rest ∧
        pgGetpage s p pgn = (0, fpn, swapIn (s.setFrames rest)
          p pgn (pteSwptyp pte) (pagingSwp pte) fpn)) := by
  simp only
  unfold pgGetpage
  by_cases hp : Present ((s.mm p).pgd pgn)
  · by_cases hsw : Swapped ((s.mm p).pgd pgn)
    · simp only [hp, hsw, not_true_eq_false, if_false, if_true, Resident, and_false, false_or,
        true_and, false_and]
      obtain ⟨hget, hav⟩ | ⟨fpn, rest, hget, hl, hav, -⟩ := memphyGetFreefp_eq s.mram
      · refine .inl ⟨hav, ?_⟩
        simp only [hget, findVictimPage]
        cases hlast : (s.mm p).fifoPgn.getLast? with
        | none =>
          rw [List.getLast?_eq_none_iff] at hlast
          rw [setFifo_eq_self (by simp [hlast])]
        | some vicpgn => simp [swapSearch]
      · refine .inr ⟨fpn, rest, hl, hav, ?_⟩
        simp only [hget, System.setFrames]
    · simp [hp, hsw, Resident]
  · simp [hp]

/-! ## What no move changes -/

/-- The parts of the state that instructions of `p` leave alone. -/
structure Frame (p : ι) (s s' : System ι) : Prop where
  pid : s'.pid = s.pid
  mm : ∀ q, q ≠ p → s'.mm q = s.mm q
  ramSize : s'.mram.maxsz = s.mram.maxsz
  ramFlag : s'.mram.rdmflg = s.mram.rdmflg
  swpSize : (s'.mswp 0).maxsz = (s.mswp 0).maxsz
  swpFlag : (s'.mswp 0).rdmflg = (s.mswp 0).rdmflg
  swpOther : ∀ i, i ≠ 0 → s'.mswp i = s.mswp i

omit [DecidableEq ι] in
theorem Frame.refl (p : ι) (s : System ι) : Frame p s s :=
  ⟨rfl, fun _ _ => rfl, rfl, rfl, rfl, rfl, fun _ _ => rfl⟩

omit [DecidableEq ι] in
theorem Frame.trans {p : ι} {s s' s'' : System ι} (h : Frame p s s') (h' : Frame p s' s'') :
    Frame p s s'' where
  pid := h'.pid.trans h.pid
  mm q hq := (h'.mm q hq).trans (h.mm q hq)
  ramSize := h'.ramSize.trans h.ramSize
  ramFlag := h'.ramFlag.trans h.ramFlag
  swpSize := h'.swpSize.trans h.swpSize
  swpFlag := h'.swpFlag.trans h.swpFlag
  swpOther i hi := (h'.swpOther i hi).trans (h.swpOther i hi)

theorem Frame.setMm (p : ι) (s : System ι) (mm : Mm) : Frame p s (s.setMm p mm) :=
  ⟨rfl, fun _ hq => System.setMm_of_ne s p mm hq, rfl, rfl, rfl, rfl, fun _ _ => rfl⟩

omit [DecidableEq ι] in
theorem Frame.putAll (p : ι) (s : System ι) (frames : List ℤ) :
    Frame p s { s with mram := memphyPutAll s.mram frames } := by
  rw [memphyPutAll_eq]
  exact ⟨rfl, fun _ _ => rfl, rfl, rfl, rfl, rfl, fun _ _ => rfl⟩

theorem Frame.swapOut (p : ι) (s : System ι) (pgn : ℕ) (slot : ℤ) (rest : List ℤ) :
    Frame p s (swapOut (s.setSlots rest) p pgn 0 slot).2 := by
  obtain ⟨⟨c, hc⟩, st, d, hd⟩ := swapCpPage_fields s.mram (pteFpn ((s.mm p).pgd pgn))
    ((s.mswp 0).setFree rest) slot
  rw [swapOut_snd, System.setPte]
  refine .trans ?_ (Frame.setMm ..)
  constructor <;> simp [hc, hd]
  exact fun i hi => Function.update_of_ne hi ..

theorem Frame.swapIn (p : ι) (s : System ι) (pgn swapType : ℕ) (swapOff fpn : ℤ)
    (rest : List ℤ) :
    Frame p s (swapIn (s.setFrames rest) p pgn swapType swapOff fpn) := by
  obtain ⟨⟨c, hc⟩, st, d, hd⟩ := swapCpPage_fields (mswpAdd s.mswp swapType) swapOff
    (s.mram.setFree rest) fpn
  rw [swapIn_eq]
  refine .trans ?_ (Frame.setMm ..)
  by_cases h : swapType = 0
  · subst h
    rw [mswpAdd_zero] at hc hd
    constructor <;> simp [hc, hd, memphyPutFreefp]
    exact fun i hi => Function.update_of_ne hi ..
  · constructor <;> simp [setMswpAdd, h, hd]

theorem Move.frame {p : ι} {a : Act} {w w' : Work ι} (h : Move p a w w') :
    Frame p w.sys w'.sys := by
  cases h with
  | get => exact ⟨rfl, fun _ _ => rfl, rfl, rfl, rfl, rfl, fun _ _ => rfl⟩
  | evict => exact Frame.swapOut ..
  | putBack => exact Frame.putAll ..
  | spill => exact Frame.putAll ..
  | map => exact Frame.setMm ..
  | swapIn => exact Frame.swapIn ..
  | release =>
    refine .trans ?_ (Frame.setMm ..)
    exact ⟨rfl, fun _ _ => rfl, rfl, rfl, rfl, rfl, fun _ _ => rfl⟩
  | space => exact Frame.setMm ..
  | cache => exact ⟨rfl, fun _ _ => rfl, rfl, rfl, rfl, rfl, fun _ _ => rfl⟩
  | uncache => exact ⟨rfl, fun _ _ => rfl, rfl, rfl, rfl, rfl, fun _ _ => rfl⟩

theorem Moves.frame {p : ι} {P : Act → Prop} {w w' : Work ι} (h : Moves p P w w') :
    Frame p w.sys w'.sys :=
  h.invariant (I := fun w' => Frame p w.sys w'.sys) (fun _ _ _ _ hI hm => hI.trans hm.frame)
    (.refl ..)

end OsSim.Mem
