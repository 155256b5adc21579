import OsSim.Mem.System
import Mathlib.Data.Finset.Card
import Mathlib.Data.List.Perm.Basic

/-!
# Reclaiming the memory of a process

`free_pcb_memph` (`src/mm-vm.c`, lines 513–539) goes over the whole page table and
puts one number for each entry on a free list. Nothing calls it.

**Every entry is treated as another kind of entry.** The test for a present page
is the wrong way round, `PAGING_FPN` is the mask of addresses and not that of
entries, resident pages are read as swapped ones, the device is `active_mswp`
whatever `SWPTYP` says, and the slot is read with the nine bits of `PAGING_SWP`.

Results:
* `freePcbMemph_eq`: what is put on which list.
* `swapped_of_reclaims`: if that is right, all 16384 pages are in swap.
* `reclaims_iff`: when it is right.
* `not_reclaims_of_injective`: never, if no two pages share a slot.
-/

namespace OsSim.Mem

open BitField

variable {ι : Type*}

/-! ## The code -/

/-- `PAGING_MEMRAMSZ`. -/
abbrev pagingMemramsz : ℕ := 1 <<< 12

/-- `PAGING_FPN_MASK`: from bit `NBITS(PAGING_PAGESZ)` to bit `NBITS(PAGING_MEMRAMSZ) - 1`. -/
def pagingFpnMask : BitVec 32 := genmask 32 (nbits pagingMemramsz - 1) (nbits pagingPagesz)

/-- `PAGING_FPN(x)`. -/
def pagingFpn (x : BitVec 32) : ℤ := (getval x pagingFpnMask (nbits pagingPagesz)).toNat

/-- The body of the loop; `active` is the device that `caller->active_mswp` points to. -/
def freePcbPage (caller : ι) (active : Fin pagingMaxMmswp) (s : System ι) (pagenum : ℕ) :
    System ι :=
  let pte := (s.mm caller).pgd pagenum
  if ¬ Present pte then { s with mram := memphyPutFreefp s.mram (pagingFpn pte) }
  else
    { s with
      mswp := Function.update s.mswp active (memphyPutFreefp (s.mswp active) (pagingSwp pte)) }

/-- `free_pcb_memph` (lines 518–539). -/
def freePcbMemph (s : System ι) (caller : ι) (active : Fin pagingMaxMmswp) : System ι :=
  (List.range pagingMaxPgn).foldl (freePcbPage caller active) s

/-! ## What it is for -/

/-- Where a page is. A frame number has 13 bits and a slot number 21. -/
inductive PageState where
  | absent
  | resident (fpn : Fin (2 ^ 13))
  | swapped (swptyp : Fin pagingMaxMmswp) (swpoff : Fin (2 ^ 21))

/-- The entry of a page. -/
def Encodes (pte : Pte) : PageState → Prop
  | .absent => ¬ Present pte
  | .resident fpn => ∃ old, pte = pteSetFpn old (fpn : ℕ)
  | .swapped swptyp swpoff => ∃ old, pte = pteSetSwap old (swptyp : ℕ) (swpoff : ℕ)

/-- The page table of `caller` is that of `pages`. -/
def EncodesAll (s : System ι) (caller : ι) (pages : ℕ → PageState) : Prop :=
  ∀ pgn < pagingMaxPgn, Encodes ((s.mm caller).pgd pgn) (pages pgn)

def PageState.frame : PageState → Option ℤ
  | .resident fpn => some (fpn : ℕ)
  | _ => none

def PageState.slot (d : Fin pagingMaxMmswp) : PageState → Option ℤ
  | .swapped swptyp swpoff => if swptyp = d then some (swpoff : ℕ) else none
  | _ => none

/-- `after` is `before` with the numbers `freed` put in front, in some order. -/
def Gains (before after freed : List ℤ) : Prop :=
  ∃ pushed, after = pushed ++ before ∧ pushed.Perm freed

/-- RAM gets back the frame of each resident page, and every swap device the slot of each page on
it, once for each page and nothing else. -/
structure Reclaims (s : System ι) (caller : ι) (active : Fin pagingMaxMmswp)
    (pages : ℕ → PageState) : Prop where
  ram : Gains s.mram.freeFpList (freePcbMemph s caller active).mram.freeFpList
    ((List.range pagingMaxPgn).filterMap fun pgn => (pages pgn).frame)
  swap : ∀ d, Gains (s.mswp d).freeFpList ((freePcbMemph s caller active).mswp d).freeFpList
    ((List.range pagingMaxPgn).filterMap fun pgn => (pages pgn).slot d)

/-! ## The loop -/

section

variable (s : System ι) (caller : ι) (active : Fin pagingMaxMmswp)

/-- The numbers that go to RAM when the pages `pgns` are freed. -/
def toRam (pgns : List ℕ) : List ℤ :=
  (pgns.filter fun pgn => ¬ Present ((s.mm caller).pgd pgn)).map
    fun pgn => pagingFpn ((s.mm caller).pgd pgn)

/-- The numbers that go to the active device. -/
def toActive (pgns : List ℕ) : List ℤ :=
  (pgns.filter fun pgn => Present ((s.mm caller).pgd pgn)).map
    fun pgn => pagingSwp ((s.mm caller).pgd pgn)

theorem freePcbPage_foldl (pgns : List ℕ) :
    pgns.foldl (freePcbPage caller active) s =
      { s with
        mram := memphyPutAll s.mram (toRam s caller pgns)
        mswp := Function.update s.mswp active
          (memphyPutAll (s.mswp active) (toActive s caller pgns)) } := by
  induction pgns generalizing s with
  | nil => simp [toRam, toActive, memphyPutAll]
  | cons pgn pgns ih =>
    rw [List.foldl_cons, ih]
    by_cases hp : Present ((s.mm caller).pgd pgn)
    · simp [freePcbPage, toRam, toActive, memphyPutAll, hp]
    · simp [freePcbPage, toRam, toActive, memphyPutAll, hp]

/-- What is put on which list. -/
theorem freePcbMemph_eq : freePcbMemph s caller active =
    { s with
      mram := memphyPutAll s.mram (toRam s caller (List.range pagingMaxPgn))
      mswp := Function.update s.mswp active
        (memphyPutAll (s.mswp active) (toActive s caller (List.range pagingMaxPgn))) } :=
  freePcbPage_foldl s caller active _

end

/-! ## Free lists -/

theorem gains_memphyPutAll {mp : Memphy} {frames freed : List ℤ} :
    Gains mp.freeFpList (memphyPutAll mp frames).freeFpList freed ↔ frames.Perm freed := by
  rw [memphyPutAll_eq, Memphy.setFree_freeFpList]
  constructor
  · rintro ⟨pushed, heq, hperm⟩
    rw [← List.append_cancel_right heq] at hperm
    exact (List.reverse_perm frames).symm.trans hperm
  · intro hperm
    exact ⟨_, rfl, (List.reverse_perm frames).trans hperm⟩

theorem gains_self {before freed : List ℤ} : Gains before before freed ↔ freed = [] := by
  constructor
  · rintro ⟨pushed, heq, hperm⟩
    rw [List.self_eq_append_left.mp heq] at hperm
    exact hperm.symm.eq_nil
  · rintro rfl
    exact ⟨[], rfl, .nil⟩

/-- The three lists. -/
theorem reclaims_iff_perm {s : System ι} {caller : ι} {active : Fin pagingMaxMmswp}
    {pages : ℕ → PageState} : Reclaims s caller active pages ↔
      (toRam s caller (List.range pagingMaxPgn)).Perm
        ((List.range pagingMaxPgn).filterMap fun pgn => (pages pgn).frame) ∧
      (toActive s caller (List.range pagingMaxPgn)).Perm
        ((List.range pagingMaxPgn).filterMap fun pgn => (pages pgn).slot active) ∧
      ∀ d, d ≠ active →
        (List.range pagingMaxPgn).filterMap (fun pgn => (pages pgn).slot d) = [] := by
  have hfree := freePcbMemph_eq s caller active
  have hself : ((freePcbMemph s caller active).mswp active).freeFpList =
      (memphyPutAll (s.mswp active) (toActive s caller (List.range pagingMaxPgn))).freeFpList := by
    rw [hfree]
    exact congrArg Memphy.freeFpList (Function.update_self ..)
  have hother : ∀ d, d ≠ active → (freePcbMemph s caller active).mswp d = s.mswp d := by
    intro d hd
    rw [hfree]
    exact Function.update_of_ne hd ..
  constructor
  · rintro ⟨hram, hswap⟩
    rw [hfree] at hram
    have hactive := hswap active
    rw [hself] at hactive
    refine ⟨gains_memphyPutAll.mp hram, gains_memphyPutAll.mp hactive, fun d hd => ?_⟩
    have hrest := hswap d
    rw [hother d hd] at hrest
    exact gains_self.mp hrest
  · rintro ⟨hram, hactive, hothers⟩
    refine ⟨?_, fun d => ?_⟩
    · rw [hfree]
      exact gains_memphyPutAll.mpr hram
    · by_cases hd : d = active
      · subst hd
        rw [hself]
        exact gains_memphyPutAll.mpr hactive
      · rw [hother d hd]
        exact gains_self.mpr (hothers d hd)

/-! ## Counting the pages -/

/-- If as many elements satisfy `p` as the narrower `q`, all that satisfy `p` satisfy `q`. -/
theorem of_countP_eq {α : Type*} {p q : α → Bool} {l : List α} (hqp : ∀ a ∈ l, q a → p a)
    (h : l.countP p = l.countP q) {a : α} (ha : a ∈ l) (hp : p a = true) : q a = true := by
  induction l with
  | nil => cases ha
  | cons b l ih =>
    have hle : l.countP q ≤ l.countP p :=
      List.countP_mono_left fun x hx => hqp x (List.mem_cons_of_mem _ hx)
    have hb := hqp b (by simp)
    rw [List.countP_cons, List.countP_cons] at h
    obtain rfl | ha := List.mem_cons.mp ha
    · by_contra hq
      rw [if_pos hp, if_neg hq] at h
      omega
    · refine ih (fun x hx => hqp x (List.mem_cons_of_mem _ hx)) ?_ ha
      split_ifs at h <;> first | omega | simp_all

section

variable {s : System ι} {caller : ι} {active : Fin pagingMaxMmswp} {pages : ℕ → PageState}
  (henc : EncodesAll s caller pages)

theorem Encodes.present_iff {pte : Pte} {page : PageState} (h : Encodes pte page) :
    Present pte ↔ page ≠ .absent := by
  cases page with
  | absent => exact iff_of_false h (not_not.mpr rfl)
  | resident fpn =>
    obtain ⟨old, rfl⟩ := h
    simp
  | swapped swptyp swpoff =>
    obtain ⟨old, rfl⟩ := h
    simp

theorem pagingSwp_lt (pte : Pte) : pagingSwp pte < 512 := by
  unfold pagingSwp pagingSwpfpnOffset
  rw [pagingSwpMask_eq, getval_genmask_toNat (by norm_num) (by norm_num)]
  omega

include henc

/-- If the right numbers are put on the lists, every page is on the active device, in one of its
first 512 slots. -/
theorem swapped_of_reclaims (h : Reclaims s caller active pages) {pgn : ℕ}
    (hpgn : pgn < pagingMaxPgn) :
    ∃ swpoff, pages pgn = .swapped active swpoff ∧ (swpoff : ℕ) < 512 := by
  obtain ⟨hram, hactive, -⟩ := reclaims_iff_perm.mp h
  have hmem := List.mem_range.mpr hpgn
  -- the present pages are those on the active device
  have hpresent : ∀ k ∈ List.range pagingMaxPgn, Present ((s.mm caller).pgd k) →
      ((pages k).slot active).isSome = true := by
    have hlen := hactive.length_eq
    rw [toActive, List.length_map, ← List.countP_eq_length_filter,
      List.length_filterMap_eq_countP] at hlen
    intro k hk hp
    refine of_countP_eq (fun k hk hsome => ?_) hlen hk (decide_eq_true hp)
    refine decide_eq_true ((henc k (List.mem_range.mp hk)).present_iff.mpr fun habs => ?_)
    rw [habs] at hsome
    cases hsome
  -- so none is resident, and as many are absent
  have hnone : ∀ k ∈ List.range pagingMaxPgn, (pages k).frame = none := by
    intro k hk
    cases hpage : pages k with
    | absent => rfl
    | swapped => rfl
    | resident fpn =>
      have hp := (henc k (List.mem_range.mp hk)).present_iff.mpr (by simp [hpage])
      have hsome := hpresent k hk hp
      rw [hpage] at hsome
      cases hsome
  have hall : Present ((s.mm caller).pgd pgn) := by
    rw [List.filterMap_eq_nil_iff.mpr hnone] at hram
    have hnil := hram.eq_nil
    rw [toRam, List.map_eq_nil_iff, List.filter_eq_nil_iff] at hnil
    simpa using hnil pgn hmem
  cases hpage : pages pgn with
  | absent => exact absurd hpage ((henc pgn hpgn).present_iff.mp hall)
  | resident fpn =>
    have hsome := hpresent pgn hmem hall
    rw [hpage] at hsome
    cases hsome
  | swapped swptyp swpoff =>
    have hsome := hpresent pgn hmem hall
    rw [hpage, PageState.slot] at hsome
    split_ifs at hsome with heq
    · subst heq
      refine ⟨swpoff, rfl, ?_⟩
      -- the slot is one of the numbers that have been read with nine bits
      have hslot : ((swpoff : ℕ) : ℤ) ∈ toActive s caller (List.range pagingMaxPgn) := by
        rw [hactive.mem_iff, List.mem_filterMap]
        exact ⟨pgn, hmem, by simp [hpage, PageState.slot]⟩
      obtain ⟨k, -, heq⟩ := List.mem_map.mp hslot
      have := pagingSwp_lt ((s.mm caller).pgd k)
      omega
    · cases hsome

/-- The memory of a process is reclaimed exactly if all its pages are in swap, on the active device
and in its first 512 slots. -/
theorem reclaims_iff : Reclaims s caller active pages ↔
    ∀ pgn < pagingMaxPgn, ∃ swpoff, pages pgn = .swapped active swpoff ∧ (swpoff : ℕ) < 512 := by
  refine ⟨fun h pgn hpgn => swapped_of_reclaims henc h hpgn, fun h => ?_⟩
  have hentry : ∀ pgn ∈ List.range pagingMaxPgn, Present ((s.mm caller).pgd pgn) ∧
      (pages pgn).frame = none ∧
      (pages pgn).slot active = some (pagingSwp ((s.mm caller).pgd pgn)) ∧
      ∀ d, d ≠ active → (pages pgn).slot d = none := by
    intro pgn hmem
    have hpgn := List.mem_range.mp hmem
    have hpte := henc pgn hpgn
    obtain ⟨swpoff, hpage, hlt⟩ := h pgn hpgn
    rw [hpage] at hpte ⊢
    refine ⟨hpte.present_iff.mpr (by simp), rfl, ?_, fun d hd => if_neg (Ne.symm hd)⟩
    obtain ⟨old, heq⟩ := hpte
    rw [heq, swp_pteSetSwap old _ (by omega) (by omega), PageState.slot, if_pos rfl]
  refine reclaims_iff_perm.mpr ⟨.of_eq ?_, .of_eq ?_, fun d hd => ?_⟩
  · rw [toRam, List.filterMap_eq_nil_iff.mpr fun pgn hmem => (hentry pgn hmem).2.1,
      List.filter_eq_nil_iff.mpr fun pgn hmem => by simp [(hentry pgn hmem).1], List.map_nil]
  · rw [toActive, List.filter_eq_self.mpr fun pgn hmem => decide_eq_true (hentry pgn hmem).1,
      List.filterMap_congr fun pgn hmem => (hentry pgn hmem).2.2.1, List.filterMap_eq_map']
  · exact List.filterMap_eq_nil_iff.mpr fun pgn hmem => (hentry pgn hmem).2.2.2 d hd

/-- A table in which no two pages share a slot cannot be reclaimed: there are more pages than slots
that `PAGING_SWP` can read. -/
theorem not_reclaims_of_injective
    (hinj : ∀ pgn < pagingMaxPgn, ∀ pgn' < pagingMaxPgn, pages pgn = pages pgn' →
      pages pgn ≠ .absent → pgn = pgn') : ¬ Reclaims s caller active pages := by
  intro h
  choose! swpoff hpage hlt using fun pgn => @swapped_of_reclaims _ _ _ _ _ henc h pgn
  have hcard : (Finset.range 512).card < (Finset.range pagingMaxPgn).card := by
    rw [Finset.card_range, Finset.card_range]
    decide
  have hmaps : ∀ pgn ∈ Finset.range pagingMaxPgn, (swpoff pgn : ℕ) ∈ Finset.range 512 :=
    fun pgn hpgn => Finset.mem_range.mpr (hlt pgn (Finset.mem_range.mp hpgn))
  obtain ⟨pgn, hpgn, pgn', hpgn', hne, heq⟩ :=
    Finset.exists_ne_map_eq_of_card_lt_of_maps_to hcard hmaps
  rw [Finset.mem_range] at hpgn hpgn'
  refine hne (hinj pgn hpgn pgn' hpgn' ?_ (by simp [hpage pgn hpgn]))
  rw [hpage pgn hpgn, hpage pgn' hpgn', Fin.ext heq]

end

/-! ## Two tables -/

/-- One process with the page table `pgd`. -/
def tableOf (pgd : ℕ → Pte) : System Unit where
  mram := Memphy.zero
  mswp _ := Memphy.zero
  tlb := ⟨[], fun _ => 0⟩
  pid _ := 0
  mm _ := ⟨pgd, ⟨0, 0, 0, [], false⟩, [], fun _ => ⟨0, 0⟩, []⟩

/-- All pages in one slot of the first device. -/
theorem reclaims_shared : Reclaims (tableOf fun _ => pteSetSwap 0 0 3) () ⟨0, by decide⟩
    fun _ => .swapped ⟨0, by decide⟩ ⟨3, by decide⟩ := by
  refine (reclaims_iff fun pgn _ => ?_).mpr fun pgn _ => ⟨_, rfl, by decide⟩
  exact ⟨0, rfl⟩

/-- Page 0 in frame 5, and no other page. -/
theorem not_reclaims_resident :
    EncodesAll (tableOf fun pgn => if pgn = 0 then pteSetFpn 0 5 else 0) ()
        (fun pgn => if pgn = 0 then .resident ⟨5, by decide⟩ else .absent) ∧
      ¬ Reclaims (tableOf fun pgn => if pgn = 0 then pteSetFpn 0 5 else 0) () ⟨0, by decide⟩
        (fun pgn => if pgn = 0 then .resident ⟨5, by decide⟩ else .absent) := by
  have henc : EncodesAll (tableOf fun pgn => if pgn = 0 then pteSetFpn 0 5 else 0) ()
      (fun pgn => if pgn = 0 then .resident ⟨5, by decide⟩ else .absent) := by
    intro pgn _
    simp only [tableOf]
    split_ifs
    · exact ⟨0, rfl⟩
    · show ¬ Present 0
      decide
  refine ⟨henc, fun h => ?_⟩
  obtain ⟨_, hpage, -⟩ := swapped_of_reclaims henc h (show 0 < pagingMaxPgn by decide)
  cases hpage

end OsSim.Mem
