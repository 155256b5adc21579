import OsSim.Mem.Contents

/-!
# The TLB path and the plain path

`tlballoc`, `tlbfree_data`, `tlbread` and `tlbwrite` do the work of `pgalloc`,
`pgfree_data`, `pgread` and `pgwrite` once more, with the TLB. Nothing is
assumed here of the state but that the TLB is coherent: regions, page tables,
free lists and contents are arbitrary.

Results:
* `tlbread_agrees_iff`, `tlbwrite_agrees_iff`, `tlbfreeData_agrees_iff`,
  `tlballoc_agrees_iff`: when an entry point and its plain counterpart agree.
* `paths_agree_iff`: the four together.
* `not_agrees_cleared`: reading a region that was never allocated.
-/

namespace OsSim.Mem

open BitField

variable {ι : Type*} [DecidableEq ι]

/-! ## Agreement -/

/-- The system with another TLB. -/
def System.setTlb (s : System ι) (tlb : Tlb) : System ι := { s with tlb := tlb }

section

variable (s : System ι) (tlb : Tlb)

omit [DecidableEq ι]

@[simp] theorem System.setTlb_mram : (s.setTlb tlb).mram = s.mram := rfl
@[simp] theorem System.setTlb_mswp : (s.setTlb tlb).mswp = s.mswp := rfl
@[simp] theorem System.setTlb_mm : (s.setTlb tlb).mm = s.mm := rfl
@[simp] theorem System.setTlb_setTlb (tlb' : Tlb) :
    (s.setTlb tlb).setTlb tlb' = s.setTlb tlb' := rfl

end

/-- The devices, the page tables, the regions and the lists are the same. -/
def SameMemory (s s' : System ι) : Prop := ∃ tlb, s' = s.setTlb tlb

/-- Two ways of reading: the same status, and on success the same byte. -/
def AgreesRead : Except Fault (ℤ × Option Byte × System ι) →
    Except Fault (ℤ × Option Byte × System ι) → Prop
  | .ok (stat, data, _), .ok (stat', data', _) => stat = stat' ∧ (stat = 0 → data = data')
  | .error e, .error e' => e = e'
  | _, _ => False

/-- Two ways of changing the memory: the same status and the same memory. -/
def Agrees : Except Fault (ℤ × System ι) → Except Fault (ℤ × System ι) → Prop
  | .ok (stat, s), .ok (stat', s') => stat = stat' ∧ SameMemory s' s
  | .error e, .error e' => e = e'
  | _, _ => False

/-- `pg_getpage` brings the page to a frame of RAM whose number is not negative. -/
def Fetchable (s : System ι) (p : ι) (pgn : ℕ) : Prop :=
  Resident ((s.mm p).pgd pgn) ∨
    (Present ((s.mm p).pgd pgn) ∧ Swapped ((s.mm p).pgd pgn) ∧
      ∃ fpn ∈ s.mram.avail.head?, 0 ≤ fpn)

/-! ## `tlbread` and `tlbwrite` -/

section Access

variable {s : System ι} {p : ι}

omit [DecidableEq ι] in
/-- A hit translates a resident page. -/
theorem Coherent.of_hit (h : Coherent s) {pgn : ℕ} (hpgn : pgn < 2 ^ 14)
    (hhit : 0 ≤ tlbCacheRead s.tlb (s.pidInt p) pgn) :
    Resident ((s.mm p).pgd pgn) ∧
      tlbCacheRead s.tlb (s.pidInt p) pgn = pteFpn ((s.mm p).pgd pgn) := by
  obtain ⟨e, he, hv, hk, hread⟩ := tlbCacheRead_hit hhit
  rw [TlbEntry.key, tlbKey, Prod.mk.injEq, ← BitVec.toNat_inj, ← BitVec.toNat_inj,
    BitVec.toNat_ofInt, BitVec.toNat_ofInt] at hk
  -- the pid field has 32 bits, so no entry is found for a negative `int`
  have hlt : (tlbPid e).toNat < 2 ^ 32 := by
    unfold tlbPid tlbEntryPidMask
    rw [getval_genmask_toNat (by norm_num) (by norm_num)]
    omega
  have hpid : (tlbPid e).toNat = (s.pid p).toNat := by
    have hlt' := (s.pid p).isLt
    have hi : s.pidInt p = (s.pid p).toNat ∨ s.pidInt p = (s.pid p).toNat - 2 ^ 32 := by
      unfold System.pidInt i32
      rw [BitVec.toInt_ofInt, Int.bmod_def]
      split_ifs <;> omega
    omega
  obtain ⟨hres, hfpn⟩ := h e he hv p hpid
  rw [show (tlbTag e).toNat = pgn by omega] at hres hfpn
  exact ⟨hres, by rw [hread, hfpn]⟩

/-- `tlbread` and `tlbwrite` get the frame that `pg_getpage` returns, if the page is fetchable,
and report a page fault otherwise. -/
theorem tlbFrame_plain (h : Coherent s) {pgn : ℕ} (hpgn : pgn < 2 ^ 14) :
    (Fetchable s p pgn ∧ (pgGetpage s p pgn).1 = 0 ∧
      (tlbFrame s p pgn).1 = some (pgGetpage s p pgn).2.1 ∧
      SameMemory (pgGetpage s p pgn).2.2 (tlbFrame s p pgn).2) ∨
    (¬ Fetchable s p pgn ∧ (tlbFrame s p pgn).1 = none) := by
  unfold tlbFrame Fetchable
  by_cases hmiss : tlbCacheRead s.tlb (s.pidInt p) pgn < 0
  · simp only [hmiss, if_true]
    obtain ⟨hp, hr⟩ | ⟨hres, hr⟩ | ⟨hp, hsw, hav, hr⟩ | ⟨hp, hsw, fpn, rest, hl, hav, hr⟩ :=
      pgGetpage_cases s p pgn <;> simp only [hr]
    · exact .inr ⟨by simp [Resident, hp], by simp⟩
    · have h0 := pteFpn_nonneg ((s.mm p).pgd pgn)
      simp only [ne_eq, not_true_eq_false, false_or, not_lt.mpr h0, if_false]
      exact .inl ⟨.inl hres, trivial, trivial, _, rfl⟩
    · exact .inr ⟨by simp [Resident, hsw, hav], by simp⟩
    · by_cases h0 : fpn < 0
      · exact .inr ⟨by simp [Resident, hsw, hav, h0], by simp [h0]⟩
      · simp only [ne_eq, not_true_eq_false, false_or, h0, if_false]
        exact .inl ⟨.inr ⟨hp, hsw, fpn, by simp [hav], not_lt.mp h0⟩, trivial, trivial, _, rfl⟩
  · simp only [hmiss, if_false]
    obtain ⟨hres, hfpn⟩ := h.of_hit hpgn (not_lt.mp hmiss)
    have hr : pgGetpage s p pgn = (0, pteFpn ((s.mm p).pgd pgn), s) := by
      unfold pgGetpage
      simp [hres.1, hres.2]
    rw [hr, hfpn]
    exact .inl ⟨.inl hres, rfl, rfl, s.tlb, rfl⟩

theorem pgread_eq (s : System ι) (p : ι) {source : BitVec 32}
    (hid : source.toNat < pagingMaxSymtblSz) (offset : BitVec 32) :
    pgread s p source offset =
      let currg := (s.mm p).symrgtbl ⟨source.toNat, hid⟩
      if currg.rgStart ≥ currg.rgEnd then .ok (-1, none, s)
      else if OutOfRange currg offset then .ok (-1, none, s)
      else
        match pgGetval s p (rgAddr currg offset) with
        | (_, data, s) => .ok (0, data, s) := by
  unfold pgread read
  simp only [getSymrgById_eq hid]

theorem pgwrite_eq (s : System ι) (p : ι) (data : Byte) {destination : BitVec 32}
    (hid : destination.toNat < pagingMaxSymtblSz) (offset : BitVec 32) :
    pgwrite s p data destination offset =
      let currg := (s.mm p).symrgtbl ⟨destination.toNat, hid⟩
      if OutOfRange currg offset then .ok (-1, s)
      else
        match pgSetval s p (rgAddr currg offset) data with
        | (_, s) => .ok (0, s) := by
  unfold pgwrite write
  simp only [getSymrgById_eq hid]

/-- Reading: `pgread` refuses cleared regions, which `tlbread` does not, and returns 0 for a page
that cannot be fetched, for which `tlbread` returns -1. -/
theorem tlbread_agrees_iff (h : Coherent s) {source : BitVec 32}
    (hid : source.toNat < pagingMaxSymtblSz) (offset : BitVec 32) :
    let currg := (s.mm p).symrgtbl ⟨source.toNat, hid⟩
    AgreesRead (tlbread s p source offset) (pgread s p source offset) ↔
      OutOfRange currg offset ∨
      (currg.rgStart < currg.rgEnd ↔ Fetchable s p (pagingPgn (rgAddr currg offset))) := by
  rw [tlbread_eq s p hid, pgread_eq s p hid]
  generalize (s.mm p).symrgtbl ⟨source.toNat, hid⟩ = currg
  have hplain := tlbFrame_plain (p := p) h (pagingPgn_lt (rgAddr currg offset))
  by_cases hout : OutOfRange currg offset
  · by_cases hlive : currg.rgStart ≥ currg.rgEnd <;> simp [hout, hlive, AgreesRead]
  · simp only [hout, if_false, false_or]
    generalize tlbFrame s p (pagingPgn (rgAddr currg offset)) = r at hplain
    obtain ⟨fr, s1⟩ := r
    obtain ⟨hf, hstat, hfr, tlb, hmem⟩ | ⟨hf, hfr⟩ := hplain <;> simp only at hfr
    · simp only at hmem
      subst hfr
      simp only [hf, iff_true]
      by_cases hlive : currg.rgStart ≥ currg.rgEnd
      · simp [hlive, AgreesRead]
      · simp only [hlive, if_false, pgGetval]
        simp [hstat, AgreesRead, hmem, not_le.mp hlive]
    · subst hfr
      simp only [hf, iff_false]
      by_cases hlive : currg.rgStart ≥ currg.rgEnd
      · simp [hlive, AgreesRead, not_lt.mpr hlive]
      · simp [hlive, AgreesRead, not_le.mp hlive]

/-- Writing: `pgwrite` returns 0 for a page that cannot be fetched, for which `tlbwrite` returns
-1. -/
theorem tlbwrite_agrees_iff (h : Coherent s) (data : Byte) {destination : BitVec 32}
    (hid : destination.toNat < pagingMaxSymtblSz) (offset : BitVec 32) :
    let currg := (s.mm p).symrgtbl ⟨destination.toNat, hid⟩
    Agrees (tlbwrite s p data destination offset) (pgwrite s p data destination offset) ↔
      OutOfRange currg offset ∨ Fetchable s p (pagingPgn (rgAddr currg offset)) := by
  rw [tlbwrite_eq s p data hid, pgwrite_eq s p data hid]
  generalize (s.mm p).symrgtbl ⟨destination.toNat, hid⟩ = currg
  have hplain := tlbFrame_plain (p := p) h (pagingPgn_lt (rgAddr currg offset))
  by_cases hout : OutOfRange currg offset
  · simp only [hout, if_true, true_or, iff_true]
    exact ⟨rfl, s.tlb, rfl⟩
  · simp only [hout, if_false, false_or]
    generalize tlbFrame s p (pagingPgn (rgAddr currg offset)) = r at hplain
    obtain ⟨fr, s1⟩ := r
    obtain ⟨hf, hstat, hfr, tlb, hmem⟩ | ⟨hf, hfr⟩ := hplain <;> simp only at hfr
    · simp only at hmem
      subst hfr hmem
      simp only [hf, iff_true, pgSetval, hstat]
      exact ⟨rfl, tlb, rfl⟩
    · subst hfr
      simp only [hf, iff_false]
      rintro ⟨h1, -⟩
      cases h1

end Access

/-! ## `tlbfree_data` -/

section Free

variable {s : System ι} {p : ι}

theorem pgGetpage_setTlb (s : System ι) (tlb : Tlb) (p : ι) (pgn : ℕ) :
    pgGetpage (s.setTlb tlb) p pgn = ((pgGetpage s p pgn).1, (pgGetpage s p pgn).2.1,
      (pgGetpage s p pgn).2.2.setTlb tlb) := by
  unfold pgGetpage
  simp only [System.setTlb_mm, System.setTlb_mram]
  by_cases hp : Present ((s.mm p).pgd pgn)
  · by_cases hsw : Swapped ((s.mm p).pgd pgn)
    · simp only [hp, hsw, not_true_eq_false, if_false, if_true]
      cases memphyGetFreefp s.mram with
      | some r => rfl
      | none =>
        cases findVictimPage (s.mm p).fifoPgn with
        | some r => rfl
        | none => rfl
    · simp only [hp, hsw, not_true_eq_false, if_false]
  · simp only [hp, not_false_eq_true, if_true]

/-- What `pg_getpage` does to the other pages. -/
theorem pgGetpage_others (s : System ι) (p : ι) (pgn : ℕ) :
    (pgGetpage s p pgn).2.2.mram.maxsz = s.mram.maxsz ∧
      ∀ k, k ≠ pgn → ((pgGetpage s p pgn).2.2.mm p).pgd k = (s.mm p).pgd k := by
  obtain ⟨-, hr⟩ | ⟨-, hr⟩ | ⟨-, -, -, hr⟩ | ⟨-, -, fpn, rest, -, -, hr⟩ :=
    pgGetpage_cases s p pgn <;> rw [hr]
  · exact ⟨rfl, fun _ _ => rfl⟩
  · exact ⟨rfl, fun _ _ => rfl⟩
  · exact ⟨rfl, fun k _ => by rw [System.setFifo_self]⟩
  · refine ⟨(Frame.swapIn p s pgn _ _ fpn rest).ramSize, fun k hk => ?_⟩
    rw [swapIn_mm]
    exact Function.update_of_ne hk ..

/-- `pg_getpage` succeeds exactly for the pages that are accessible. -/
theorem pgGetpage_status (s : System ι) (p : ι) (pgn : ℕ) :
    ((pgGetpage s p pgn).1 = 0 ∧ Accessible s p pgn) ∨
      ((pgGetpage s p pgn).1 = -1 ∧ ¬ Accessible s p pgn) := by
  unfold Accessible
  obtain ⟨hp, hr⟩ | ⟨hres, hr⟩ | ⟨hp, hsw, hav, hr⟩ | ⟨hp, hsw, fpn, rest, hl, hav, hr⟩ :=
    pgGetpage_cases s p pgn <;> rw [hr]
  · exact .inr ⟨rfl, by simp [Resident, hp]⟩
  · exact .inl ⟨rfl, .inl hres⟩
  · exact .inr ⟨rfl, by simp [Resident, hsw, hav]⟩
  · exact .inl ⟨rfl, .inr ⟨hp, hsw, by simp [hav]⟩⟩

/-- The `left` pages from `pgn` on can be fetched one after the other while the frames of the
pages before go to the free list. -/
def Freeable (s : System ι) (p : ι) (pgn left : ℕ) : Prop :=
  (∀ k, InRange pgn left k → Present ((s.mm p).pgd k)) ∧
    ((∀ k, InRange pgn left k → Resident ((s.mm p).pgd k)) ∨
      (0 < s.mram.maxsz ∧ (s.mram.freeFpList ≠ [] ∨ Resident ((s.mm p).pgd pgn))))

omit [DecidableEq ι] in
/-- The first page is fetched, and then there is a free frame. -/
theorem freeable_succ_iff (s : System ι) (p : ι) (pgn left : ℕ) :
    Freeable s p pgn (left + 1) ↔ Accessible s p pgn ∧
      (∀ k, InRange (pgn + 1) left k → Present ((s.mm p).pgd k)) ∧
      ((∀ k, InRange (pgn + 1) left k → Resident ((s.mm p).pgd k)) ∨ 0 < s.mram.maxsz) := by
  have hin : ∀ k, InRange pgn (left + 1) k ↔ k = pgn ∨ InRange (pgn + 1) left k := by
    intro k
    unfold InRange
    omega
  have hav : s.mram.avail ≠ [] ↔ 0 < s.mram.maxsz ∧ s.mram.freeFpList ≠ [] := by
    unfold Memphy.avail
    split_ifs with h
    · simp [not_lt.mpr h]
    · simp [not_le.mp h]
  simp only [Freeable, Accessible, hin, forall_eq_or_imp, hav, Resident]
  -- the first page is in swap, in RAM, or absent
  by_cases hp : Present ((s.mm p).pgd pgn)
  · by_cases hsw : Swapped ((s.mm p).pgd pgn)
    · simp only [hp, hsw, not_true_eq_false, and_false, false_and, false_or, or_false, true_and]
      constructor
      · rintro ⟨hpres, hsz, hfree⟩
        exact ⟨⟨hsz, hfree⟩, hpres, .inr hsz⟩
      · rintro ⟨⟨hsz, hfree⟩, hpres, -⟩
        exact ⟨hpres, hsz, hfree⟩
    · simp only [hp, hsw, not_false_eq_true, and_true, true_and, false_and, or_false, or_true]
  · simp only [hp, false_and, or_self]

theorem freeLoop_status (p : ι) (left pgn : ℕ) (s : System ι) :
    ((freeLoop p left pgn s).1 = 0 ∧ Freeable s p pgn left) ∨
      ((freeLoop p left pgn s).1 = -1 ∧ ¬ Freeable s p pgn left) := by
  induction left generalizing pgn s with
  | zero =>
    have hno : ∀ k, ¬ InRange pgn 0 k := fun k hk => absurd hk.2 (by have := hk.1; omega)
    exact .inl ⟨rfl, fun k hk => absurd hk (hno k), .inl fun k hk => absurd hk (hno k)⟩
  | succ left ih =>
    have hstat := pgGetpage_status s p pgn
    obtain ⟨hsz, hother⟩ := pgGetpage_others s p pgn
    unfold freeLoop
    generalize pgGetpage s p pgn = r at hstat hsz hother
    obtain ⟨ret, fpn, s1⟩ := r
    simp only at hstat hsz hother ⊢
    obtain ⟨rfl, hacc⟩ | ⟨rfl, hacc⟩ := hstat
    · rw [if_neg (by decide)]
      -- after this turn the list of free frames is not empty
      generalize hs3 : (({ s1 with mram := memphyPutFreefp s1.mram fpn }.setPte p pgn
        (clrbit ((s1.mm p).pgd pgn) presentMask)).setFifo p (clearPgnNode
        ((({ s1 with mram := memphyPutFreefp s1.mram fpn }.setPte p pgn
          (clrbit ((s1.mm p).pgd pgn) presentMask)).mm p).fifoPgn) pgn)) = s3
      have hpgd : ∀ k, InRange (pgn + 1) left k → (s3.mm p).pgd k = (s.mm p).pgd k := by
        intro k hk
        have hne : k ≠ pgn := by
          have := hk.1
          omega
        rw [← hs3, System.setFifo_self]
        simp only [System.setPte_self, Function.update_of_ne hne]
        exact hother k hne
      have hfree : s3.mram.freeFpList ≠ [] := by
        rw [← hs3]
        simp [memphyPutFreefp]
      have hsz3 : s3.mram.maxsz = s.mram.maxsz := by
        rw [← hs3, ← hsz]
        rfl
      have hiff : Freeable s3 p (pgn + 1) left ↔ Freeable s p pgn (left + 1) := by
        rw [freeable_succ_iff s p pgn left, and_iff_right hacc]
        unfold Freeable
        rw [hsz3]
        have hp3 : (∀ k, InRange (pgn + 1) left k → Present ((s3.mm p).pgd k)) ↔
            ∀ k, InRange (pgn + 1) left k → Present ((s.mm p).pgd k) :=
          forall₂_congr fun k hk => by rw [hpgd k hk]
        have hr3 : (∀ k, InRange (pgn + 1) left k → Resident ((s3.mm p).pgd k)) ↔
            ∀ k, InRange (pgn + 1) left k → Resident ((s.mm p).pgd k) :=
          forall₂_congr fun k hk => by rw [hpgd k hk]
        rw [hp3, hr3, and_iff_left (Or.inl hfree : s3.mram.freeFpList ≠ [] ∨ _)]
      rw [← hiff]
      exact ih (pgn + 1) s3
    · rw [if_pos (by decide)]
      exact .inr ⟨rfl, fun hf => hacc ((freeable_succ_iff s p pgn left).mp hf).1⟩

theorem freeLoop_setTlb (tlb : Tlb) (p : ι) (left pgn : ℕ) (s : System ι) :
    freeLoop p left pgn (s.setTlb tlb) =
      ((freeLoop p left pgn s).1, (freeLoop p left pgn s).2.setTlb tlb) := by
  induction left generalizing pgn s with
  | zero => rfl
  | succ left ih =>
    unfold freeLoop
    rw [pgGetpage_setTlb]
    generalize pgGetpage s p pgn = r
    obtain ⟨ret, fpn, s1⟩ := r
    simp only
    split_ifs
    · rfl
    · rw [← ih]
      rfl

/-- `__free` does not use the TLB. -/
theorem free_setTlb (s : System ι) (tlb : Tlb) (p : ι) (r : Fin pagingMaxSymtblSz) :
    free (s.setTlb tlb) p r = ((free s p r).1, (free s p r).2.setTlb tlb) := by
  unfold free
  simp only [System.setTlb_mm, freeLoop_setTlb]
  generalize freeLoop p (regionPages ((s.mm p).symrgtbl r))
    (pagingPgn (i32 ((s.mm p).symrgtbl r).rgStart)) s = res
  obtain ⟨ret, s1⟩ := res
  split_ifs <;> rfl

/-- `__free` succeeds for the regions that were allocated and whose pages can be fetched. -/
theorem free_status (s : System ι) (p : ι) (r : Fin pagingMaxSymtblSz) :
    (free s p r).1 = 0 ↔ ((s.mm p).symrgtbl r).rgEnd ≠ 0 ∧
      Freeable s p (pagingPgn (i32 ((s.mm p).symrgtbl r).rgStart))
        (regionPages ((s.mm p).symrgtbl r)) := by
  have h := freeLoop_status p (regionPages ((s.mm p).symrgtbl r))
    (pagingPgn (i32 ((s.mm p).symrgtbl r).rgStart)) s
  unfold free
  simp only
  by_cases h0 : ((s.mm p).symrgtbl r).rgEnd = 0
  · simp [h0]
  · simp only [h0, if_false]
    obtain ⟨hret, hf⟩ | ⟨hret, hf⟩ := h <;> simp [hret, hf, h0]

/-- Freeing: `tlbfree_data` returns 0 also where `pgfree_data` fails. -/
theorem tlbfreeData_agrees_iff (s : System ι) (p : ι) {regIndex : BitVec 32}
    (hid : regIndex.toNat < pagingMaxSymtblSz) :
    let currg := (s.mm p).symrgtbl ⟨regIndex.toNat, hid⟩
    Agrees (tlbfreeData s p regIndex) (pgfreeData s p regIndex) ↔
      currg.rgEnd ≠ 0 ∧ Freeable s p (pagingPgn (i32 currg.rgStart)) (regionPages currg) := by
  intro currg
  rw [← free_status]
  generalize htlb : tlbFreePages (s.pidInt p) (regionPages currg)
    (pagingPgn (i32 currg.rgStart)) s.tlb = tlb
  have hpath : tlbfreeData s p regIndex =
      .ok (0, (free (s.setTlb tlb) p ⟨regIndex.toNat, hid⟩).2) := by
    unfold tlbfreeData
    simp only [getSymrgById_eq hid]
    rw [← htlb]
    rfl
  have hplain : pgfreeData s p regIndex = .ok (free s p ⟨regIndex.toNat, hid⟩) := by
    unfold pgfreeData
    simp only [getSymrgById_eq hid]
  rw [hpath, hplain, free_setTlb]
  generalize free s p ⟨regIndex.toNat, hid⟩ = res
  constructor
  · rintro ⟨hstat, -⟩
    exact hstat.symm
  · intro hstat
    exact ⟨hstat.symm, tlb, rfl⟩

end Free

/-! ## `tlballoc` -/

section Alloc

/-- `alloc_pages_range` finds `n` frames: free ones, and those of the last pages of the FIFO list,
for which there are slots. -/
def Found (s : System ι) (p : ι) (n : ℕ) : Prop :=
  n - s.mram.avail.length ≤ (s.mm p).fifoPgn.length ∧
    n - s.mram.avail.length ≤ ((s.mswp 0).avail.takeWhile fun slot => decide (0 ≤ slot)).length

/-- The pages that `alloc_pages_range` evicts to get `n` frames. -/
def victims (s : System ι) (p : ι) (n : ℕ) : List ℕ :=
  (s.mm p).fifoPgn.drop ((s.mm p).fifoPgn.length - (n - s.mram.avail.length))

omit [DecidableEq ι] in
/-- The search for a slot succeeds at the first device, if its first slot is not negative. -/
theorem swapSearch_cases (s : System ι) :
    ((s.mswp 0).avail.takeWhile (fun slot => decide (0 ≤ slot)) = [] ∧
      (swapSearch pagingMaxMmswp 0 (-1) s).2.1 < 0) ∨
    ∃ slot rest, 0 ≤ slot ∧ (s.mswp 0).avail = slot :: rest ∧
      ((s.mswp 0).setFree rest).avail = rest ∧
      swapSearch pagingMaxMmswp 0 (-1) s = (0, slot, s.setSlots rest) := by
  have hnone : ∀ k, k ≠ 0 → ∀ mswp, memphyGetFreefp (mswpAdd mswp k) = none :=
    fun k hk _ => memphyGetFreefp_mswpAdd hk
  obtain ⟨hget, hav⟩ | ⟨slot, rest, hget, hl, hav, hav'⟩ := memphyGetFreefp_eq (s.mswp 0)
  · exact .inl ⟨by simp [hav], by simp [swapSearch, hget, hnone]⟩
  · by_cases h0 : 0 ≤ slot
    · exact .inr ⟨slot, rest, h0, hav, hav', by simp [swapSearch, hget, h0, System.setSlots]⟩
    · refine .inl ⟨by simp [hav, h0], ?_⟩
      simp [swapSearch, hget, h0, hnone]
      omega

/-- The last elements of a list, without and with the last one. -/
theorem drop_of_getLast? {α : Type*} {l : List α} {x : α} (h : l.getLast? = some x) {i : ℕ}
    (hi : i ≤ l.dropLast.length) : l.drop i = l.dropLast.drop i ++ [x] := by
  conv_lhs => rw [← List.dropLast_append_getLast? x h]
  exact List.drop_append_of_le_length hi

/-- Frames for `n` pages: which pages are resident afterwards. -/
theorem allocPagesRange_plain (p : ι) (raw : List ℤ) (n : ℕ) (held : List ℤ) (s : System ι) :
    let r := allocPagesRange p raw n held s
    (Found s p n ∧ r.1 = 0 ∧ r.2.1.length = held.length + n ∧ ∀ k,
      Resident ((r.2.2.mm p).pgd k) ↔ Resident ((s.mm p).pgd k) ∧ k ∉ victims s p n) ∨
    (¬ Found s p n ∧ r.1 = -3000) := by
  induction n generalizing held s with
  | zero => exact .inl ⟨by simp [Found], rfl, rfl, by simp [allocPagesRange, victims]⟩
  | succ n ih =>
    unfold allocPagesRange
    obtain ⟨hget, hav⟩ | ⟨fpn, rest, hget, hl, hav, hav'⟩ := memphyGetFreefp_eq s.mram
    · simp only [hget, findVictimPage]
      cases hlast : (s.mm p).fifoPgn.getLast? with
      | none =>
        have hnil := List.getLast?_eq_none_iff.mp hlast
        exact .inr ⟨by simp [Found, hnil, hav], rfl⟩
      | some vicpgn =>
        have hfifo := List.dropLast_append_getLast? vicpgn hlast
        simp only
        obtain ⟨hslots, hneg⟩ | ⟨slot, rest, h0, hslots, hslots', hsearch⟩ :=
          swapSearch_cases (s.setFifo p (s.mm p).fifoPgn.dropLast)
        · rw [System.setFifo_mswp] at hslots
          rw [if_pos hneg]
          exact .inr ⟨by simp [Found, hav, hslots], rfl⟩
        · rw [System.setFifo_mswp] at hslots hslots'
          simp only [hsearch, not_lt.mpr h0, if_false, swapOut_fst, System.setSlots_mm,
            System.setFifo_self]
          generalize hs2 : (swapOut ((s.setFifo p (s.mm p).fifoPgn.dropLast).setSlots rest) p
            vicpgn 0 slot).2 = s2
          have hlists := swapOut_lists (s.setFifo p (s.mm p).fifoPgn.dropLast) p vicpgn slot rest
          have hmm := swapOut_mm (s.setFifo p (s.mm p).fifoPgn.dropLast) p vicpgn slot rest
          have hfr := Frame.swapOut p (s.setFifo p (s.mm p).fifoPgn.dropLast) vicpgn slot rest
          simp only [hs2, System.setFifo_self, System.setFifo_mram] at hlists hmm
          rw [hs2] at hfr
          have hav2 : s2.mram.avail = [] :=
            (Memphy.avail_congr s.mram hfr.ramSize hlists.1).trans hav
          have hslots2 : (s2.mswp 0).avail = rest :=
            (Memphy.avail_congr ((s.mswp 0).setFree rest) hfr.swpSize hlists.2).trans hslots'
          have hlen := length_of_getLast? hlast
          have hfound : Found s2 p n ↔ Found s p (n + 1) := by
            unfold Found
            rw [hav, hav2, hslots, hslots2, hmm, hlen]
            simp [h0]
          have hvict : victims s p (n + 1) = victims s2 p n ++ [vicpgn] := by
            unfold victims
            simp only [hav, hav2, hmm, hlen, List.length_nil, Nat.sub_zero,
              Nat.add_sub_add_right]
            exact drop_of_getLast? hlast (Nat.sub_le ..)
          have hres : ∀ k, Resident ((s2.mm p).pgd k) ↔
              Resident ((s.mm p).pgd k) ∧ k ≠ vicpgn := by
            intro k
            rw [hmm]
            simp only [Function.update_apply]
            split_ifs with hk
            · simp [hk, Resident]
            · simp [hk]
          obtain ⟨h1, h2, h3, h4⟩ | ⟨h1, h2⟩ := ih (pteFpn ((s.mm p).pgd vicpgn) :: held) s2
          · refine .inl ⟨hfound.mp h1, h2, ?_, fun k => ?_⟩
            · rw [List.length_cons] at h3
              omega
            · rw [h4, hres, hvict, List.mem_append, List.mem_singleton]
              tauto
          · exact .inr ⟨fun h => h1 (hfound.mpr h), h2⟩
    · simp only [hget]
      have hfound : Found { s with mram := s.mram.setFree rest } p n ↔ Found s p (n + 1) := by
        unfold Found
        simp only [hav, hav', List.length_cons, Nat.add_sub_add_right]
      have hvict : victims { s with mram := s.mram.setFree rest } p n = victims s p (n + 1) := by
        unfold victims
        simp only [hav, hav', List.length_cons, Nat.add_sub_add_right]
      obtain ⟨h1, h2, h3, h4⟩ | ⟨h1, h2⟩ := ih (fpn :: held) { s with mram := s.mram.setFree rest }
      · refine .inl ⟨hfound.mp h1, h2, ?_, fun k => ?_⟩
        · rw [List.length_cons] at h3
          omega
        · rw [← hvict]
          exact h4 k
      · exact .inr ⟨fun h => h1 (hfound.mpr h), h2⟩

/-- The loop of `vmap_page_range` makes its pages resident. -/
theorem vmapLoop_plain (pgn left pgit : ℕ) (frames : List ℤ) (mm : Mm)
    (hlen : frames.length = left) (k : ℕ) :
    Resident ((vmapLoop pgn left pgit frames mm).pgd k) ↔
      InRange (pgn + pgit) left k ∨ Resident (mm.pgd k) := by
  induction left generalizing pgit frames mm with
  | zero =>
    have hno : ¬ InRange (pgn + pgit) 0 k := fun hk => absurd hk.2 (by have := hk.1; omega)
    simp [vmapLoop, hno]
  | succ left ih =>
    obtain ⟨fpn, frames, rfl⟩ := List.exists_cons_of_length_eq_add_one hlen
    have hin : InRange (pgn + pgit) (left + 1) k ↔
        k = pgn + pgit ∨ InRange (pgn + (pgit + 1)) left k := by
      unfold InRange
      omega
    rw [vmapLoop, ih _ _ _ (by simpa using hlen), hin]
    simp only [Function.update_apply]
    split_ifs with hk
    · simp [hk]
    · simp [hk]

/-- `vm_map_ram`: which pages are resident afterwards. -/
theorem vmMapRam_plain (s : System ι) (p : ι) (mapstart incpgnum : ℤ) (raw : List ℤ) :
    (Found s p incpgnum.toNat ∧ ∃ s', vmMapRam s p mapstart incpgnum raw = (0, s') ∧
      ∀ k, Resident ((s'.mm p).pgd k) ↔ InRange (pagingPgn mapstart) incpgnum.toNat k ∨
        (Resident ((s.mm p).pgd k) ∧ k ∉ victims s p incpgnum.toNat)) ∨
    (¬ Found s p incpgnum.toNat ∧ ∃ s', vmMapRam s p mapstart incpgnum raw = (-1, s')) := by
  have h := allocPagesRange_plain p raw incpgnum.toNat [] s
  unfold vmMapRam
  generalize allocPagesRange p raw incpgnum.toNat [] s = res at h
  obtain ⟨retAlloc, frmLst, s1⟩ := res
  obtain ⟨hf, h0, hlen, hres⟩ | ⟨hf, h0⟩ := h <;> simp only at h0 <;> subst h0
  · refine .inl ⟨hf, _, rfl, fun k => ?_⟩
    rw [← hres]
    simp only [System.setMm_self, vmapPageRange]
    exact vmapLoop_plain _ _ 0 _ _ (by simpa using hlen) k
  · exact .inr ⟨hf, _, rfl⟩

/-- The pages that `__alloc` maps if it finds frames for them, and the address that it returns. -/
structure Plan where
  base : ℕ
  count : ℕ
  addr : ℤ
  deriving DecidableEq

/-- What `__alloc` is going to map; nothing, when `get_free_vmrg_area` does not return or the
break cannot be raised. -/
def allocPlan (mm : Mm) (size : ℤ) : Option Plan :=
  match getFreeVmrgArea mm.mmap.vmFreergList (pagingPageAlignsz size) with
  | none => none
  | some (some rgnode, _) =>
    some ⟨pagingPgn (i32 rgnode.rgStart), regionPages rgnode, i32 rgnode.rgStart⟩
  | some (none, _) =>
    let incSz := pagingPageAlignsz size
    if validateOverlapVmArea mm.vmNext (i32 mm.mmap.sbrk)
        (i32 (u64 (mm.mmap.sbrk + incSz))) < 0 then none
    else some ⟨pagingPgn (i32 mm.mmap.vmEnd), ((pagingPageAlignsz incSz).tdiv pagingPagesz).toNat,
      i32 mm.mmap.sbrk⟩

omit [DecidableEq ι] in
/-- `Found` and `victims` depend on the devices and the FIFO list only. -/
theorem found_congr (s s' : System ι) {p : ι} (hram : s'.mram = s.mram) (hswp : s'.mswp = s.mswp)
    (hfifo : (s'.mm p).fifoPgn = (s.mm p).fifoPgn) (n : ℕ) :
    (Found s' p n ↔ Found s p n) ∧ victims s' p n = victims s p n := by
  simp only [Found, victims, hram, hswp, hfifo, and_true]

/-- What `__alloc` does: it fails, or carries out its plan. -/
structure Planned (s : System ι) (p : ι) (size : ℤ) (res : ℤ × ℤ × System ι) : Prop where
  intro ::
  ending : (res.1 = -1 ∧ ∀ plan, allocPlan (s.mm p) size = some plan → ¬ Found s p plan.count) ∨
    (res.1 = 0 ∧ ∃ plan, allocPlan (s.mm p) size = some plan ∧ Found s p plan.count ∧
      res.2.1 = plan.addr ∧ ∀ k, Resident ((res.2.2.mm p).pgd k) ↔
        InRange plan.base plan.count k ∨
          (Resident ((s.mm p).pgd k) ∧ k ∉ victims s p plan.count))

theorem allocFreerg_plain (s : System ι) (p : ι) (r : Fin pagingMaxSymtblSz) (size : ℤ)
    (raw : List ℤ) {rgnode : VmRg} {freerg : List VmRg}
    (hplan : allocPlan (s.mm p) size =
      some ⟨pagingPgn (i32 rgnode.rgStart), regionPages rgnode, i32 rgnode.rgStart⟩) :
    Planned s p size (allocFreerg (setFreerg s p freerg) p r rgnode raw) := by
  have hmap := vmMapRam_plain (setSymrg (setFreerg s p freerg) p r rgnode) p (i32 rgnode.rgStart)
    ((pagingPageAlignsz (i32 (rgnode.rgEnd - rgnode.rgStart))).tdiv pagingPagesz) raw
  obtain ⟨hfound, hvict⟩ := found_congr s (setSymrg (setFreerg s p freerg) p r rgnode)
    (p := p) rfl rfl (by simp) (regionPages rgnode)
  have hpgd : ((setSymrg (setFreerg s p freerg) p r rgnode).mm p).pgd = (s.mm p).pgd := by simp
  rw [← regionPages, hfound, hvict, hpgd] at hmap
  unfold allocFreerg
  obtain ⟨hf, s', heq, hres⟩ | ⟨hf, s', heq⟩ := hmap
  · simp only [heq]
    exact ⟨.inr ⟨rfl, _, hplan, hf, rfl, hres⟩⟩
  · simp only [heq]
    refine ⟨.inl ⟨rfl, fun plan hp => ?_⟩⟩
    rw [hplan] at hp
    cases hp
    exact hf

theorem allocSbrk_plain (s : System ι) (p : ι) (r : Fin pagingMaxSymtblSz) (size : ℤ)
    (raw : List ℤ) {freerg : List VmRg}
    (hno : ∀ plan, allocPlan (s.mm p) size = some plan ↔
      ¬ validateOverlapVmArea (s.mm p).vmNext (i32 (s.mm p).mmap.sbrk)
        (i32 (u64 ((s.mm p).mmap.sbrk + pagingPageAlignsz size))) < 0 ∧
      (⟨pagingPgn (i32 (s.mm p).mmap.vmEnd),
        ((pagingPageAlignsz (pagingPageAlignsz size)).tdiv pagingPagesz).toNat,
        i32 (s.mm p).mmap.sbrk⟩ : Plan) = plan) :
    Planned s p size (allocSbrk (setFreerg s p freerg) p r size raw) := by
  unfold allocSbrk incVmaLimit
  simp only [setFreerg_self]
  by_cases hv : validateOverlapVmArea (s.mm p).vmNext (i32 (s.mm p).mmap.sbrk)
      (i32 (u64 ((s.mm p).mmap.sbrk + pagingPageAlignsz size))) < 0
  · simp only [hv, if_true]
    refine ⟨.inl ⟨rfl, fun plan hp => ?_⟩⟩
    exact absurd hv ((hno plan).mp hp).1
  · simp only [hv, if_false]
    generalize hs1 : (setFreerg s p freerg).setMm p _ = s1
    have hmm : (s1.mm p).pgd = (s.mm p).pgd ∧ (s1.mm p).fifoPgn = (s.mm p).fifoPgn := by
      rw [← hs1, System.setMm_self]
      exact ⟨rfl, rfl⟩
    have hmap := vmMapRam_plain s1 p (i32 (s.mm p).mmap.vmEnd)
      ((pagingPageAlignsz (pagingPageAlignsz size)).tdiv pagingPagesz) raw
    obtain ⟨hfound, hvict⟩ := found_congr s s1 (p := p) (by rw [← hs1]; rfl)
      (by rw [← hs1]; rfl) hmm.2
      ((pagingPageAlignsz (pagingPageAlignsz size)).tdiv pagingPagesz).toNat
    rw [hfound, hvict, hmm.1] at hmap
    obtain ⟨hf, s', heq, hres⟩ | ⟨hf, s', heq⟩ := hmap
    · simp only [heq, lt_self_iff_false, if_false]
      refine ⟨.inr ?_⟩
      split_ifs <;> refine ⟨rfl, _, (hno _).mpr ⟨hv, rfl⟩, hf, rfl, fun k => ?_⟩
      · simpa using hres k
      · simpa using hres k
    · simp only [heq]
      refine ⟨.inl ⟨rfl, fun plan hp => ?_⟩⟩
      rw [← ((hno plan).mp hp).2]
      exact hf

/-- `__alloc` in any state. -/
theorem alloc_plain (s : System ι) (p : ι) (r : Fin pagingMaxSymtblSz) (size : ℤ)
    (raw : List ℤ) :
    (alloc s p r size raw = .error .diverges ∧ allocPlan (s.mm p) size = none) ∨
      ∃ res, alloc s p r size raw = .ok res ∧ Planned s p size res := by
  cases hget : getFreeVmrgArea (s.mm p).mmap.vmFreergList (pagingPageAlignsz size) with
  | none => exact .inl ⟨by simp [alloc, hget], by simp [allocPlan, hget]⟩
  | some found =>
    obtain ⟨newrg, freerg⟩ := found
    cases newrg with
    | some rgnode =>
      refine .inr ⟨_, by simp only [alloc, hget]; rfl, allocFreerg_plain s p r size raw ?_⟩
      simp only [allocPlan, hget]
    | none =>
      refine .inr ⟨_, by simp only [alloc, hget]; rfl,
        allocSbrk_plain s p r size raw fun plan => ?_⟩
      simp only [allocPlan, hget]
      split_ifs with hv <;> simp [hv]

/-! ### Caching the pages -/

theorem tlbCachePages_others (p : ι) (left pgn : ℕ) (s : System ι) {k : ℕ} (hk : k < pgn) :
    ((tlbCachePages p left pgn s).2.mm p).pgd k = (s.mm p).pgd k := by
  induction left generalizing pgn s with
  | zero => rfl
  | succ left ih =>
    have h := (pgGetpage_others s p pgn).2 k (by omega)
    unfold tlbCachePages
    simp only
    split_ifs
    · exact h
    · exact h
    · rw [ih _ _ (by omega)]
      exact h

/-- The loop of `tlballoc` succeeds and leaves the memory alone exactly if its pages are
resident. -/
theorem tlbCachePages_iff (p : ι) (left pgn : ℕ) (s : System ι) :
    ((tlbCachePages p left pgn s).1 = 0 ∧ SameMemory s (tlbCachePages p left pgn s).2) ↔
      ∀ k, InRange pgn left k → Resident ((s.mm p).pgd k) := by
  induction left generalizing pgn s with
  | zero =>
    refine iff_of_true ⟨rfl, s.tlb, rfl⟩ fun k hk => absurd hk.2 ?_
    have := hk.1
    omega
  | succ left ih =>
    have hin : ∀ k, InRange pgn (left + 1) k ↔ k = pgn ∨ InRange (pgn + 1) left k := by
      intro k
      unfold InRange
      omega
    simp only [hin, forall_eq_or_imp]
    unfold tlbCachePages
    obtain ⟨hp, hr⟩ | ⟨hres, hr⟩ | ⟨hp, hsw, hav, hr⟩ | ⟨hp, hsw, fpn, rest, hl, hav, hr⟩ :=
      pgGetpage_cases s p pgn <;> simp only [hr]
    · simp [Resident, hp]
    · have h0 := pteFpn_nonneg ((s.mm p).pgd pgn)
      simp only [ne_eq, not_true_eq_false, if_false, show pteFpn ((s.mm p).pgd pgn) ≠ -1 by omega,
        hres, true_and]
      exact ih (pgn + 1)
        (s.setTlb (tlbCacheWrite s.tlb (s.pidInt p) pgn (pteFpn ((s.mm p).pgd pgn))))
    · simp [Resident, hsw]
    · -- the page is fetched, so its entry differs from the one before
      refine iff_of_false ?_ fun h => h.1.2 hsw
      rintro ⟨-, tlb, hmem⟩
      generalize hs1 : swapIn (s.setFrames rest) p pgn (pteSwptyp ((s.mm p).pgd pgn))
        (pagingSwp ((s.mm p).pgd pgn)) fpn = s1 at hmem
      have hnew : ¬ Swapped ((s1.mm p).pgd pgn) := by
        rw [← hs1, swapIn_mm]
        simp [mmSwappedIn]
      refine hnew ?_
      simp only [ne_eq, not_true_eq_false, if_false] at hmem
      split_ifs at hmem
      · obtain rfl : s1 = s.setTlb tlb := hmem
        exact hsw
      · have hpte := tlbCachePages_others p left (pgn + 1)
          { s1 with tlb := tlbCacheWrite s1.tlb (s1.pidInt p) pgn fpn } (Nat.lt_succ_self pgn)
        rw [hmem] at hpte
        change (s.mm p).pgd pgn = (s1.mm p).pgd pgn at hpte
        rw [← hpte]
        exact hsw

/-- Allocating: the pages that `tlballoc` fetches for the TLB are pages that `__alloc` maps, or
resident pages that it does not evict. -/
theorem tlballoc_agrees_iff (s : System ι) (p : ι) (size : BitVec 32) {regIndex : BitVec 32}
    (hid : regIndex.toNat < pagingMaxSymtblSz) (raw : List ℤ) :
    Agrees (tlballoc s p size regIndex raw) (pgalloc s p size regIndex raw) ↔
      ∀ plan, allocPlan (s.mm p) (argInt size) = some plan → Found s p plan.count →
        ∀ k, InRange (pagingPgn plan.addr) (pagingPageAlignszU size / pagingPagesz) k →
          InRange plan.base plan.count k ∨
            (Resident ((s.mm p).pgd k) ∧ k ∉ victims s p plan.count) := by
  unfold tlballoc pgalloc
  simp only [allocRgid_eq hid]
  obtain ⟨heq, hplan⟩ | ⟨⟨ret, addr, s1⟩, heq, hend⟩ :=
    alloc_plain s p ⟨regIndex.toNat, hid⟩ (argInt size) raw
  · simp only [heq, hplan]
    exact iff_of_true rfl (by simp)
  · simp only [heq]
    obtain ⟨rfl, hno⟩ | ⟨rfl, plan, hplan, hf, rfl, hres⟩ := hend.ending
    · refine iff_of_true ⟨rfl, s1.tlb, rfl⟩ fun plan hp hf => absurd hf (hno plan hp)
    · simp only [ne_eq, not_true_eq_false, if_false, hplan, Option.some.injEq, forall_eq', hf,
        forall_true_left]
      simp only at hres
      have hiff := tlbCachePages_iff p (pagingPageAlignszU size / pagingPagesz)
        (pagingPgn plan.addr) s1
      simp only [hres] at hiff
      exact hiff

end Alloc

/-! ## The four entry points -/

/-- When the TLB path and the plain path agree, for a region id, an offset, a size and a data byte.
-/
theorem paths_agree_iff {s : System ι} (h : Coherent s) (p : ι) {rgid : BitVec 32}
    (hid : rgid.toNat < pagingMaxSymtblSz) (offset size : BitVec 32) (data : Byte)
    (raw : List ℤ) :
    let currg := (s.mm p).symrgtbl ⟨rgid.toNat, hid⟩
    (AgreesRead (tlbread s p rgid offset) (pgread s p rgid offset) ↔
      OutOfRange currg offset ∨
      (currg.rgStart < currg.rgEnd ↔ Fetchable s p (pagingPgn (rgAddr currg offset)))) ∧
    (Agrees (tlbwrite s p data rgid offset) (pgwrite s p data rgid offset) ↔
      OutOfRange currg offset ∨ Fetchable s p (pagingPgn (rgAddr currg offset))) ∧
    (Agrees (tlbfreeData s p rgid) (pgfreeData s p rgid) ↔
      currg.rgEnd ≠ 0 ∧ Freeable s p (pagingPgn (i32 currg.rgStart)) (regionPages currg)) ∧
    (Agrees (tlballoc s p size rgid raw) (pgalloc s p size rgid raw) ↔
      ∀ plan, allocPlan (s.mm p) (argInt size) = some plan → Found s p plan.count →
        ∀ k, InRange (pagingPgn plan.addr) (pagingPageAlignszU size / pagingPagesz) k →
          InRange plan.base plan.count k ∨
            (Resident ((s.mm p).pgd k) ∧ k ∉ victims s p plan.count)) :=
  ⟨tlbread_agrees_iff h hid offset, tlbwrite_agrees_iff h data hid offset,
    tlbfreeData_agrees_iff s p hid, tlballoc_agrees_iff s p size hid raw⟩

/-- After one `ALLOC`: reading and writing beyond the end of a region, freeing the region allocated,
and allocating two pages. -/
theorem paths_agree_allocated : ∃ s,
    ((memLts (Config.two 512 256)).guard BreaksOk).Run
      [⟨0, ⟨.ALLOC, 256, 0, 0⟩, [], ⟨0, none⟩⟩] s ∧
      AgreesRead (tlbread s 0 0 300) (pgread s 0 0 300) ∧
      Agrees (tlbwrite s 0 9 0 300) (pgwrite s 0 9 0 300) ∧
      Agrees (tlbfreeData s 0 0) (pgfreeData s 0 0) ∧
      Agrees (tlballoc s 0 300 0 []) (pgalloc s 0 300 0 []) := by
  obtain ⟨s, hrun, htest⟩ := exists_run_of_runAll (Config.two 512 256) BreaksOk
    [⟨0, ⟨.ALLOC, 256, 0, 0⟩, [], ⟨0, none⟩⟩]
    (fun s => decide ((s.mm 0).symrgtbl 0 = ⟨0, 256⟩ ∧ Resident ((s.mm 0).pgd 0) ∧
      allocPlan (s.mm 0) (argInt 300) = some ⟨1, 2, 256⟩)) (by decide +kernel)
  obtain ⟨hrg, hres, hplan⟩ := of_decide_eq_true htest
  have hrg' : (s.mm 0).symrgtbl ⟨(0 : BitVec 32).toNat, by decide⟩ = ⟨0, 256⟩ := hrg
  obtain ⟨h1, h2, h3, h4⟩ := paths_agree_iff (runInv_of_run hrun).tlb.coherent 0
    (show (0 : BitVec 32).toNat < pagingMaxSymtblSz by decide) 300 300 9 []
  rw [hrg'] at h1 h2 h3
  refine ⟨s, hrun, h1.mpr (.inl (by decide)), h2.mpr (.inl (by decide)), h3.mpr ⟨by decide, ?_⟩,
    h4.mpr fun plan hp _ k hk => .inl ?_⟩
  · have hall : ∀ k, InRange (pagingPgn (i32 (0 : ℕ))) (regionPages ⟨0, 256⟩) k → k = 0 := by
      intro k hk
      have h0 : pagingPgn (i32 (0 : ℕ)) = 0 ∧ regionPages ⟨0, 256⟩ = 1 := by decide
      have := hk.2
      omega
    exact ⟨fun k hk => hall k hk ▸ hres.1, .inl fun k hk => hall k hk ▸ hres⟩
  · rw [hplan] at hp
    cases hp
    have h0 : pagingPgn 256 = 1 ∧ pagingPageAlignszU 300 / pagingPagesz = 2 := by decide
    rwa [h0.1, h0.2] at hk

/-- After one `ALLOC`, `tlbread` reads the byte at address 0 through region 7, which was never
allocated, and returns 0, where `pgread` returns -1. -/
theorem not_agrees_cleared : ∃ s,
    ((memLts (Config.two 512 0)).guard BreaksOk).Run
      [⟨0, ⟨.ALLOC, 256, 0, 0⟩, [], ⟨0, none⟩⟩] s ∧ Coherent s ∧
      ¬ AgreesRead (tlbread s 0 7 0) (pgread s 0 7 0) := by
  obtain ⟨s, hrun, htest⟩ := exists_run_of_runAll (Config.two 512 0) BreaksOk
    [⟨0, ⟨.ALLOC, 256, 0, 0⟩, [], ⟨0, none⟩⟩]
    (fun s => match tlbread s 0 7 0, pgread s 0 7 0 with
      | .ok r, .ok r' => decide (r.1 ≠ r'.1)
      | _, _ => false) (by decide +kernel)
  refine ⟨s, hrun, (runInv_of_run hrun).tlb.coherent, ?_⟩
  generalize tlbread s 0 7 0 = x at htest
  generalize pgread s 0 7 0 = y at htest
  cases x with
  | error e => cases htest
  | ok r =>
    cases y with
    | error e => cases htest
    | ok r' => exact fun hag => of_decide_eq_true htest hag.1

end OsSim.Mem
