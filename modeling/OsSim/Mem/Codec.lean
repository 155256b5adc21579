import OsSim.Mem.Memphy
import OsSim.Mem.TlbCache

/-!
# What the encodings can hold

An entry of the page table has 13 bits for a frame number and 21 bits for a swap
offset, an entry of the TLB has 13 bits for a frame number. `read_config`
(`src/os.c`, lines 217–225) reads the sizes of the devices and does not compare
them with anything, and `PAGING_SWP` reads 9 of the 21 bits of an offset.

Results:
* `pteRoundTrip_iff`: what `pg_getpage` decodes of an entry is what has been
  written if and only if the offset is below 512.
* `tlbRoundTrip_of_fits`: the fields of an entry of the TLB come back as they have
  been written, and a lookup tells the keys apart.
* `framesFit_iff`: the frames of a RAM can all be told apart if and only if there
  are at most 8192 of them.
-/

namespace OsSim.Mem

/-! ## Entries of the page table -/

/-- `pte_set_fpn` and `pte_set_swap` on the entry `pte`, and what `pg_getpage` decodes. -/
structure PteRoundTrip (pte : Pte) (fpn swptyp swpoff : ℕ) : Prop where
  resident : Resident (pteSetFpn pte fpn)
  fpn_eq : pteFpn (pteSetFpn pte fpn) = fpn
  present : Present (pteSetSwap pte swptyp swpoff)
  swapped : Swapped (pteSetSwap pte swptyp swpoff)
  swptyp_eq : pteSwptyp (pteSetSwap pte swptyp swpoff) = swptyp
  swpoff_eq : pagingSwp (pteSetSwap pte swptyp swpoff) = swpoff

/-- Whatever the entry was, all fields come back if and only if the swap offset fits into the 9
bits of `PAGING_SWP_MASK`. -/
theorem pteRoundTrip_iff (pte : Pte) {fpn swptyp swpoff : ℕ} (hfpn : fpn < 2 ^ 13)
    (htyp : swptyp < 2 ^ 5) (hoff : swpoff < 2 ^ 21) :
    PteRoundTrip pte fpn swptyp swpoff ↔ swpoff < 512 := by
  have hswp := swp_pteSetSwap_mod pte swptyp swpoff
  constructor
  · intro h
    have := h.swpoff_eq
    omega
  · intro h
    exact {
      resident := resident_pteSetFpn pte fpn
      fpn_eq := fpn_pteSetFpn pte (by omega) (by omega)
      present := present_pteSetSwap pte swptyp swpoff
      swapped := swapped_pteSetSwap pte swptyp swpoff
      swptyp_eq := swptyp_pteSetSwap pte swpoff htyp
      swpoff_eq := by omega }

/-- The largest frame number, the largest device, and the largest offset that comes back. -/
theorem pteRoundTrip_largest : PteRoundTrip 0xFFFFFFFF 8191 31 511 :=
  (pteRoundTrip_iff 0xFFFFFFFF (by norm_num) (by norm_num) (by norm_num)).mpr (by norm_num)

/-- Offset 512 comes back as 0. -/
theorem not_pteRoundTrip_512 : ¬ PteRoundTrip 0 0 0 512 := by
  intro h
  exact absurd h.swpoff_eq (by decide)

/-! ## Entries of the TLB -/

/-- `set_TLB_entry(entry, …)` where `*entry` was `old`: the code assigns 0 to it first. -/
def setTlbEntryOn (_old : TlbEntry) (valid pgnum pid frmnum : ℤ) : TlbEntry :=
  setTlbEntry valid pgnum pid frmnum

/-- Page number, process and frame fit into the fields of an entry, the process also into the
`int` that it is compared with. -/
structure TlbFits (pgnum pid frmnum : ℕ) : Prop where
  pgnum_lt : pgnum < 2 ^ 14
  pid_lt : pid < 2 ^ 31
  frmnum_lt : frmnum < 2 ^ 13

/-- All valid entries have been written from values that fit. -/
def Tlb.Written (tlb : Tlb) : Prop :=
  ∀ entry ∈ tlb.entries, entry.Valid →
    ∃ pgnum pid frmnum, TlbFits pgnum pid frmnum ∧ entry = setTlbEntry 1 pgnum pid frmnum

/-- `set_TLB_entry` on an entry that was `old`, the macros that read it, and the comparison of
`tlb_cache_read`, whose arguments are any two `int`s. -/
structure TlbRoundTrip (old : TlbEntry) (pgnum pid frmnum : ℕ) : Prop where
  valid_eq : tlbValid (setTlbEntryOn old 1 pgnum pid frmnum) = 1
  tag_eq : (tlbTag (setTlbEntryOn old 1 pgnum pid frmnum)).toNat = pgnum
  pid_eq : (tlbPid (setTlbEntryOn old 1 pgnum pid frmnum)).toNat = pid
  frmnum_eq : (tlbFrmnum (setTlbEntryOn old 1 pgnum pid frmnum)).toNat = frmnum
  cleared_valid : tlbValid (setTlbValid (setTlbEntryOn old 1 pgnum pid frmnum) 0) = 0
  cleared_tag : tlbTag (setTlbValid (setTlbEntryOn old 1 pgnum pid frmnum) 0) =
    tlbTag (setTlbEntryOn old 1 pgnum pid frmnum)
  cleared_pid : tlbPid (setTlbValid (setTlbEntryOn old 1 pgnum pid frmnum) 0) =
    tlbPid (setTlbEntryOn old 1 pgnum pid frmnum)
  cleared_frmnum : tlbFrmnum (setTlbValid (setTlbEntryOn old 1 pgnum pid frmnum) 0) =
    tlbFrmnum (setTlbEntryOn old 1 pgnum pid frmnum)
  distinct : ∀ old' pgnum' pid' frmnum', TlbFits pgnum' pid' frmnum' →
    setTlbEntryOn old' 1 pgnum' pid' frmnum' = setTlbEntryOn old 1 pgnum pid frmnum →
      pgnum' = pgnum ∧ pid' = pid ∧ frmnum' = frmnum
  hit : ∀ pid' pgnum' : BitVec 32,
    tlbHit pid'.toInt pgnum'.toInt (setTlbEntryOn old 1 pgnum pid frmnum) = true ↔
      pid'.toInt = pid ∧ pgnum'.toInt = pgnum
  lookup : ∀ tlb : Tlb, tlb.Written → tlbCacheRead tlb pid pgnum = frmnum →
    setTlbEntryOn old 1 pgnum pid frmnum ∈ tlb.entries

section

variable {pgnum pid frmnum : ℕ}

theorem TlbFits.tag_eq (h : TlbFits pgnum pid frmnum) :
    (tlbTag (setTlbEntry 1 pgnum pid frmnum)).toNat = pgnum := by
  have hmod := tlbTag_setTlbEntry_mod 1 pgnum pid frmnum
  have := h.pgnum_lt
  omega

theorem TlbFits.pid_eq (h : TlbFits pgnum pid frmnum) :
    (tlbPid (setTlbEntry 1 pgnum pid frmnum)).toNat = pid := by
  have hmod := tlbPid_setTlbEntry_mod 1 pgnum pid frmnum
  have := h.pid_lt
  omega

theorem TlbFits.frmnum_eq (h : TlbFits pgnum pid frmnum) :
    (tlbFrmnum (setTlbEntry 1 pgnum pid frmnum)).toNat = frmnum := by
  have hmod := tlbFrmnum_setTlbEntry_mod 1 pgnum pid frmnum
  have := h.frmnum_lt
  omega

/-- The word determines what it has been written from. -/
theorem TlbFits.unique (h : TlbFits pgnum pid frmnum) {pgnum' pid' frmnum' : ℕ}
    (h' : TlbFits pgnum' pid' frmnum')
    (heq : setTlbEntry 1 pgnum' pid' frmnum' = setTlbEntry 1 pgnum pid frmnum) :
    pgnum' = pgnum ∧ pid' = pid ∧ frmnum' = frmnum := by
  refine ⟨?_, ?_, ?_⟩
  · rw [← h'.tag_eq, heq, h.tag_eq]
  · rw [← h'.pid_eq, heq, h.pid_eq]
  · rw [← h'.frmnum_eq, heq, h.frmnum_eq]

/-- A field and an `int` that is sign extended to 64 bits: a negative one equals no field. -/
theorem eq_ofInt_toInt {field : BitVec 64} {n : ℕ} {x : BitVec 32} (hn : n < 2 ^ 31)
    (hfield : field.toNat = n) : field = BitVec.ofInt 64 x.toInt ↔ x.toInt = n := by
  have hx := BitVec.toInt_lt (x := x)
  have hx' := BitVec.le_toInt (x := x)
  rw [← BitVec.toNat_inj, BitVec.toNat_ofInt, hfield]
  omega

theorem TlbFits.hit_iff (h : TlbFits pgnum pid frmnum) (pid' pgnum' : BitVec 32) :
    tlbHit pid'.toInt pgnum'.toInt (setTlbEntry 1 pgnum pid frmnum) = true ↔
      pid'.toInt = pid ∧ pgnum'.toInt = pgnum := by
  have hpgnum := h.pgnum_lt
  have hvalid : (setTlbEntry 1 pgnum pid frmnum).Valid := by
    rw [TlbEntry.Valid, tlbValid_setTlbEntry]
    decide
  rw [tlbHit_iff, TlbEntry.key, tlbKey, Prod.mk.injEq, eq_ofInt_toInt h.pid_lt h.pid_eq,
    eq_ofInt_toInt (by omega) h.tag_eq]
  exact and_iff_right hvalid

/-- Clearing the valid bit leaves the fields beside it. -/
theorem getval_setTlbValid {mask : BitVec 64} (h : tlbEntryValidMask &&& mask = 0#64)
    (entry : TlbEntry) (value : ℤ) (offst : ℕ) :
    BitField.getval (setTlbValid entry value) mask offst = BitField.getval entry mask offst :=
  BitField.getval_setval_of_disjoint h ..

end

/-- What has been written from values that fit is read back, whatever the entry was before. -/
theorem tlbRoundTrip_of_fits (old : TlbEntry) {pgnum pid frmnum : ℕ}
    (h : TlbFits pgnum pid frmnum) : TlbRoundTrip old pgnum pid frmnum where
  valid_eq := tlbValid_setTlbEntry pgnum pid frmnum
  tag_eq := h.tag_eq
  pid_eq := h.pid_eq
  frmnum_eq := h.frmnum_eq
  cleared_valid := tlbValid_setTlbValid_zero _
  cleared_tag := getval_setTlbValid (by decide) ..
  cleared_pid := getval_setTlbValid (by decide) ..
  cleared_frmnum := getval_setTlbValid (by decide) ..
  distinct _ _ _ _ h' heq := h.unique h' heq
  hit pid' pgnum' := h.hit_iff pid' pgnum'
  lookup tlb hw hread := by
    have hfound : 0 ≤ tlbCacheRead tlb pid pgnum := by omega
    obtain ⟨entry, hmem, hv, hkey, hfrm⟩ := tlbCacheRead_hit hfound
    obtain ⟨pgnum', pid', frmnum', h', rfl⟩ := hw entry hmem hv
    rw [TlbEntry.key, tlbKey, Prod.mk.injEq, ← BitVec.toNat_inj, ← BitVec.toNat_inj, h'.pid_eq,
      h'.tag_eq, BitVec.toNat_ofInt, BitVec.toNat_ofInt] at hkey
    have hpid := h.pid_lt
    have hpgnum := h.pgnum_lt
    have hfrm' := h'.frmnum_eq
    rw [show pgnum = pgnum' by omega, show pid = pid' by omega, show frmnum = frmnum' by omega]
    exact hmem

/-- The largest page number, process and frame, over an entry that was all ones. -/
theorem tlbRoundTrip_largest : TlbRoundTrip (BitVec.allOnes 64) 16383 2147483647 8191 :=
  tlbRoundTrip_of_fits (BitVec.allOnes 64) ⟨by norm_num, by norm_num, by norm_num⟩

/-! ## The frames of a RAM -/

/-- What becomes of the frame numbers that are free after `init_memphy`, when they are written to
an entry of the page table and to an entry of the TLB. -/
structure FramesFit (memramsz : ℤ) : Prop where
  pte : ∀ fpn ∈ (initMemphy Memphy.zero [] memramsz 1).freeFpList, ∀ pte,
    pteFpn (pteSetFpn pte fpn) = fpn
  tlb : ∀ fpn ∈ (initMemphy Memphy.zero [] memramsz 1).freeFpList, ∀ pgnum pid,
    ((tlbFrmnum (setTlbEntry 1 pgnum pid fpn)).toNat : ℤ) = fpn
  distinct : ∀ fpn ∈ (initMemphy Memphy.zero [] memramsz 1).freeFpList,
    ∀ fpn' ∈ (initMemphy Memphy.zero [] memramsz 1).freeFpList, ∀ pte pte',
      pteFpn (pteSetFpn pte fpn) = pteFpn (pteSetFpn pte' fpn') → fpn = fpn'

theorem numfp_le_iff (memramsz : ℤ) : numfp memramsz ≤ 8192 ↔ memramsz < 2097408 := by
  unfold numfp
  obtain h | h := le_or_gt 0 memramsz
  · rw [Int.tdiv_eq_ediv_of_nonneg h]
    push_cast
    omega
  · have hneg : memramsz.tdiv pagingPagesz = -((-memramsz) / 256) := by
      rw [← Int.tdiv_eq_ediv_of_nonneg (by omega), Int.neg_tdiv, neg_neg]
      rfl
    omega

/-- The frames can be told apart if and only if there are at most 8192 of them, that is 2 MB and
less than a page more. -/
theorem framesFit_iff (memramsz : ℤ) : FramesFit memramsz ↔ memramsz < 2097408 := by
  rw [← numfp_le_iff]
  constructor
  · intro h
    by_contra hlt
    -- frame 8192 is taken for frame 0
    have hmem : (8192 : ℤ) ∈ (initMemphy Memphy.zero [] memramsz 1).freeFpList :=
      mem_initMemphy.mpr ⟨by norm_num, by omega⟩
    have hfpn := h.pte 8192 hmem 0
    rw [fpn_pteSetFpn_mod] at hfpn
    omega
  · intro hle
    have hlt : ∀ fpn ∈ (initMemphy Memphy.zero [] memramsz 1).freeFpList, 0 ≤ fpn ∧ fpn < 8192 :=
      fun fpn hmem => ⟨(mem_initMemphy.mp hmem).1, by have := (mem_initMemphy.mp hmem).2; omega⟩
    have hpte : ∀ fpn ∈ (initMemphy Memphy.zero [] memramsz 1).freeFpList, ∀ pte,
        pteFpn (pteSetFpn pte fpn) = fpn :=
      fun fpn hmem pte => fpn_pteSetFpn pte (hlt fpn hmem).1 (hlt fpn hmem).2
    refine ⟨hpte, fun fpn hmem pgnum pid => ?_, fun fpn hmem fpn' hmem' pte pte' heq => ?_⟩
    · rw [tlbFrmnum_setTlbEntry_mod]
      have := hlt fpn hmem
      omega
    · rw [hpte fpn hmem, hpte fpn' hmem'] at heq
      exact heq

/-- With 8193 frames, frame 8192 is read back as frame 0. -/
theorem not_framesFit_8193 : ¬ FramesFit (8193 * 256) := by
  intro h
  have hfpn := h.pte 8192 (mem_initMemphy.mpr (by decide)) 0
  revert hfpn
  decide

end OsSim.Mem
