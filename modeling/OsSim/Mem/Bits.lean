import OsSim.Lib.BitField
import Mathlib.Tactic.NormNum

/-!
# Page table entries and addresses

The bit layouts of `include/bitops.h` and `include/mm.h`, and the three
functions of `src/mm.c` that write a page table entry (lines 18–80). A C `int`
is a `ℤ`, an `unsigned long` a `ℕ` below `2^64`; `i32` and `u64` are the
conversions. A page table entry is a 32-bit word.

Results:
* `fpn_pteSetFpn`, `swptyp_pteSetSwap`, `swp_pteSetSwap`: what `pg_getpage`
  decodes from an entry that `pte_set_fpn` or `pte_set_swap` wrote. The swap
  offset comes back modulo 512 only: it is written to the 21 bits of `SWPOFF`,
  and read with `PAGING_SWP_MASK`, which is 9 bits wide.
* `pagingPgn_eq`, `pagingOffst_eq`: page number and offset of an address.
-/

namespace OsSim.Mem

open BitField

/-- `BYTE`. -/
abbrev Byte := BitVec 8

/-- A page table entry, `uint32_t`. -/
abbrev Pte := BitVec 32

/-! ## Integer conversions -/

/-- Conversion to a 32-bit `int`. -/
def i32 (x : ℤ) : ℤ := (BitVec.ofInt 32 x).toInt

/-- Conversion to `unsigned long`. -/
def u64 (x : ℤ) : ℕ := (BitVec.ofInt 64 x).toNat

theorem i32_eq (x : ℤ) : i32 x = (x + 2 ^ 31) % 2 ^ 32 - 2 ^ 31 := by
  unfold i32
  rw [BitVec.toInt_ofInt, Int.bmod_def]
  split_ifs <;> omega

theorem i32_of_range {x : ℤ} (h0 : -2 ^ 31 ≤ x) (h1 : x < 2 ^ 31) : i32 x = x := by
  rw [i32_eq]
  omega

theorem u64_cast (x : ℤ) : (u64 x : ℤ) = x % 2 ^ 64 := by
  unfold u64
  rw [BitVec.toNat_ofInt]
  omega

theorem u64_natCast {n : ℕ} (h : n < 2 ^ 64) : u64 (n : ℤ) = n := by
  have := u64_cast n
  omega

/-! ## `bitops.h` -/

/-- `BIT(nr)`. -/
def bit (nr : ℕ) : BitVec 32 := 1#32 <<< nr

/-- `NBITS2(n)`. -/
def nbits2 (n : ℕ) : ℕ := if n &&& 2 ≠ 0 then 1 else 0

/-- `NBITS4(n)`. -/
def nbits4 (n : ℕ) : ℕ := if n &&& 0xC ≠ 0 then 2 + nbits2 (n >>> 2) else nbits2 n

/-- `NBITS8(n)`. -/
def nbits8 (n : ℕ) : ℕ := if n &&& 0xF0 ≠ 0 then 4 + nbits4 (n >>> 4) else nbits4 n

/-- `NBITS16(n)`. -/
def nbits16 (n : ℕ) : ℕ := if n &&& 0xFF00 ≠ 0 then 8 + nbits8 (n >>> 8) else nbits8 n

/-- `NBITS32(n)`. -/
def nbits32 (n : ℕ) : ℕ := if n &&& 0xFFFF0000 ≠ 0 then 16 + nbits16 (n >>> 16) else nbits16 n

/-- `NBITS(n)`. -/
def nbits (n : ℕ) : ℕ := if n = 0 then 0 else nbits32 n

/-! ## `mm.h` -/

/-- `PAGING_PAGESZ`. -/
abbrev pagingPagesz : ℕ := 256

/-- `PAGING_PAGE_ALIGNSZ(sz)` computed in `int`. -/
def pagingPageAlignsz (sz : ℤ) : ℤ := 
  i32 ((i32 (sz + pagingPagesz - 1)).tdiv pagingPagesz * pagingPagesz)

/-- `PAGING_PAGE_ALIGNSZ(sz)` computed in `uint32_t`. -/
def pagingPageAlignszU (sz : BitVec 32) : ℕ := (sz + 255#32).toNat / pagingPagesz * pagingPagesz

/-- `PAGING_MAX_PGN`: the number of entries of a page table. -/
abbrev pagingMaxPgn : ℕ := 16384

def presentMask : BitVec 32 := bit 31
def swappedMask : BitVec 32 := bit 30
def dirtyMask : BitVec 32 := bit 28

/-- `PAGING_PTE_FPN_MASK`. -/
def fpnMask : BitVec 32 := genmask 32 12 0

/-- `PAGING_PTE_SWPTYP_MASK`. -/
def swptypMask : BitVec 32 := genmask 32 4 0

/-- `PAGING_PTE_SWPOFF_MASK`. -/
def swpoffMask : BitVec 32 := genmask 32 25 5

/-- `PAGING_SWPFPN_OFFSET`. -/
abbrev pagingSwpfpnOffset : ℕ := 5

/-- `PAGING_MEMSWPSZ`. -/
abbrev pagingMemswpsz : ℕ := 1 <<< 14

/-- `PAGING_SWP_MASK`: from bit `PAGING_SWPFPN_OFFSET` to bit `NBITS(PAGING_MEMSWPSZ) - 1`. -/
def pagingSwpMask : BitVec 32 := genmask 32 (nbits pagingMemswpsz - 1) pagingSwpfpnOffset

/-- `PAGING_SWP(pte)`: the swap slot as `pg_getpage` decodes it. -/
def pagingSwp (pte : Pte) : ℤ := (getval pte pagingSwpMask pagingSwpfpnOffset).toNat

/-- `PAGING_PAGE_PRESENT(pte)`. -/
def pagingPagePresent (pte : Pte) : BitVec 32 := pte &&& presentMask

/-- `GETVAL(pte, PAGING_PTE_FPN_MASK, PAGING_PTE_FPN_LOBIT)`. -/
def pteFpn (pte : Pte) : ℤ := (getval pte fpnMask 0).toNat

/-- `GETVAL(pte, PAGING_PTE_SWPTYP_MASK, PAGING_PTE_SWPTYP_LOBIT)`. -/
def pteSwptyp (pte : Pte) : ℕ := (getval pte swptypMask 0).toNat

/-- `PAGING_PGN(x)`: bits `8 … 21` of an address. -/
def pagingPgn (x : ℤ) : ℕ :=
  (getval (BitVec.ofInt 32 x) (genmask 32 21 (nbits pagingPagesz)) (nbits pagingPagesz)).toNat

/-- `PAGING_OFFST(x)`: bits `0 … 7` of an address. -/
def pagingOffst (x : ℤ) : ℤ :=
  (getval (BitVec.ofInt 32 x) (genmask 32 (nbits pagingPagesz - 1) 0) 0).toNat

/-! ## Writing an entry (`mm.c`) -/

/-- `init_pte` (lines 18–48): the status and the entry. -/
def initPte (pte : Pte) (pre fpn _drt swp swptyp swpoff : ℤ) : ℤ × Pte :=
  if pre ≠ 0 then
    if swp = 0 then
      if fpn = 0 then (-1, pte)
      else
        let pte := setbit pte presentMask
        let pte := clrbit pte swappedMask
        let pte := clrbit pte dirtyMask
        (0, setval pte (BitVec.ofInt 32 fpn) fpnMask 0)
    else
      let pte := setbit pte presentMask
      let pte := setbit pte swappedMask
      let pte := clrbit pte dirtyMask
      let pte := setval pte (BitVec.ofInt 32 swptyp) swptypMask 0
      (0, setval pte (BitVec.ofInt 32 swpoff) swpoffMask 5)
  else (0, pte)

/-- `pte_set_swap` (lines 56–65). -/
def pteSetSwap (pte : Pte) (swptyp swpoff : ℤ) : Pte :=
  let pte := setbit pte presentMask
  let pte := setbit pte swappedMask
  let pte := setval pte (BitVec.ofInt 32 swptyp) swptypMask 0
  setval pte (BitVec.ofInt 32 swpoff) swpoffMask 5

/-- `pte_set_fpn` (lines 72–80). -/
def pteSetFpn (pte : Pte) (fpn : ℤ) : Pte :=
  let pte := setbit pte presentMask
  let pte := clrbit pte swappedMask
  setval pte (BitVec.ofInt 32 fpn) fpnMask 0

/-! ## The state of an entry -/

/-- `PAGING_PAGE_PRESENT(pte)` is not 0. -/
def Present (pte : Pte) : Prop := pagingPagePresent pte ≠ 0

/-- `GETVAL(pte, PAGING_PTE_SWAPPED_MASK, 0) > 0`. -/
def Swapped (pte : Pte) : Prop := 0 < (getval pte swappedMask 0).toNat

/-- The page is in a RAM frame. -/
def Resident (pte : Pte) : Prop := Present pte ∧ ¬ Swapped pte

instance (pte : Pte) : Decidable (Present pte) := inferInstanceAs (Decidable (_ ≠ _))
instance (pte : Pte) : Decidable (Swapped pte) := inferInstanceAs (Decidable (_ < _))
instance (pte : Pte) : Decidable (Resident pte) := inferInstanceAs (Decidable (_ ∧ _))

theorem present_iff (pte : Pte) : Present pte ↔ pte &&& presentMask ≠ 0#32 := Iff.rfl

theorem swapped_iff (pte : Pte) : Swapped pte ↔ pte &&& swappedMask ≠ 0#32 := by
  unfold Swapped getval
  rw [BitVec.ushiftRight_zero, Nat.pos_iff_ne_zero, ne_eq, ne_eq, ← BitVec.toNat_inj]
  rfl

@[simp] theorem present_pteSetFpn (pte : Pte) (fpn : ℤ) : Present (pteSetFpn pte fpn) := by
  rw [present_iff]
  unfold pteSetFpn
  simp only
  rw [and_setval_of_disjoint (by decide), and_clrbit_of_disjoint (by decide), and_setbit_self]
  decide

@[simp] theorem not_swapped_pteSetFpn (pte : Pte) (fpn : ℤ) : ¬ Swapped (pteSetFpn pte fpn) := by
  rw [swapped_iff, not_not]
  unfold pteSetFpn
  simp only
  rw [and_setval_of_disjoint (by decide), and_clrbit_self]

@[simp] theorem resident_pteSetFpn (pte : Pte) (fpn : ℤ) : Resident (pteSetFpn pte fpn) :=
  ⟨present_pteSetFpn pte fpn, not_swapped_pteSetFpn pte fpn⟩

@[simp] theorem present_pteSetSwap (pte : Pte) (swptyp swpoff : ℤ) :
    Present (pteSetSwap pte swptyp swpoff) := by
  rw [present_iff]
  unfold pteSetSwap
  simp only
  rw [and_setval_of_disjoint (by decide), and_setval_of_disjoint (by decide),
    and_setbit_of_disjoint (by decide), and_setbit_self]
  decide

@[simp] theorem swapped_pteSetSwap (pte : Pte) (swptyp swpoff : ℤ) :
    Swapped (pteSetSwap pte swptyp swpoff) := by
  rw [swapped_iff]
  unfold pteSetSwap
  simp only
  rw [and_setval_of_disjoint (by decide), and_setval_of_disjoint (by decide), and_setbit_self]
  decide

@[simp] theorem not_present_clrbit (pte : Pte) : ¬ Present (clrbit pte presentMask) := by
  rw [present_iff, not_not, and_clrbit_self]

/-! ## What is read back -/

/-- `pte_set_fpn` keeps the low 13 bits of the frame number. -/
theorem fpn_pteSetFpn_mod (pte : Pte) (fpn : ℤ) : pteFpn (pteSetFpn pte fpn) = fpn % 8192 := by
  unfold pteFpn pteSetFpn
  simp only [fpnMask]
  rw [getval_setval_toNat (by norm_num) (by norm_num), BitVec.toNat_ofInt]
  omega

theorem fpn_pteSetFpn {fpn : ℤ} (pte : Pte) (h0 : 0 ≤ fpn) (h1 : fpn < 8192) :
    pteFpn (pteSetFpn pte fpn) = fpn := by
  rw [fpn_pteSetFpn_mod]
  omega

theorem swptyp_pteSetSwap (pte : Pte) (swpoff : ℤ) {swptyp : ℕ} (h : swptyp < 32) :
    pteSwptyp (pteSetSwap pte swptyp swpoff) = swptyp := by
  unfold pteSwptyp pteSetSwap
  simp only
  rw [getval_setval_of_disjoint (by decide)]
  unfold swptypMask
  rw [getval_setval_toNat (by norm_num) (by norm_num), BitVec.toNat_ofInt]
  omega

theorem pagingSwpMask_eq : pagingSwpMask = genmask 32 13 5 := by decide

/-- The slot that `pg_getpage` decodes is the one that was written modulo 512. -/
theorem swp_pteSetSwap_mod (pte : Pte) (swptyp swpoff : ℤ) :
    pagingSwp (pteSetSwap pte swptyp swpoff) = swpoff % 512 := by
  have hread : ∀ v : BitVec 32, (getval v (genmask 32 13 5) 5).toNat =
      (getval v (genmask 32 25 5) 5).toNat % 512 := by
    intro v
    rw [getval_genmask_toNat (by norm_num) (by norm_num),
      getval_genmask_toNat (by norm_num) (by norm_num)]
    omega
  unfold pagingSwp pteSetSwap pagingSwpfpnOffset
  simp only
  rw [pagingSwpMask_eq, hread]
  unfold swpoffMask
  rw [getval_setval_toNat (by norm_num) (by norm_num), BitVec.toNat_ofInt]
  omega

theorem swp_pteSetSwap {swpoff : ℤ} (pte : Pte) (swptyp : ℤ) (h0 : 0 ≤ swpoff)
    (h1 : swpoff < 512) : pagingSwp (pteSetSwap pte swptyp swpoff) = swpoff := by
  rw [swp_pteSetSwap_mod]
  omega

theorem pteFpn_nonneg (pte : Pte) : 0 ≤ pteFpn pte := by
  unfold pteFpn
  omega

theorem pteFpn_lt (pte : Pte) : pteFpn pte < 8192 := by
  unfold pteFpn fpnMask
  rw [getval_genmask_toNat (by norm_num) (by norm_num)]
  omega

theorem pagingPgn_eq (x : ℤ) : pagingPgn x = ((x % 2 ^ 22) / 256).toNat := by
  unfold pagingPgn
  rw [show nbits pagingPagesz = 8 by decide, getval_genmask_toNat (by norm_num) (by norm_num),
    BitVec.toNat_ofInt]
  omega

theorem pagingOffst_eq (x : ℤ) : pagingOffst x = x % 256 := by
  unfold pagingOffst
  rw [show nbits pagingPagesz = 8 by decide, getval_genmask_toNat (by norm_num) (by norm_num),
    BitVec.toNat_ofInt]
  omega

theorem pagingPgn_lt (x : ℤ) : pagingPgn x < pagingMaxPgn := by
  rw [pagingPgn_eq, pagingMaxPgn]
  omega

end OsSim.Mem
