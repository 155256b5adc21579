import OsSim.Mem.Bits
import Mathlib.Data.List.Range
import Mathlib.Data.List.Nodup

/-!
# Physical memory devices

Models of `src/mm-memphy.c` and of the page copy `__swap_cp_page`
(`src/mm.c`, lines 258–280). The storage of a device is a function of the
address, so an access outside the device reads and writes cells of its own.
The list of free frames is a `List` of the frame numbers, head first.

Results:
* `memphyGetFreefp_eq`: when a frame is taken.
* `swapCpPage_eq`: on random access devices the copy sets the 256 cells of the
  destination frame to those of the source frame and changes nothing else.
* `mem_initMemphy`, `nodup_initMemphy`: the free list of a new device.
-/

namespace OsSim.Mem

/-- `struct memphy_struct` (`used_fp_list` is never used). -/
structure Memphy where
  storage : ℤ → Byte
  maxsz : ℤ
  rdmflg : ℤ
  cursor : ℤ
  freeFpList : List ℤ

/-- A `memphy_struct` all of whose bytes are 0. -/
def Memphy.zero : Memphy :=
  { storage := fun _ => 0, maxsz := 0, rdmflg := 0, cursor := 0, freeFpList := [] }

/-! ## Reading and writing -/

/-- `MEMPHY_mv_csr` (lines 18–30). -/
def memphyMvCsr (mp : Memphy) (offset : ℤ) : Memphy :=
  { mp with cursor := (fun c => (c + 1).tmod mp.maxsz)^[(min offset mp.maxsz).toNat] 0 }

/-- `MEMPHY_seq_read` (lines 38–50): the status, the value if one is assigned, the device. -/
def memphySeqRead (mp : Memphy) (addr : ℤ) : ℤ × Option Byte × Memphy :=
  if mp.rdmflg = 0 then (-1, none, mp)
  else (0, some (mp.storage addr), memphyMvCsr mp addr)

/-- `MEMPHY_read` (lines 58–69). -/
def memphyRead (mp : Memphy) (addr : ℤ) : ℤ × Option Byte × Memphy :=
  if mp.rdmflg ≠ 0 then (0, some (mp.storage addr), mp) else memphySeqRead mp addr

/-- `MEMPHY_seq_write` (lines 77–90). -/
def memphySeqWrite (mp : Memphy) (addr : ℤ) (value : Byte) : ℤ × Memphy :=
  if mp.rdmflg = 0 then (-1, mp)
  else
    let mp := memphyMvCsr mp addr
    (0, { mp with storage := Function.update mp.storage addr value })

/-- `MEMPHY_write` (lines 98–113). -/
def memphyWrite (mp : Memphy) (addr : ℤ) (data : Byte) : ℤ × Memphy :=
  if mp.rdmflg ≠ 0 then (0, { mp with storage := Function.update mp.storage addr data })
  else memphySeqWrite mp addr data

/-! ## Free frames -/

/-- `MEMPHY_get_freefp` (lines 147–168): the frame and the device, or `none` for -1. -/
def memphyGetFreefp (mp : Memphy) : Option (ℤ × Memphy) :=
  if mp.maxsz ≤ 0 then none
  else
    match mp.freeFpList with
    | [] => none
    | fpn :: fpNext => some (fpn, { mp with freeFpList := fpNext })

/-- `MEMPHY_put_freefp` (lines 187–200). -/
def memphyPutFreefp (mp : Memphy) (fpn : ℤ) : Memphy :=
  { mp with freeFpList := fpn :: mp.freeFpList }

/-- Putting back the frames of a list, head first. -/
def memphyPutAll (mp : Memphy) (frames : List ℤ) : Memphy := frames.foldl memphyPutFreefp mp

/-- `MEMPHY_format` (lines 119–145). The loop ends every node but the first with `NULL`;
`next` is the list found at the uninitialised `fp_next` of a first node that stays alone. -/
def memphyFormat (mp : Memphy) (next : List ℤ) : ℤ × Memphy :=
  let numfp := mp.maxsz.tdiv pagingPagesz
  if numfp ≤ 0 then (-1, mp)
  else
    (0, { mp with freeFpList :=
            (List.range numfp.toNat).map Int.ofNat ++ (if numfp = 1 then next else []) })

/-- `init_memphy` (lines 207–227) on a struct whose bytes were `raw`. -/
def initMemphy (raw : Memphy) (next : List ℤ) (maxSize randomflg : ℤ) : Memphy :=
  let mp := { raw with storage := fun _ => 0, maxsz := maxSize }
  let mp := (memphyFormat mp next).2
  let mp := { mp with rdmflg := if randomflg ≠ 0 then 1 else 0 }
  if mp.rdmflg = 0 then { mp with cursor := 0 } else mp

/-! ## Copying a page -/

/-- The body of the loop of `__swap_cp_page` on source and destination device. -/
def swapCpCell (srcfpn dstfpn : ℤ) (mps : Memphy × Memphy) (cellidx : ℕ) : Memphy × Memphy :=
  let addrsrc := srcfpn * pagingPagesz + cellidx
  let addrdst := dstfpn * pagingPagesz + cellidx
  let (_, data, mpsrc) := memphyRead mps.1 addrsrc
  let (_, mpdst) := memphyWrite mps.2 addrdst (data.getD 0)
  (mpsrc, mpdst)

/-- `__swap_cp_page` (`mm.c`, lines 258–280) between two different devices. -/
def swapCpPage (mpsrc : Memphy) (srcfpn : ℤ) (mpdst : Memphy) (dstfpn : ℤ) : Memphy × Memphy :=
  (List.range pagingPagesz).foldl (swapCpCell srcfpn dstfpn) (mpsrc, mpdst)

/-! ## Frames are taken and put back -/

theorem memphyGetFreefp_eq_none {mp : Memphy} :
    memphyGetFreefp mp = none ↔ mp.maxsz ≤ 0 ∨ mp.freeFpList = [] := by
  unfold memphyGetFreefp
  split_ifs with hm
  · simp [hm]
  · cases mp.freeFpList <;> simp [hm]

/-- The device with another list of free frames. -/
def Memphy.setFree (mp : Memphy) (frames : List ℤ) : Memphy := { mp with freeFpList := frames }

section

variable (mp : Memphy) (frames : List ℤ)

@[simp] theorem Memphy.setFree_freeFpList : (mp.setFree frames).freeFpList = frames := rfl
@[simp] theorem Memphy.setFree_maxsz : (mp.setFree frames).maxsz = mp.maxsz := rfl
@[simp] theorem Memphy.setFree_rdmflg : (mp.setFree frames).rdmflg = mp.rdmflg := rfl
@[simp] theorem Memphy.setFree_storage : (mp.setFree frames).storage = mp.storage := rfl

end

/-- The frames that `MEMPHY_get_freefp` would return one after the other. -/
def Memphy.avail (mp : Memphy) : List ℤ := if mp.maxsz ≤ 0 then [] else mp.freeFpList

/-- `MEMPHY_get_freefp` takes the first of them. -/
theorem memphyGetFreefp_eq (mp : Memphy) :
    (memphyGetFreefp mp = none ∧ mp.avail = []) ∨
      ∃ fpn rest, memphyGetFreefp mp = some (fpn, mp.setFree rest) ∧
        mp.freeFpList = fpn :: rest ∧ mp.avail = fpn :: rest ∧ (mp.setFree rest).avail = rest := by
  unfold memphyGetFreefp Memphy.avail Memphy.setFree
  split_ifs with hm
  · exact .inl ⟨rfl, rfl⟩
  · cases mp.freeFpList with
    | nil => exact .inl ⟨rfl, rfl⟩
    | cons fpn rest => exact .inr ⟨fpn, rest, rfl, rfl, rfl, rfl⟩

theorem Memphy.freeFpList_of_avail {mp : Memphy} {fpn : ℤ} {rest : List ℤ}
    (h : mp.avail = fpn :: rest) : mp.freeFpList = fpn :: rest := by
  unfold avail at h
  split_ifs at h
  exact h

theorem Memphy.avail_congr {mp' : Memphy} (mp : Memphy) (hm : mp'.maxsz = mp.maxsz)
    (hl : mp'.freeFpList = mp.freeFpList) : mp'.avail = mp.avail := by
  rw [avail, avail, hm, hl]

theorem memphyPutAll_eq (mp : Memphy) (frames : List ℤ) :
    memphyPutAll mp frames = mp.setFree (frames.reverse ++ mp.freeFpList) := by
  unfold memphyPutAll Memphy.setFree
  induction frames generalizing mp with
  | nil => rfl
  | cons f frames ih =>
    rw [List.foldl_cons, ih]
    simp [memphyPutFreefp]

/-! ## The copy -/

/-- Frame `fpn` of a device. -/
def Memphy.frame (mp : Memphy) (fpn : ℤ) : Fin 256 → Byte :=
  fun off => mp.storage (fpn * 256 + (off : ℕ))

theorem memphyRead_random {mp : Memphy} (h : mp.rdmflg ≠ 0) (addr : ℤ) :
    memphyRead mp addr = (0, some (mp.storage addr), mp) := by
  rw [memphyRead, if_pos h]

theorem memphyWrite_random {mp : Memphy} (h : mp.rdmflg ≠ 0) (addr : ℤ) (data : Byte) :
    memphyWrite mp addr data =
      (0, { mp with storage := Function.update mp.storage addr data }) := by
  rw [memphyWrite, if_pos h]

theorem memphyWrite_fields (mp : Memphy) (addr : ℤ) (data : Byte) :
    ∃ st c, (memphyWrite mp addr data).2 = { mp with storage := st, cursor := c } := by
  unfold memphyWrite memphySeqWrite memphyMvCsr
  split_ifs <;> exact ⟨_, _, rfl⟩

/-- The storage of `mpdst` after `n` cells of a frame have been copied. -/
def cellsCopied (mpsrc : Memphy) (srcfpn : ℤ) (mpdst : Memphy) (dstfpn : ℤ) (n : ℕ) (a : ℤ) :
    Byte :=
  if dstfpn * 256 ≤ a ∧ a < dstfpn * 256 + n then
    mpsrc.storage (srcfpn * 256 + (a - dstfpn * 256))
  else mpdst.storage a

/-- The first `n` turns of the copy loop. -/
theorem swapCpCell_foldl {mpsrc mpdst : Memphy} (hs : mpsrc.rdmflg ≠ 0) (hd : mpdst.rdmflg ≠ 0)
    (srcfpn dstfpn : ℤ) (n : ℕ) :
    (List.range n).foldl (swapCpCell srcfpn dstfpn) (mpsrc, mpdst) =
      (mpsrc, { mpdst with storage := cellsCopied mpsrc srcfpn mpdst dstfpn n }) := by
  induction n with
  | zero =>
    have h0 : cellsCopied mpsrc srcfpn mpdst dstfpn 0 = mpdst.storage := by
      funext a
      rw [cellsCopied, if_neg (by push_cast; omega)]
    rw [h0]
    rfl
  | succ n ih =>
    rw [List.range_succ, List.foldl_append, ih, List.foldl_cons, List.foldl_nil]
    simp only [swapCpCell, memphyRead_random hs]
    rw [memphyWrite_random (by exact hd)]
    simp only [Option.getD_some, Prod.mk.injEq, true_and, Memphy.mk.injEq, and_true]
    funext a
    rw [Function.update_apply, cellsCopied, cellsCopied]
    push_cast
    -- the cell written in this turn, the cells written before it, the others
    by_cases h1 : a = dstfpn * 256 + n
    · rw [if_pos h1, if_pos (by omega), h1]
      congr 1
      ring
    · rw [if_neg h1]
      by_cases h2 : dstfpn * 256 ≤ a ∧ a < dstfpn * 256 + n
      · rw [if_pos h2, if_pos (by omega)]
      · rw [if_neg h2, if_neg (by omega)]

theorem swapCpPage_eq {mpsrc mpdst : Memphy} (hs : mpsrc.rdmflg ≠ 0) (hd : mpdst.rdmflg ≠ 0)
    (srcfpn dstfpn : ℤ) :
    swapCpPage mpsrc srcfpn mpdst dstfpn =
      (mpsrc, { mpdst with storage := cellsCopied mpsrc srcfpn mpdst dstfpn 256 }) :=
  swapCpCell_foldl hs hd srcfpn dstfpn 256

/-- Copying changes the storage and the cursor only. -/
theorem swapCpPage_fields (mpsrc : Memphy) (srcfpn : ℤ) (mpdst : Memphy) (dstfpn : ℤ) :
    let r := swapCpPage mpsrc srcfpn mpdst dstfpn
    (∃ c, r.1 = { mpsrc with cursor := c }) ∧
      ∃ st c, r.2 = { mpdst with storage := st, cursor := c } := by
  unfold swapCpPage
  generalize List.range pagingPagesz = cells
  -- the source and destination after some turns
  suffices h : ∀ mps : Memphy × Memphy, (∃ c, mps.1 = { mpsrc with cursor := c }) →
      (∃ st c, mps.2 = { mpdst with storage := st, cursor := c }) →
      (∃ c, (cells.foldl (swapCpCell srcfpn dstfpn) mps).1 = { mpsrc with cursor := c }) ∧
        ∃ st c, (cells.foldl (swapCpCell srcfpn dstfpn) mps).2 =
          { mpdst with storage := st, cursor := c } from
    h _ ⟨_, rfl⟩ ⟨_, _, rfl⟩
  induction cells with
  | nil => exact fun mps h1 h2 => ⟨h1, h2⟩
  | cons cell cells ih =>
    rintro ⟨mps, mpd⟩ ⟨c, hc⟩ ⟨st, d, hd⟩
    rw [List.foldl_cons]
    simp only at hc hd
    subst hc hd
    refine ih _ ?_ ?_
    · simp only [swapCpCell, memphyRead, memphySeqRead, memphyMvCsr]
      split_ifs <;> exact ⟨_, rfl⟩
    · simp only [swapCpCell, memphyWrite, memphySeqWrite, memphyMvCsr]
      split_ifs <;> exact ⟨_, _, rfl⟩

/-- The destination frame holds what the source frame held. -/
theorem frame_swapCpPage_target {mpsrc : Memphy} (hs : mpsrc.rdmflg ≠ 0) (mpdst : Memphy)
    (hd : mpdst.rdmflg ≠ 0) (srcfpn dstfpn : ℤ) :
    (swapCpPage mpsrc srcfpn mpdst dstfpn).2.frame dstfpn = mpsrc.frame srcfpn := by
  funext off
  rw [swapCpPage_eq hs hd]
  simp only [Memphy.frame, cellsCopied]
  rw [if_pos (by push_cast; omega)]
  congr 1
  ring

/-- The other frames of the destination device keep their content. -/
theorem frame_swapCpPage_of_ne {mpsrc : Memphy} (hs : mpsrc.rdmflg ≠ 0) (mpdst : Memphy)
    (hd : mpdst.rdmflg ≠ 0) (srcfpn : ℤ) {dstfpn fpn : ℤ} (h : fpn ≠ dstfpn) :
    (swapCpPage mpsrc srcfpn mpdst dstfpn).2.frame fpn = mpdst.frame fpn := by
  funext off
  rw [swapCpPage_eq hs hd]
  simp only [Memphy.frame, cellsCopied]
  rw [if_neg (by push_cast; omega)]

-- the loop is not to be unrolled by unification
attribute [irreducible] swapCpPage

/-! ## New devices -/

/-- The number of frames of a device of `maxsz` bytes. -/
def numfp (maxsz : ℤ) : ℤ := maxsz.tdiv pagingPagesz

theorem maxsz_pos_of_numfp {maxsz : ℤ} (h : 0 < numfp maxsz) : 0 < maxsz := by
  by_contra hno
  have hneg : 0 ≤ (-maxsz).tdiv pagingPagesz :=
    Int.tdiv_nonneg (by omega) (by norm_num [pagingPagesz])
  rw [Int.neg_tdiv, ← numfp] at hneg
  omega

theorem freeFpList_initMemphy (maxSize randomflg : ℤ) :
    (initMemphy Memphy.zero [] maxSize randomflg).freeFpList =
      (List.range (numfp maxSize).toNat).map Int.ofNat := by
  have hlist : (memphyFormat { Memphy.zero with maxsz := maxSize } []).2.freeFpList =
      (List.range (numfp maxSize).toNat).map Int.ofNat := by
    unfold memphyFormat numfp
    simp only
    split_ifs with h <;> simp [Memphy.zero]
    omega
  rw [← hlist]
  unfold initMemphy
  simp only
  split_ifs <;> rfl

theorem mem_initMemphy {maxSize randomflg fpn : ℤ} :
    fpn ∈ (initMemphy Memphy.zero [] maxSize randomflg).freeFpList ↔
      0 ≤ fpn ∧ fpn < numfp maxSize := by
  rw [freeFpList_initMemphy, List.mem_map]
  constructor
  · rintro ⟨n, hn, rfl⟩
    rw [List.mem_range] at hn
    simp only [Int.ofNat_eq_natCast]
    omega
  · rintro ⟨h0, h1⟩
    exact ⟨fpn.toNat, List.mem_range.mpr (by omega), Int.toNat_of_nonneg h0⟩

theorem nodup_initMemphy (maxSize randomflg : ℤ) :
    (initMemphy Memphy.zero [] maxSize randomflg).freeFpList.Nodup := by
  rw [freeFpList_initMemphy]
  exact List.nodup_range.map Int.ofNat_injective

@[simp] theorem maxsz_initMemphy (raw : Memphy) (next : List ℤ) (maxSize randomflg : ℤ) :
    (initMemphy raw next maxSize randomflg).maxsz = maxSize := by
  unfold initMemphy memphyFormat
  simp only
  split_ifs <;> rfl

theorem rdmflg_initMemphy (raw : Memphy) (next : List ℤ) (maxSize : ℤ) :
    (initMemphy raw next maxSize 1).rdmflg ≠ 0 := by
  unfold initMemphy
  simp

end OsSim.Mem
