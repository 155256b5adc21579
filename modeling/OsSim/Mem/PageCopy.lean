import OsSim.Lib.CopyLoop
import OsSim.Mem.Device
import OsSim.Mem.System

/-!
# Copying a page

`__swap_cp_page` (`src/mm.c`, lines 258–280) with its devices given as pointers:
source and destination may be the same device, and the same frame of it. An
access outside of a device does not return. The addresses of a device are `int`s, so
inside of it they do not overflow.

Results:
* `swapCpCellAt_eq`: one turn of the loop on the cells of all devices.
* `swapCpPageAt_copies`: the copy writes one page and nothing else.
* `swapCpPageAt_eq_swapCpPage`: it is the copy of the memory system.
-/

namespace OsSim.Mem

open CopyLoop

variable {δ : Type*} [DecidableEq δ]

attribute [ext] Memphy

instance Memphy.decidableInside (mp : Memphy) (addr : ℤ) : Decidable (mp.Inside addr) :=
  inferInstanceAs (Decidable (_ ∧ _))

/-! ## The loop -/

/-- The body of the loop on the devices that the pointers point to. -/
def swapCpCellAt (mpsrc : δ) (srcfpn : ℤ) (mpdst : δ) (dstfpn : ℤ) (devs : δ → Memphy)
    (cellidx : ℕ) : Except Fault (δ → Memphy) :=
  let addrsrc := srcfpn * pagingPagesz + cellidx
  let addrdst := dstfpn * pagingPagesz + cellidx
  if ¬ (devs mpsrc).Inside addrsrc then .error .outOfBounds
  else
    let (_, data, mp) := memphyRead (devs mpsrc) addrsrc
    let devs := Function.update devs mpsrc mp
    if ¬ (devs mpdst).Inside addrdst then .error .outOfBounds
    else
      let (_, mp) := memphyWrite (devs mpdst) addrdst (data.getD 0)
      .ok (Function.update devs mpdst mp)

/-- `__swap_cp_page`; the status is always 0. -/
def swapCpPageAt (devs : δ → Memphy) (mpsrc : δ) (srcfpn : ℤ) (mpdst : δ) (dstfpn : ℤ) :
    Except Fault (δ → Memphy) :=
  (List.range pagingPagesz).foldlM (swapCpCellAt mpsrc srcfpn mpdst dstfpn) devs

/-! ## What a copy is for -/

/-- All 256 cells of a page are cells of the device. -/
def Memphy.PageInside (mp : Memphy) (fpn : ℤ) : Prop := 0 ≤ fpn ∧ (fpn + 1) * 256 ≤ mp.maxsz

/-- The cell is one of frame `fpn`. -/
def InPage (fpn a : ℤ) : Prop := fpn * 256 ≤ a ∧ a < fpn * 256 + 256

/-- Frame `dstfpn` of `mpdst` holds what frame `srcfpn` of `mpsrc` held, and all else is as it
was, on these and on all other devices. -/
structure PageCopied (mpsrc : δ) (srcfpn : ℤ) (mpdst : δ) (dstfpn : ℤ)
    (devs devs' : δ → Memphy) : Prop where
  target : (devs' mpdst).frame dstfpn = (devs mpsrc).frame srcfpn
  others : ∀ d a, ¬ (d = mpdst ∧ InPage dstfpn a) → (devs' d).storage a = (devs d).storage a
  freeFpList : ∀ d, (devs' d).freeFpList = (devs d).freeFpList
  cursor : ∀ d, (devs' d).cursor = (devs d).cursor
  maxsz : ∀ d, (devs' d).maxsz = (devs d).maxsz
  rdmflg : ∀ d, (devs' d).rdmflg = (devs d).rdmflg

/-! ## The cells of all devices as one memory -/

/-- Cell `cellidx` of frame `fpn`. -/
def pageCell (d : δ) (fpn : ℤ) (cellidx : ℕ) : δ × ℤ := (d, fpn * pagingPagesz + cellidx)

def cellsOf (devs : δ → Memphy) (c : δ × ℤ) : Byte := (devs c.1).storage c.2

/-- The devices with other cells. -/
def withCells (devs : δ → Memphy) (m : δ × ℤ → Byte) (d : δ) : Memphy :=
  { devs d with storage := fun a => m (d, a) }

theorem inside_pageCell {mp : Memphy} {fpn : ℤ} (h : mp.PageInside fpn) {cellidx : ℕ}
    (hcell : cellidx < pagingPagesz) : mp.Inside (fpn * pagingPagesz + cellidx) := by
  obtain ⟨h0, h1⟩ := h
  unfold pagingPagesz at hcell ⊢
  constructor
  · push_cast
    omega
  · push_cast
    omega

section

variable {devs : δ → Memphy} {mpsrc mpdst : δ} {srcfpn dstfpn : ℤ}

/-- A turn copies one cell. -/
theorem swapCpCellAt_eq (hs : (devs mpsrc).rdmflg ≠ 0) (hd : (devs mpdst).rdmflg ≠ 0)
    {cellidx : ℕ} (hsrc : (devs mpsrc).Inside (srcfpn * pagingPagesz + cellidx))
    (hdst : (devs mpdst).Inside (dstfpn * pagingPagesz + cellidx)) :
    swapCpCellAt mpsrc srcfpn mpdst dstfpn devs cellidx =
      .ok (withCells devs
        (copyTurn (pageCell mpsrc srcfpn) (pageCell mpdst dstfpn) (cellsOf devs) cellidx)) := by
  unfold swapCpCellAt
  simp only [memphyRead_random hs, Function.update_eq_self, Option.getD_some,
    memphyWrite_random hd]
  rw [if_neg (not_not.mpr hsrc), if_neg (not_not.mpr hdst), Except.ok.injEq]
  funext d
  by_cases h : d = mpdst
  · rw [h, Function.update_self, withCells, Memphy.mk.injEq]
    refine ⟨?_, rfl, rfl, rfl, rfl⟩
    funext a
    rw [copyTurn, Function.update_apply, Function.update_apply]
    simp only [pageCell, Prod.mk.injEq, true_and]
    rfl
  · rw [Function.update_of_ne h, withCells]
    have hcells : ∀ a, copyTurn (pageCell mpsrc srcfpn) (pageCell mpdst dstfpn) (cellsOf devs)
        cellidx (d, a) = cellsOf devs (d, a) :=
      fun a => Function.update_of_ne (fun heq => h (congrArg Prod.fst heq)) ..
    simp only [hcells]
    rfl

/-- Any turns of the loop, on any cells. -/
theorem swapCpCellAt_foldlM (hs : (devs mpsrc).rdmflg ≠ 0) (hd : (devs mpdst).rdmflg ≠ 0)
    (hsrc : (devs mpsrc).PageInside srcfpn) (hdst : (devs mpdst).PageInside dstfpn)
    (turns : List ℕ) (hturns : ∀ i ∈ turns, i < pagingPagesz) (m : δ × ℤ → Byte) :
    turns.foldlM (swapCpCellAt mpsrc srcfpn mpdst dstfpn) (withCells devs m) =
      .ok (withCells devs (copyLoop (pageCell mpsrc srcfpn) (pageCell mpdst dstfpn) m turns)) := by
  induction turns generalizing m with
  | nil =>
    rw [copyLoop_nil]
    rfl
  | cons i turns ih =>
    have hi := hturns i List.mem_cons_self
    have hs' : (withCells devs m mpsrc).rdmflg ≠ 0 := hs
    have hd' : (withCells devs m mpdst).rdmflg ≠ 0 := hd
    rw [List.foldlM_cons, swapCpCellAt_eq hs' hd' (inside_pageCell hsrc hi)
      (inside_pageCell hdst hi), copyLoop_cons]
    exact ih (fun j hj => hturns j (List.mem_cons_of_mem i hj)) _

/-- The copy is a copy loop on the cells of all devices. -/
theorem swapCpPageAt_eq (hs : (devs mpsrc).rdmflg ≠ 0) (hd : (devs mpdst).rdmflg ≠ 0)
    (hsrc : (devs mpsrc).PageInside srcfpn) (hdst : (devs mpdst).PageInside dstfpn) :
    swapCpPageAt devs mpsrc srcfpn mpdst dstfpn =
      .ok (withCells devs (copyLoop (pageCell mpsrc srcfpn) (pageCell mpdst dstfpn) (cellsOf devs)
        (List.range pagingPagesz))) :=
  swapCpCellAt_foldlM hs hd hsrc hdst _ (fun _ hi => List.mem_range.mp hi) (cellsOf devs)

theorem pageCopied_copyLoop (devs : δ → Memphy) (mpsrc : δ) (srcfpn : ℤ) (mpdst : δ)
    (dstfpn : ℤ) :
    PageCopied mpsrc srcfpn mpdst dstfpn devs
      (withCells devs (copyLoop (pageCell mpsrc srcfpn) (pageCell mpdst dstfpn) (cellsOf devs)
        (List.range pagingPagesz))) where
  target := by
    funext off
    have hapart : Apart (pageCell mpsrc srcfpn) (pageCell mpdst dstfpn) (List.range pagingPagesz) :=
      apart_block mpsrc mpdst srcfpn dstfpn pagingPagesz
    exact hapart.copyLoop (cellsOf devs) off (List.mem_range.mpr off.isLt)
  others d a hother := by
    refine copyLoop_of_ne (cellsOf devs) fun i hi heq => hother ?_
    rw [pageCell, Prod.mk.injEq] at heq
    rw [List.mem_range] at hi
    unfold pagingPagesz at hi heq
    obtain ⟨hdev, ha⟩ := heq
    push_cast at ha
    exact ⟨hdev.symm, by unfold InPage; omega⟩
  freeFpList _ := rfl
  cursor _ := rfl
  maxsz _ := rfl
  rdmflg _ := rfl

omit [DecidableEq δ] in
/-- The cells of the destination device. -/
theorem PageCopied.storage_eq {devs' : δ → Memphy}
    (h : PageCopied mpsrc srcfpn mpdst dstfpn devs devs') :
    (devs' mpdst).storage = cellsCopied (devs mpsrc) srcfpn (devs mpdst) dstfpn 256 := by
  funext a
  rw [cellsCopied]
  split_ifs with hin
  · push_cast at hin
    have hcell := congrFun h.target ⟨(a - dstfpn * 256).toNat, by omega⟩
    unfold Memphy.frame at hcell
    have hoff : ((a - dstfpn * 256).toNat : ℤ) = a - dstfpn * 256 := Int.toNat_of_nonneg (by omega)
    simp only [hoff] at hcell
    rw [← hcell]
    congr 1
    ring
  · exact h.others mpdst a fun hpage => hin (by push_cast; exact hpage.2)

end

/-! ## The copy -/

/-- Between random access devices, or within one, the copy writes one page and nothing else. -/
theorem swapCpPageAt_copies {devs : δ → Memphy} {mpsrc mpdst : δ} {srcfpn dstfpn : ℤ}
    (hs : (devs mpsrc).rdmflg ≠ 0) (hd : (devs mpdst).rdmflg ≠ 0)
    (hsrc : (devs mpsrc).PageInside srcfpn) (hdst : (devs mpdst).PageInside dstfpn) :
    ∃ devs', swapCpPageAt devs mpsrc srcfpn mpdst dstfpn = .ok devs' ∧
      PageCopied mpsrc srcfpn mpdst dstfpn devs devs' :=
  ⟨_, swapCpPageAt_eq hs hd hsrc hdst, pageCopied_copyLoop devs mpsrc srcfpn mpdst dstfpn⟩

/-- A device of two pages: the bytes of page 0 are all different, and those of page 1 are 0. -/
def Memphy.numbered : Memphy :=
  { initMemphy Memphy.zero [] 512 1 with
    storage := fun a => if a < 256 then BitVec.ofInt 8 (a + 1) else 0 }

/-- Within that device, from page 0 to page 1. -/
theorem swapCpPageAt_copies_within :
    ∃ devs', swapCpPageAt (fun _ : Unit => Memphy.numbered) () 0 () 1 = .ok devs' ∧
      PageCopied () 0 () 1 (fun _ : Unit => Memphy.numbered) devs' ∧
        (devs' ()).frame 1 2 = 3 := by
  obtain ⟨devs', heq, hcopied⟩ := @swapCpPageAt_copies Unit _ (fun _ => Memphy.numbered) () () 0 1
    (by decide) (by decide) ⟨by decide, by decide⟩ ⟨by decide, by decide⟩
  exact ⟨devs', heq, hcopied, (congrFun hcopied.target 2).trans (by decide)⟩

/-- The copy is the one of the memory system, which has a value for each of the two devices. -/
theorem swapCpPageAt_eq_swapCpPage {devs : δ → Memphy} {mpsrc mpdst : δ} {srcfpn dstfpn : ℤ}
    (hs : (devs mpsrc).rdmflg ≠ 0) (hd : (devs mpdst).rdmflg ≠ 0)
    (hsrc : (devs mpsrc).PageInside srcfpn) (hdst : (devs mpdst).PageInside dstfpn) :
    swapCpPageAt devs mpsrc srcfpn mpdst dstfpn =
      .ok (Function.update
        (Function.update devs mpsrc (swapCpPage (devs mpsrc) srcfpn (devs mpdst) dstfpn).1)
        mpdst (swapCpPage (devs mpsrc) srcfpn (devs mpdst) dstfpn).2) := by
  have h := pageCopied_copyLoop devs mpsrc srcfpn mpdst dstfpn
  rw [swapCpPageAt_eq hs hd hsrc hdst, swapCpPage_eq hs hd, Function.update_eq_self,
    Except.ok.injEq]
  funext d
  by_cases hdev : d = mpdst
  · rw [hdev, Function.update_self]
    refine Memphy.ext ?_ (h.maxsz mpdst) (h.rdmflg mpdst) (h.cursor mpdst) (h.freeFpList mpdst)
    exact h.storage_eq
  · rw [Function.update_of_ne hdev]
    refine Memphy.ext ?_ (h.maxsz d) (h.rdmflg d) (h.cursor d) (h.freeFpList d)
    funext a
    exact h.others d a fun hin => hdev hin.1

end OsSim.Mem
