import OsSim.Mem.Area
import Mathlib.Algebra.Order.BigOperators.Group.List
import Mathlib.Order.CompletePartialOrder
import Mathlib.Order.Interval.Set.Basic

/-!
# What the search takes off the free list

After a fit the loop of `get_free_vmrg_area` does not leave the node, and the rest
of its region is tried next. So the loop takes every piece of `size` bytes off every
region, and the last one is the result. The addresses of the other pieces are in no
list any more.

Results:
* `mem_covered_loop`, `getFreeVmrgLoop_found`: what is left of the list, and which
  piece is returned.
* `carvesExactly_iff`: the search takes the region that it returns off the list, and
  nothing else, exactly if the list holds at most one piece of the size asked for.
* `covered_putBack_iff`: so does putting that region back restore the list.
-/

namespace OsSim.Mem

/-! ## What is asked for -/

/-- The addresses of a region. -/
def VmRg.addrs (rg : VmRg) : Set ℕ := Set.Ico rg.rgStart rg.rgEnd

/-- The addresses that a list of regions covers. -/
def covered (rgs : List VmRg) : Set ℕ := {a | ∃ rg ∈ rgs, a ∈ rg.addrs}

/-- `get_free_vmrg_area` returns, it finds a region exactly if one is large enough, and the list
covers afterwards what it covered before, less the region found. -/
def CarvesExactly (freerg : List VmRg) (size : ℕ) : Prop :=
  ∃ newrg rgs, getFreeVmrgArea freerg size = some (newrg, rgs) ∧
    (newrg.isSome ↔ ∃ rg ∈ freerg, size ≤ rg.rgEnd - rg.rgStart) ∧
    (newrg = none → rgs = freerg) ∧
    ∀ rg, newrg = some rg → rg.rgEnd = rg.rgStart + size ∧
      (∃ old ∈ freerg, old.rgStart ≤ rg.rgStart ∧ rg.rgEnd ≤ old.rgEnd) ∧
      covered rgs = covered freerg \ rg.addrs

/-- The last piece of a region. -/
def VmRg.lastPiece (size : ℕ) (rg : VmRg) : VmRg := ⟨rg.restStart size - size, rg.restStart size⟩

/-- The last piece of the last region that holds one; `newrg` if no region does. -/
def lastFound (size : ℕ) (newrg : VmRg) (rgs : List VmRg) : VmRg :=
  rgs.foldl (fun newrg rg => if 0 < rg.pieces size then rg.lastPiece size else newrg) newrg

/-! ## The loop -/

section

variable {size : ℕ} (h0 : 0 < size)

include h0

/-- What is left of the list: of each region the bytes behind its pieces. -/
theorem mem_covered_loop (fuel : ℕ) (old rgs : List VmRg) (newrg0 newrg : VmRg)
    (hr : ∀ rg ∈ old, rg.Sound size)
    (h : getFreeVmrgLoop size fuel old newrg0 = some (rgs, newrg)) (a : ℕ) :
    a ∈ covered rgs ↔ ∃ rg ∈ old, rg.restStart size ≤ a ∧ a < rg.rgEnd := by
  induction fuel generalizing old rgs newrg0 newrg with
  | zero =>
    cases old with
    | nil =>
      cases h
      simp [covered]
    | cons => cases h
  | succ fuel ih =>
    cases old with
    | nil =>
      cases h
      simp [covered]
    | cons rgit rgNext =>
      obtain ⟨hs, hrn⟩ := List.forall_mem_cons.mp hr
      obtain ⟨hsum, hpos⟩ := hs.fits_iff h0
      rw [getFreeVmrgLoop, hsum] at h
      simp only at h
      rw [List.exists_mem_cons_iff]
      split_ifs at h with hfit hlt
      · rw [ih _ _ _ _ (List.forall_mem_cons.mpr ⟨hs.front h0 hfit, hrn⟩) h,
          List.exists_mem_cons_iff, restStart_front h0 hfit]
      · -- nothing is left of `rgit`
        have heq : rgit.rgStart + size = rgit.rgEnd := by omega
        rw [restStart_of_eq h0 heq]
        cases rgNext with
        | nil =>
          rw [ih _ _ _ _ (List.forall_mem_cons.mpr ⟨hs.dummy h0 heq, hrn⟩) h,
            List.exists_mem_cons_iff, restStart_dummy]
        | cons nextrg rest =>
          rw [ih _ _ _ _ hrn h]
          exact (or_iff_right fun hmem => absurd hmem.1 (not_le.mpr hmem.2)).symm
      · -- `rgit` holds no piece and stays
        obtain ⟨r, hl, heq⟩ := Option.map_eq_some_iff.mp h
        cases heq
        have hzero : rgit.pieces size = 0 := by
          rw [hpos] at hfit
          omega
        rw [← ih _ _ _ _ hrn hl, VmRg.restStart, hzero, Nat.zero_mul, Nat.add_zero]
        exact List.exists_mem_cons_iff ..

/-- The region that the loop returns, and the list if no region holds a piece. -/
theorem getFreeVmrgLoop_found (fuel : ℕ) (old rgs : List VmRg) (newrg0 newrg : VmRg)
    (hr : ∀ rg ∈ old, rg.Sound size)
    (h : getFreeVmrgLoop size fuel old newrg0 = some (rgs, newrg)) :
    newrg = lastFound size newrg0 old ∧ ((∀ rg ∈ old, rg.pieces size = 0) → rgs = old) := by
  induction fuel generalizing old rgs newrg0 newrg with
  | zero =>
    cases old with
    | nil =>
      cases h
      exact ⟨rfl, fun _ => rfl⟩
    | cons => cases h
  | succ fuel ih =>
    cases old with
    | nil =>
      cases h
      exact ⟨rfl, fun _ => rfl⟩
    | cons rgit rgNext =>
      obtain ⟨hs, hrn⟩ := List.forall_mem_cons.mp hr
      obtain ⟨hsum, hpos⟩ := hs.fits_iff h0
      rw [getFreeVmrgLoop, hsum] at h
      simp only at h
      rw [lastFound, List.foldl_cons]
      split_ifs at h with hfit hlt
      · -- the piece just taken off is the last one, unless the rest holds another
        have hlast : (if 0 < VmRg.pieces size ⟨rgit.rgStart + size, rgit.rgEnd⟩ then
            VmRg.lastPiece size ⟨rgit.rgStart + size, rgit.rgEnd⟩
            else ⟨rgit.rgStart, rgit.rgStart + size⟩) = rgit.lastPiece size := by
          rw [VmRg.lastPiece, VmRg.lastPiece, restStart_front h0 hfit]
          split_ifs with hp
          · rfl
          · rw [VmRg.restStart, pieces_front h0 hfit, Nat.eq_zero_of_not_pos hp, Nat.zero_add,
              Nat.one_mul, Nat.add_sub_cancel]
        rw [if_pos (hpos.mp hfit), ← hlast]
        exact ⟨(ih _ _ _ _ (List.forall_mem_cons.mpr ⟨hs.front h0 hfit, hrn⟩) h).1,
          fun hno => absurd (hno rgit (by simp)) (hpos.mp hfit).ne'⟩
      · have heq : rgit.rgStart + size = rgit.rgEnd := by omega
        have hlast : rgit.lastPiece size = ⟨rgit.rgStart, rgit.rgStart + size⟩ := by
          rw [VmRg.lastPiece, restStart_of_eq h0 heq, ← heq, Nat.add_sub_cancel]
        rw [if_pos (hpos.mp hfit), hlast]
        refine ⟨?_, fun hno => absurd (hno rgit (by simp)) (hpos.mp hfit).ne'⟩
        cases rgNext with
        | nil =>
          obtain ⟨hnew, -⟩ := ih _ _ _ _ (List.forall_mem_cons.mpr ⟨hs.dummy h0 heq, hrn⟩) h
          simpa [lastFound, VmRg.pieces, h0.ne'] using hnew
        | cons nextrg rest => exact (ih _ _ _ _ hrn h).1
      · obtain ⟨r, hl, heq⟩ := Option.map_eq_some_iff.mp h
        cases heq
        obtain ⟨hnew, hrgs⟩ := ih _ _ _ _ hrn hl
        rw [if_neg (mt hpos.mpr hfit)]
        exact ⟨hnew, fun hno => by rw [hrgs fun rg hrg => hno rg (by simp [hrg])]⟩

omit h0 in
/-- It is the last piece of a region that holds one. -/
theorem lastFound_cases (newrg : VmRg) (rgs : List VmRg) :
    (lastFound size newrg rgs = newrg ∧ ∀ rg ∈ rgs, rg.pieces size = 0) ∨
      ∃ rg ∈ rgs, 0 < rg.pieces size ∧ ∀ newrg, lastFound size newrg rgs = rg.lastPiece size := by
  induction rgs generalizing newrg with
  | nil => exact .inl ⟨rfl, by simp⟩
  | cons rg rgs ih =>
    obtain ⟨-, hno⟩ | ⟨rg', hrg', hp, heq⟩ := ih newrg
    · have hstay : ∀ newrg, lastFound size newrg rgs = newrg := fun newrg =>
        (ih newrg).elim And.left fun ⟨rg', hrg', hp, _⟩ => absurd (hno rg' hrg') hp.ne'
      by_cases hp : 0 < rg.pieces size
      · refine .inr ⟨rg, by simp, hp, fun newrg => ?_⟩
        rw [lastFound, List.foldl_cons, if_pos hp]
        exact hstay _
      · refine .inl ⟨?_, List.forall_mem_cons.mpr ⟨Nat.eq_zero_of_not_pos hp, hno⟩⟩
        rw [lastFound, List.foldl_cons, if_neg hp]
        exact hstay _
    · exact .inr ⟨rg', by simp [hrg'], hp, fun newrg => heq _⟩

end

/-! ## Lists that hold one piece -/

section

variable {α : Type*} {f : α → ℕ}

/-- Two pieces lie in one region, or in two regions that are related. -/
theorem exists_two_of_sum {R : α → α → Prop} {l : List α} (hl : l.Pairwise R)
    (hsum : 2 ≤ (l.map f).sum) :
    (∃ x ∈ l, 2 ≤ f x) ∨ ∃ x ∈ l, ∃ y ∈ l, R x y ∧ 0 < f x ∧ 0 < f y := by
  induction l with
  | nil => simp at hsum
  | cons x l ih =>
    obtain ⟨hx, hl⟩ := List.pairwise_cons.mp hl
    rw [List.map_cons, List.sum_cons] at hsum
    by_cases h2 : 2 ≤ f x
    · exact .inl ⟨x, by simp, h2⟩
    by_cases h1 : 0 < f x
    · have hpos : 0 < (l.map f).sum := by omega
      obtain ⟨m, hm, hm0⟩ : ∃ m ∈ l.map f, m ≠ 0 := by
        by_contra hno
        exact hpos.ne' (List.sum_eq_zero fun m hm => by_contra fun hm0 => hno ⟨m, hm, hm0⟩)
      obtain ⟨y, hy, rfl⟩ := List.mem_map.mp hm
      exact .inr ⟨x, by simp, y, by simp [hy], hx y hy, h1, Nat.pos_of_ne_zero hm0⟩
    · obtain ⟨y, hy, h⟩ | ⟨y, hy, z, hz, h⟩ := ih hl (by omega)
      · exact .inl ⟨y, by simp [hy], h⟩
      · exact .inr ⟨y, by simp [hy], z, by simp [hz], h⟩

/-- There is one piece, and no other region holds one. -/
theorem one_of_sum {l : List α} (hsum : (l.map f).sum ≤ 1) {x : α} (hx : x ∈ l) (hpos : 0 < f x) :
    f x = 1 ∧ ∀ y ∈ l, y ≠ x → f y = 0 := by
  obtain ⟨l1, l2, rfl⟩ := List.append_of_mem hx
  simp only [List.map_append, List.map_cons, List.sum_append, List.sum_cons] at hsum
  refine ⟨by omega, fun y hy hne => ?_⟩
  have hmem : y ∈ l1 ∨ y ∈ l2 := by
    rcases List.mem_append.mp hy with hy | hy
    · exact .inl hy
    · exact .inr ((List.mem_cons.mp hy).resolve_left hne)
  rcases hmem with hy | hy
  · have := List.le_sum_of_mem (List.mem_map_of_mem (f := f) hy)
    omega
  · have := List.le_sum_of_mem (List.mem_map_of_mem (f := f) hy)
    omega

end

/-! ## `get_free_vmrg_area` -/

section

variable {size : ℕ} (h0 : 0 < size) {freerg : List VmRg}

include h0

/-- What `get_free_vmrg_area` returns, and what is left of the list. -/
theorem getFreeVmrgArea_pieces (hr : ∀ rg ∈ freerg, rg.Sound size) :
    ∃ rgs, (∀ a, a ∈ covered rgs ↔ ∃ rg ∈ freerg, rg.restStart size ≤ a ∧ a < rg.rgEnd) ∧
      ((getFreeVmrgArea freerg size = some (none, rgs) ∧ rgs = freerg ∧
          ∀ rg ∈ freerg, rg.pieces size = 0) ∨
        ∃ rg ∈ freerg, 0 < rg.pieces size ∧
          getFreeVmrgArea freerg size = some (some (rg.lastPiece size), rgs)) := by
  unfold getFreeVmrgArea
  cases freerg with
  | nil => exact ⟨[], by simp [covered], .inl ⟨rfl, rfl, by simp⟩⟩
  | cons rgit rgNext =>
    obtain ⟨⟨rgs, newrg⟩, hl⟩ := Option.isSome_iff_exists.mp
      (getFreeVmrgLoop_ends h0 _ _ ⟨ulongMax, ulongMax⟩ hr (turnsLeft_lt_fuel _))
    refine ⟨rgs, mem_covered_loop h0 _ _ _ _ _ hr hl, ?_⟩
    simp only [hl]
    obtain ⟨rfl, hrgs⟩ := getFreeVmrgLoop_found h0 _ _ _ _ _ hr hl
    obtain ⟨hnew, hno⟩ | ⟨rg, hrg, hp, hnew⟩ := lastFound_cases ⟨ulongMax, ulongMax⟩
      (rgit :: rgNext) <;> rw [hnew]
    · exact .inl ⟨by rw [if_pos rfl], hrgs hno, hno⟩
    · refine .inr ⟨rg, hrg, hp, ?_⟩
      have hno := (hr rg hrg).noWrap
      rw [if_neg]
      simp only [VmRg.lastPiece, ulongMax]
      omega

/-- The region that `get_free_vmrg_area` returns. -/
theorem getFreeVmrgArea_found (hr : ∀ rg ∈ freerg, rg.Sound size) {newrg : VmRg}
    {rgs : List VmRg} (h : getFreeVmrgArea freerg size = some (some newrg, rgs)) (rg0 : VmRg) :
    newrg = lastFound size rg0 freerg := by
  unfold getFreeVmrgArea at h
  cases freerg with
  | nil => cases h
  | cons rgit rgNext =>
    obtain ⟨⟨rgs', newrg'⟩, hl⟩ := Option.isSome_iff_exists.mp
      (getFreeVmrgLoop_ends h0 _ _ ⟨ulongMax, ulongMax⟩ hr (turnsLeft_lt_fuel _))
    obtain ⟨rfl, -⟩ := getFreeVmrgLoop_found h0 _ _ _ _ _ hr hl
    simp only [hl] at h
    split_ifs at h with hmax
    · cases h
    · cases h
      obtain ⟨hstay, -⟩ | ⟨rg, -, -, hfound⟩ :=
        @lastFound_cases size ⟨ulongMax, ulongMax⟩ (rgit :: rgNext)
      · rw [hstay] at hmax
        exact absurd rfl hmax
      · rw [hfound, hfound]

end

section

variable {size : ℕ} {freerg : List VmRg}
  (hd : freerg.Pairwise fun rg rg' => Disjoint rg.addrs rg'.addrs)

include hd

/-- Regions that both hold an address are the same. -/
theorem eq_of_addrs {rg rg' : VmRg} (hrg : rg ∈ freerg) (hrg' : rg' ∈ freerg) {a : ℕ}
    (ha : a ∈ rg.addrs) (ha' : a ∈ rg'.addrs) : rg = rg' := by
  by_contra hne
  have : Std.Symm fun rg rg' : VmRg => Disjoint rg.addrs rg'.addrs := ⟨fun _ _ h => h.symm⟩
  exact Set.disjoint_left.mp (hd.forall hrg hrg' hne) ha ha'

/-- The pieces of a region are not covered any more, so they are part of the region found. -/
theorem CarvesExactly.lost (h0 : 0 < size) (hr : ∀ rg ∈ freerg, rg.Sound size)
    (h : CarvesExactly freerg size) {rg : VmRg} (hrg : rg ∈ freerg) (hp : 0 < rg.pieces size) :
    ∃ newrg : VmRg, (∀ rg ∈ freerg, Set.Ico rg.rgStart (rg.restStart size) ⊆ newrg.addrs) ∧
      newrg.rgEnd = newrg.rgStart + size := by
  obtain ⟨rgs, hcov, hres⟩ := getFreeVmrgArea_pieces h0 hr
  obtain ⟨found, rgs', heq, hsome, -, hfound⟩ := h
  have hfit : ∃ rg ∈ freerg, size ≤ rg.rgEnd - rg.rgStart :=
    ⟨rg, hrg, (pieces_pos_iff h0).mp hp⟩
  obtain ⟨newrg, rfl⟩ := Option.isSome_iff_exists.mp (hsome.mpr hfit)
  obtain ⟨hlen, -, hset⟩ := hfound newrg rfl
  have hrgs : rgs' = rgs := by
    obtain ⟨hget, -, -⟩ | ⟨_, -, -, hget⟩ := hres <;> rw [heq] at hget <;> cases hget
    rfl
  refine ⟨newrg, fun rg' hrg' a ha => ?_, hlen⟩
  have hle : rg'.restStart size ≤ rg'.rgEnd := restStart_le (hr rg' hrg').le
  have hmem : a ∈ rg'.addrs := ⟨ha.1, lt_of_lt_of_le ha.2 hle⟩
  by_contra hno
  have hafter : a ∈ covered rgs' := by
    rw [hset]
    exact ⟨⟨rg', hrg', hmem⟩, hno⟩
  rw [hrgs, hcov] at hafter
  obtain ⟨rg2, hrg2, h1, h2⟩ := hafter
  have hmem2 : a ∈ rg2.addrs := ⟨le_trans (Nat.le_add_right ..) h1, h2⟩
  rw [eq_of_addrs hd hrg2 hrg' hmem2 hmem] at h1
  exact absurd ha.2 (not_lt.mpr h1)

/-- The search takes off the list the region that it returns, and nothing else, exactly if the list
holds at most one piece of the size asked for. -/
theorem carvesExactly_iff (h0 : 0 < size) (hr : ∀ rg ∈ freerg, rg.Sound size) :
    CarvesExactly freerg size ↔ (freerg.map (VmRg.pieces size)).sum ≤ 1 := by
  constructor
  · intro h
    by_contra hsum
    obtain ⟨rg, hrg, h2⟩ | ⟨rg, hrg, rg', hrg', hdis, hp, hp'⟩ :=
      exists_two_of_sum hd (f := VmRg.pieces size) (by omega)
    · -- two pieces of one region are longer than the region found
      obtain ⟨newrg, hsub, hlen⟩ := h.lost hd h0 hr hrg (by omega)
      have hmul : 2 * size ≤ rg.pieces size * size := Nat.mul_le_mul_right size h2
      have hfirst := hsub rg hrg (Set.left_mem_Ico.mpr (by unfold VmRg.restStart; omega))
      have hlast : rg.rgStart + 2 * size - 1 ∈ newrg.addrs :=
        hsub rg hrg ⟨by omega, by unfold VmRg.restStart; omega⟩
      have h3 := hfirst.1
      have h4 := hlast.2
      omega
    · -- both regions would start where the region found starts
      obtain ⟨newrg, hsub, hlen⟩ := h.lost hd h0 hr hrg hp
      have hstart : ∀ rg ∈ freerg, 0 < rg.pieces size →
          newrg.rgStart = rg.rgStart ∧ rg.rgStart ∈ rg.addrs := by
        intro rg hrg hp
        have hmul : size ≤ rg.pieces size * size := Nat.le_mul_of_pos_left size hp
        have hle : rg.restStart size ≤ rg.rgEnd := restStart_le (hr rg hrg).le
        have hrest : rg.rgStart + size ≤ rg.restStart size := Nat.add_le_add_left hmul _
        have hfirst := (hsub rg hrg (Set.left_mem_Ico.mpr (by omega))).1
        have hlast : rg.rgStart + size - 1 < newrg.rgEnd :=
          (hsub rg hrg ⟨by omega, by omega⟩ : rg.rgStart + size - 1 ∈ newrg.addrs).2
        exact ⟨by omega, Set.left_mem_Ico.mpr (by omega)⟩
      obtain ⟨h1, hmem⟩ := hstart rg hrg hp
      obtain ⟨h2, hmem'⟩ := hstart rg' hrg' hp'
      rw [← h1, h2] at hmem
      exact Set.disjoint_left.mp hdis hmem hmem'
  · intro hsum
    obtain ⟨rgs, hcov, ⟨hget, rfl, hno⟩ | ⟨rg, hrg, hp, hget⟩⟩ := getFreeVmrgArea_pieces h0 hr
    · refine ⟨none, _, hget, ?_, fun _ => rfl, fun rg h => by cases h⟩
      refine iff_of_false (by simp) ?_
      rintro ⟨rg, hrg, hfit⟩
      exact absurd (hno rg hrg) ((pieces_pos_iff h0).mpr hfit).ne'
    · obtain ⟨hone, hothers⟩ := one_of_sum hsum hrg hp
      have hrest : rg.restStart size = rg.rgStart + size := by
        rw [VmRg.restStart, hone, Nat.one_mul]
      have hpiece : rg.lastPiece size = ⟨rg.rgStart, rg.rgStart + size⟩ := by
        rw [VmRg.lastPiece, hrest, Nat.add_sub_cancel]
      have hfit := (pieces_pos_iff h0).mp hp
      have hle := (hr rg hrg).le
      refine ⟨_, rgs, hget, iff_of_true rfl ⟨rg, hrg, hfit⟩, (by simp), ?_⟩
      rintro _ ⟨⟩
      rw [hpiece]
      refine ⟨rfl, ⟨rg, hrg, le_rfl, by simp only; omega⟩, ?_⟩
      ext a
      rw [hcov]
      constructor
      · rintro ⟨rg', hrg', h1, h2⟩
        have hmem : a ∈ rg'.addrs := ⟨le_trans (Nat.le_add_right ..) h1, h2⟩
        refine ⟨⟨rg', hrg', hmem⟩, fun hnew => ?_⟩
        have hnew' : a ∈ rg.addrs := ⟨hnew.1, lt_of_lt_of_le hnew.2 (by simp only; omega)⟩
        rw [eq_of_addrs hd hrg' hrg hmem hnew', hrest] at h1
        exact absurd hnew.2 (not_lt.mpr h1)
      · rintro ⟨⟨rg', hrg', h1, h2⟩, hno⟩
        refine ⟨rg', hrg', ?_, h2⟩
        by_cases e : rg' = rg
        · rw [e] at h1 ⊢
          rw [hrest]
          exact not_lt.mp fun hlt => hno ⟨h1, hlt⟩
        · rw [VmRg.restStart, hothers rg' hrg' e, Nat.zero_mul]
          exact h1

/-- Putting the region found back on the list restores the addresses covered exactly if the list held
one piece. -/
theorem covered_putBack_iff (h0 : 0 < size) (hr : ∀ rg ∈ freerg, rg.Sound size) {newrg : VmRg}
    {rgs : List VmRg} (hget : getFreeVmrgArea freerg size = some (some newrg, rgs)) :
    covered (enlistVmFreergList rgs newrg) = covered freerg ↔
      (freerg.map (VmRg.pieces size)).sum ≤ 1 := by
  rw [← carvesExactly_iff hd h0 hr]
  obtain ⟨rgs', hcov, ⟨hget', -⟩ | ⟨rg, hrg, hp, hget'⟩⟩ := getFreeVmrgArea_pieces h0 hr
  · rw [hget] at hget'
    cases hget'
  rw [hget] at hget'
  cases hget'
  have hle : rg.restStart size ≤ rg.rgEnd := restStart_le (hr rg hrg).le
  have hmul : size ≤ rg.pieces size * size := Nat.le_mul_of_pos_left size hp
  have hrest : rg.rgStart + size ≤ rg.restStart size := Nat.add_le_add_left hmul _
  have hadd : covered (enlistVmFreergList rgs (rg.lastPiece size)) =
      (rg.lastPiece size).addrs ∪ covered rgs := by
    have hlen : (rg.lastPiece size).rgStart < (rg.lastPiece size).rgEnd := by
      simp only [VmRg.lastPiece]
      omega
    ext a
    simp [enlistVmFreergList, not_le.mpr hlen, covered]
  have hsub : (rg.lastPiece size).addrs ⊆ rg.addrs := by
    rintro a ⟨h1, h2⟩
    simp only [VmRg.lastPiece] at h1 h2
    exact ⟨by omega, by omega⟩
  have hdis : Disjoint (rg.lastPiece size).addrs (covered rgs) := by
    refine Set.disjoint_left.mpr fun a ha hmem => ?_
    obtain ⟨rg', hrg', h1, h2⟩ := (hcov a).mp hmem
    have hmem' : a ∈ rg'.addrs := ⟨le_trans (Nat.le_add_right ..) h1, h2⟩
    rw [eq_of_addrs hd hrg' hrg hmem' (hsub ha)] at h1
    exact absurd ha.2 (not_lt.mpr h1)
  rw [hadd]
  constructor
  · intro heq
    refine ⟨_, rgs, hget, iff_of_true rfl ⟨rg, hrg, (pieces_pos_iff h0).mp hp⟩, (by simp), ?_⟩
    rintro _ ⟨⟩
    refine ⟨?_, ⟨rg, hrg, ?_, hle⟩, ?_⟩
    · simp only [VmRg.lastPiece]
      omega
    · simp only [VmRg.lastPiece]
      omega
    · rw [← heq, Set.union_sdiff_cancel_left hdis.le_bot]
  · rintro ⟨newrg, rgs', hget', -, -, hfound⟩
    rw [hget] at hget'
    cases hget'
    obtain ⟨-, -, hset⟩ := hfound _ rfl
    rw [hset]
    exact Set.union_sdiff_cancel fun a ha => ⟨rg, hrg, hsub ha⟩

end

/-- A list that holds one piece of 256 bytes. -/
theorem carvesExactly_one : CarvesExactly [⟨0, 300⟩, ⟨512, 700⟩] 256 := by
  have hdis : Disjoint (VmRg.addrs ⟨0, 300⟩) (VmRg.addrs ⟨512, 700⟩) :=
    Set.disjoint_left.mpr fun a h1 h2 => absurd (lt_of_le_of_lt h2.1 h1.2) (by norm_num)
  have hunder : ∀ rg ∈ [(⟨0, 300⟩ : VmRg), ⟨512, 700⟩], rg.Under 700 :=
    List.forall_mem_cons.mpr ⟨⟨by norm_num, by norm_num⟩,
      List.forall_mem_singleton.mpr ⟨by norm_num, le_rfl⟩⟩
  refine (carvesExactly_iff (List.pairwise_pair.mpr hdis) (by norm_num) fun rg hrg => ?_).mpr
    (by decide)
  exact (hunder rg hrg).sound (by norm_num) (by norm_num)

/-- A region of 600 bytes holds two pieces of 256 bytes: both are taken off the list, and the second
is the result. -/
theorem not_carvesExactly_two : ¬ CarvesExactly [⟨0, 600⟩] 256 := by
  have hget : getFreeVmrgArea [⟨0, 600⟩] (256 : ℕ) = some (some ⟨256, 512⟩, [⟨512, 600⟩]) := by
    decide +kernel
  rintro ⟨newrg, rgs, heq, -, -, hfound⟩
  rw [hget] at heq
  cases heq
  obtain ⟨-, -, hset⟩ := hfound _ rfl
  have hmem : 0 ∈ covered [⟨0, 600⟩] \ VmRg.addrs ⟨256, 512⟩ := by
    simp [covered, VmRg.addrs]
  rw [← hset] at hmem
  simp [covered, VmRg.addrs] at hmem

end OsSim.Mem
