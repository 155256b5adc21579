import OsSim.Mem.Region
import Mathlib.Tactic.Ring

/-!
# The regions of an area

`get_free_vmrg_area` carves a region out of the free list. Its loop does not
stop at the first fit: it goes on carving until no region of the list fits, and
the last one carved is the result, so that the others are in no list any more.

Results:
* `getFreeVmrgLoop_ends`, `getFreeVmrgLoop_spec`: the loop ends, what is left
  are parts of the old free regions, and the region it returns is one that shares
  no page with them.
* `getFreeVmrgArea_spec`: the same for `get_free_vmrg_area`, which finds a region
  exactly if one fits.
* `getFreeVmrgArea_under`: what holds of the list for every size, and when regions may
  share pages.
-/

namespace OsSim.Mem

/-! ## Pages of a region -/

/-- Page `pgn` holds bytes of the region. -/
def VmRg.HasPage (rg : VmRg) (pgn : ℕ) : Prop :=
  rg.rgStart < rg.rgEnd ∧ rg.rgStart / 256 ≤ pgn ∧ pgn * 256 < rg.rgEnd

/-- The regions share no page. -/
def VmRg.Apart (rg rg' : VmRg) : Prop := ∀ pgn, rg.HasPage pgn → ¬ rg'.HasPage pgn

/-- A region below the break `sbrk` that starts at a page border, unless it is empty. -/
structure VmRg.Below (sbrk : ℕ) (rg : VmRg) : Prop where
  le : rg.rgStart ≤ rg.rgEnd
  aligned : rg.rgStart < rg.rgEnd → 256 ∣ rg.rgStart
  bound : rg.rgEnd ≤ sbrk

/-- A region below the break `sbrk`, wherever it starts. -/
structure VmRg.Under (sbrk : ℕ) (rg : VmRg) : Prop where
  le : rg.rgStart ≤ rg.rgEnd
  bound : rg.rgEnd ≤ sbrk

theorem VmRg.Below.under {sbrk : ℕ} {rg : VmRg} (h : rg.Below sbrk) : rg.Under sbrk :=
  ⟨h.le, h.bound⟩

theorem VmRg.Under.dummy {sbrk : ℕ} {rg : VmRg} (h : rg.Under sbrk) :
    VmRg.Under sbrk ⟨rg.rgEnd, rg.rgEnd⟩ :=
  ⟨le_rfl, h.bound⟩

/-- The dummy region that is left of the last region of the list. -/
theorem VmRg.Below.dummy {sbrk : ℕ} {rg : VmRg} (h : rg.Below sbrk) :
    VmRg.Below sbrk ⟨rg.rgEnd, rg.rgEnd⟩ :=
  ⟨le_rfl, fun hlt => absurd hlt (by simp), h.bound⟩

/-- Page `pgn` holds bytes of a region of the list. -/
def HasPages (rgs : List VmRg) (pgn : ℕ) : Prop := ∃ rg ∈ rgs, rg.HasPage pgn

theorem VmRg.Apart.symm {rg rg' : VmRg} (h : rg.Apart rg') : rg'.Apart rg :=
  fun pgn h1 h2 => h pgn h2 h1

theorem VmRg.Below.mono {sbrk sbrk' : ℕ} {rg : VmRg} (h : rg.Below sbrk) (hle : sbrk ≤ sbrk') :
    rg.Below sbrk' :=
  ⟨h.le, h.aligned, h.bound.trans hle⟩

theorem VmRg.not_hasPage_of_le {rg : VmRg} (h : rg.rgEnd ≤ rg.rgStart) (pgn : ℕ) :
    ¬ rg.HasPage pgn :=
  fun hp => absurd hp.1 (by omega)

/-- The page of a byte of the region. -/
theorem VmRg.hasPage_of_byte {rg : VmRg} {a : ℕ} (h0 : rg.rgStart ≤ a) (h1 : a < rg.rgEnd) :
    rg.HasPage (a / 256) :=
  ⟨by omega, Nat.div_le_div_right h0, by omega⟩

theorem VmRg.Below.page_lt {sbrk pgn : ℕ} {rg : VmRg} (h : rg.Below sbrk) (hp : rg.HasPage pgn) :
    pgn * 256 < sbrk :=
  lt_of_lt_of_le hp.2.2 h.bound

@[simp] theorem hasPages_nil (pgn : ℕ) : ¬ HasPages [] pgn := by simp [HasPages]

@[simp] theorem hasPages_cons (rg : VmRg) (rgs : List VmRg) (pgn : ℕ) :
    HasPages (rg :: rgs) pgn ↔ rg.HasPage pgn ∨ HasPages rgs pgn := by
  simp [HasPages]

/-- Regions that lie below a break and share no pages. -/
structure RegionsApart (sbrk : ℕ) (rgs : List VmRg) : Prop where
  below : ∀ rg ∈ rgs, rg.Below sbrk
  apart : rgs.Pairwise VmRg.Apart

theorem RegionsApart.nil (sbrk : ℕ) : RegionsApart sbrk [] := ⟨by simp, .nil⟩

theorem regionsApart_cons {sbrk : ℕ} {rg : VmRg} {rgs : List VmRg} :
    RegionsApart sbrk (rg :: rgs) ↔
      rg.Below sbrk ∧ (∀ pgn, rg.HasPage pgn → ¬ HasPages rgs pgn) ∧ RegionsApart sbrk rgs := by
  constructor
  · rintro ⟨hb, ha⟩
    rw [List.pairwise_cons] at ha
    refine ⟨hb rg (by simp), ?_, fun rg' h => hb rg' (by simp [h]), ha.2⟩
    rintro pgn h1 ⟨rg', hm, h2⟩
    exact ha.1 rg' hm pgn h1 h2
  · rintro ⟨hb, ha, hr⟩
    refine ⟨fun rg' h => ?_, List.pairwise_cons.mpr ⟨fun rg' hm pgn h1 h2 => ?_, hr.apart⟩⟩
    · rcases List.mem_cons.mp h with rfl | h
      · exact hb
      · exact hr.below rg' h
    · exact ha pgn h1 ⟨rg', hm, h2⟩

/-! ## The pieces of a region -/

/-- The pieces of `size` bytes that a region holds, one after the other. -/
def VmRg.pieces (size : ℕ) (rg : VmRg) : ℕ := (rg.rgEnd - rg.rgStart) / size

/-- What is left of the region when they are taken off starts here. -/
def VmRg.restStart (size : ℕ) (rg : VmRg) : ℕ := rg.rgStart + rg.pieces size * size

/-- The region ends behind its start, and the sums that the loop computes for it do not wrap
around. -/
structure VmRg.Sound (size : ℕ) (rg : VmRg) : Prop where
  le : rg.rgStart ≤ rg.rgEnd
  noWrap : rg.restStart size + size < 2 ^ 64

section

variable {size : ℕ} {rg : VmRg}

theorem pieces_pos_iff (h0 : 0 < size) : 0 < rg.pieces size ↔ size ≤ rg.rgEnd - rg.rgStart :=
  Nat.div_pos_iff.trans (and_iff_right h0)

theorem VmRg.Sound.fits_iff (h : rg.Sound size) (h0 : 0 < size) :
    u64 (rg.rgStart + (size : ℤ)) = rg.rgStart + size ∧
      (rg.rgStart + size ≤ rg.rgEnd ↔ 0 < rg.pieces size) := by
  have hle := h.le
  have hno := h.noWrap
  refine ⟨?_, ?_⟩
  · rw [← Nat.cast_add]
    refine u64_natCast (lt_of_le_of_lt ?_ hno)
    exact Nat.add_le_add_right (Nat.le_add_right ..) _
  · rw [pieces_pos_iff h0]
    omega

/-- A piece is taken off the front of the region. -/
theorem pieces_front (h0 : 0 < size) (hfit : rg.rgStart + size ≤ rg.rgEnd) :
    rg.pieces size = VmRg.pieces size ⟨rg.rgStart + size, rg.rgEnd⟩ + 1 := by
  unfold VmRg.pieces
  rw [show rg.rgEnd - rg.rgStart = rg.rgEnd - (rg.rgStart + size) + size by omega,
    Nat.add_div_right _ h0]

theorem restStart_front (h0 : 0 < size) (hfit : rg.rgStart + size ≤ rg.rgEnd) :
    VmRg.restStart size ⟨rg.rgStart + size, rg.rgEnd⟩ = rg.restStart size := by
  simp only [VmRg.restStart, pieces_front h0 hfit]
  ring

theorem VmRg.Sound.front (h : rg.Sound size) (h0 : 0 < size) (hfit : rg.rgStart + size ≤ rg.rgEnd) :
    VmRg.Sound size ⟨rg.rgStart + size, rg.rgEnd⟩ :=
  ⟨hfit, by rw [restStart_front h0 hfit]; exact h.noWrap⟩

theorem restStart_dummy (a : ℕ) : VmRg.restStart size ⟨a, a⟩ = a := by
  simp [VmRg.restStart, VmRg.pieces]

/-- The piece is all of the region. -/
theorem restStart_of_eq (h0 : 0 < size) (heq : rg.rgStart + size = rg.rgEnd) :
    rg.restStart size = rg.rgEnd := by
  rw [← restStart_front h0 heq.le, heq, restStart_dummy]

theorem VmRg.Sound.dummy (h : rg.Sound size) (h0 : 0 < size) (heq : rg.rgStart + size = rg.rgEnd) :
    VmRg.Sound size ⟨rg.rgEnd, rg.rgEnd⟩ := by
  refine ⟨le_rfl, ?_⟩
  rw [restStart_dummy, ← restStart_of_eq h0 heq]
  exact h.noWrap

theorem restStart_le (h : rg.rgStart ≤ rg.rgEnd) : rg.restStart size ≤ rg.rgEnd := by
  have := Nat.div_mul_le_self (rg.rgEnd - rg.rgStart) size
  unfold VmRg.restStart VmRg.pieces
  omega

/-- The regions below a break, which is an `int`. -/
theorem VmRg.Under.sound {sbrk : ℕ} (h : rg.Under sbrk) (hs : sbrk < 2 ^ 31)
    (hsize : size < 2 ^ 31) : rg.Sound size := by
  have hle : rg.restStart size ≤ rg.rgEnd := restStart_le h.le
  have hb := h.bound
  exact ⟨h.le, by omega⟩

end

/-! ## The search for a free region -/

/-- The region carved from `rg` and what is left of it. -/
theorem VmRg.Below.carve {sbrk size : ℕ} {rg : VmRg} (h : rg.Below sbrk) (h0 : 0 < size)
    (h256 : 256 ∣ size) (hfit : rg.rgStart + size ≤ rg.rgEnd) :
    VmRg.Below sbrk ⟨rg.rgStart, rg.rgStart + size⟩ ∧
      VmRg.Below sbrk ⟨rg.rgStart + size, rg.rgEnd⟩ ∧
      (∀ pgn, VmRg.HasPage ⟨rg.rgStart, rg.rgStart + size⟩ pgn →
        rg.HasPage pgn ∧ ¬ VmRg.HasPage ⟨rg.rgStart + size, rg.rgEnd⟩ pgn) ∧
      ∀ pgn, VmRg.HasPage ⟨rg.rgStart + size, rg.rgEnd⟩ pgn → rg.HasPage pgn := by
  have hal : 256 ∣ rg.rgStart := h.aligned (by omega)
  have hb := h.bound
  refine ⟨⟨?_, ?_, ?_⟩, ⟨?_, ?_, ?_⟩, ?_, ?_⟩
  · simp only
    omega
  · exact fun _ => hal
  · simp only
    omega
  · exact hfit
  · exact fun _ => Nat.dvd_add hal h256
  · exact hb
  · rintro pgn ⟨h1, h2, h3⟩
    simp only at h1 h2 h3
    refine ⟨⟨by omega, h2, by omega⟩, ?_⟩
    rintro ⟨h4, h5, h6⟩
    simp only at h4 h5 h6
    omega
  · rintro pgn ⟨h1, h2, h3⟩
    simp only at h1 h2 h3
    exact ⟨by omega, by omega, h3⟩

/-- Turns that the loop still needs: every carving shortens a region. -/
def turnsLeft (rgs : List VmRg) : ℕ := (rgs.map fun rg => rg.rgEnd - rg.rgStart + 2).sum

/-- What the loop leaves of the list `old`: `rgs` are parts of its regions, and `newrg` is the
value it had before, if no region fits, else a region of `size` bytes that was part of `old` and
is apart from `rgs`. -/
structure Carved (sbrk size : ℕ) (old rgs : List VmRg) (newrg0 newrg : VmRg) : Prop where
  apart : RegionsApart sbrk rgs
  sub : ∀ pgn, HasPages rgs pgn → HasPages old pgn
  found : (newrg = newrg0 ∧ ∀ rg ∈ old, ¬ rg.rgStart + size ≤ rg.rgEnd) ∨
    (∃ rg ∈ old, rg.rgStart + size ≤ rg.rgEnd) ∧ VmRg.Below sbrk newrg ∧
      newrg.rgEnd = newrg.rgStart + size ∧
      ∀ pgn, newrg.HasPage pgn → HasPages old pgn ∧ ¬ HasPages rgs pgn

theorem u64_fit {sbrk size : ℕ} {rg : VmRg} (h : rg.Below sbrk) (hs : sbrk ≤ 2 ^ 22)
    (hsz : size ≤ 2 ^ 22) : u64 (rg.rgStart + (size : ℤ)) = rg.rgStart + size := by
  have hb := h.bound
  have hle := h.le
  rw [← Nat.cast_add, u64_natCast (by omega)]

/-- The loop ends within `turnsLeft` turns. -/
theorem getFreeVmrgLoop_ends {size : ℕ} (h0 : 0 < size) (fuel : ℕ) (rgs : List VmRg) (newrg : VmRg)
    (hr : ∀ rg ∈ rgs, rg.Sound size) (hfuel : turnsLeft rgs < fuel) :
    (getFreeVmrgLoop size fuel rgs newrg).isSome := by
  induction fuel generalizing rgs newrg with
  | zero => omega
  | succ fuel ih =>
    cases rgs with
    | nil => rfl
    | cons rgit rgNext =>
      obtain ⟨hs, hr⟩ := List.forall_mem_cons.mp hr
      have hle := hs.le
      simp only [turnsLeft, List.map_cons, List.sum_cons] at hfuel
      rw [getFreeVmrgLoop, (hs.fits_iff h0).1]
      simp only
      split_ifs with hfit hlt
      · refine ih _ _ (List.forall_mem_cons.mpr ⟨hs.front h0 hfit, hr⟩) ?_
        simp only [turnsLeft, List.map_cons, List.sum_cons]
        omega
      · cases rgNext with
        | nil =>
          have heq : rgit.rgStart + size = rgit.rgEnd := by omega
          refine ih _ _ (List.forall_mem_cons.mpr ⟨hs.dummy h0 heq, hr⟩) ?_
          simp only [turnsLeft, List.map_cons, List.sum_cons, List.map_nil, List.sum_nil] at hfuel ⊢
          omega
        | cons nextrg rest =>
          refine ih _ _ hr ?_
          rw [turnsLeft]
          omega
      · rw [Option.isSome_map]
        refine ih _ _ hr ?_
        rw [turnsLeft]
        omega

/-- The list and the region that the loop returns, whatever the size and whether regions share
pages or not. -/
theorem getFreeVmrgLoop_under {sbrk : ℕ} {size : ℤ} (fuel : ℕ) (old rgs : List VmRg)
    (newrg0 newrg : VmRg) (hr : ∀ rg ∈ old, rg.Under sbrk)
    (h : getFreeVmrgLoop size fuel old newrg0 = some (rgs, newrg)) :
    (∀ rg ∈ rgs, rg.Under sbrk) ∧
      ((rgs = old ∧ newrg = newrg0 ∧ ∀ rg ∈ old, ¬ u64 (rg.rgStart + size) ≤ rg.rgEnd) ∨
        (∃ rg ∈ old, u64 (rg.rgStart + size) ≤ rg.rgEnd) ∧ newrg.rgStart ≤ sbrk ∧
          newrg.rgEnd ≤ sbrk ∧ newrg.rgEnd = u64 (newrg.rgStart + size)) := by
  induction fuel generalizing old rgs newrg0 newrg with
  | zero =>
    cases old with
    | nil =>
      cases h
      exact ⟨hr, .inl ⟨rfl, rfl, by simp⟩⟩
    | cons => cases h
  | succ fuel ih =>
    cases old with
    | nil =>
      cases h
      exact ⟨hr, .inl ⟨rfl, rfl, by simp⟩⟩
    | cons rgit rgNext =>
      obtain ⟨hb, hrn⟩ := List.forall_mem_cons.mp hr
      rw [getFreeVmrgLoop] at h
      simp only at h
      split_ifs at h with hfit hlt
      · -- a part of `rgit` is left
        have hrest : VmRg.Under sbrk ⟨u64 (rgit.rgStart + size), rgit.rgEnd⟩ := ⟨hfit, hb.bound⟩
        obtain ⟨hrgs, hfound⟩ := ih _ _ _ _ (List.forall_mem_cons.mpr ⟨hrest, hrn⟩) h
        refine ⟨hrgs, .inr ⟨⟨rgit, by simp, hfit⟩, ?_⟩⟩
        obtain ⟨-, rfl, -⟩ | ⟨-, hbn⟩ := hfound
        · exact ⟨hb.le.trans hb.bound, hfit.trans hb.bound, rfl⟩
        · exact hbn
      · -- `rgit` is used up
        have hleft : ∃ left, (∀ rg ∈ left, rg.Under sbrk) ∧
            getFreeVmrgLoop size fuel left ⟨rgit.rgStart, u64 (rgit.rgStart + size)⟩ =
              some (rgs, newrg) := by
          cases rgNext with
          | nil => exact ⟨_, List.forall_mem_cons.mpr ⟨hb.dummy, hrn⟩, h⟩
          | cons nextrg rest => exact ⟨_, hrn, h⟩
        obtain ⟨left, hl, h⟩ := hleft
        obtain ⟨hrgs, hfound⟩ := ih _ _ _ _ hl h
        refine ⟨hrgs, .inr ⟨⟨rgit, by simp, hfit⟩, ?_⟩⟩
        obtain ⟨-, rfl, -⟩ | ⟨-, hbn⟩ := hfound
        · exact ⟨hb.le.trans hb.bound, hfit.trans hb.bound, rfl⟩
        · exact hbn
      · -- `rgit` does not fit and stays
        obtain ⟨r, hl, heq⟩ := Option.map_eq_some_iff.mp h
        cases heq
        obtain ⟨hrgs, hfound⟩ := ih _ _ _ _ hrn hl
        refine ⟨List.forall_mem_cons.mpr ⟨hb, hrgs⟩, ?_⟩
        obtain ⟨h1, h2, h3⟩ | ⟨⟨rg, hrg, hfit'⟩, hbn⟩ := hfound
        · exact .inl ⟨by rw [h1], h2, List.forall_mem_cons.mpr ⟨hfit, h3⟩⟩
        · exact .inr ⟨⟨rg, by simp [hrg], hfit'⟩, hbn⟩

/-- What the loop returns. -/
theorem getFreeVmrgLoop_spec {sbrk size : ℕ} (hs : sbrk ≤ 2 ^ 22) (h0 : 0 < size)
    (hsz : size ≤ 2 ^ 22) (h256 : 256 ∣ size) (fuel : ℕ) (old rgs : List VmRg)
    (newrg0 newrg : VmRg) (hr : RegionsApart sbrk old)
    (h : getFreeVmrgLoop size fuel old newrg0 = some (rgs, newrg)) :
    Carved sbrk size old rgs newrg0 newrg := by
  induction fuel generalizing old rgs newrg0 newrg with
  | zero =>
    cases old with
    | nil =>
      cases h
      exact ⟨hr, fun _ hp => hp, .inl ⟨rfl, by simp⟩⟩
    | cons => cases h
  | succ fuel ih =>
    cases old with
    | nil =>
      cases h
      exact ⟨hr, fun _ hp => hp, .inl ⟨rfl, by simp⟩⟩
    | cons rgit rgNext =>
      obtain ⟨hb, ha, hrn⟩ := regionsApart_cons.mp hr
      rw [getFreeVmrgLoop, u64_fit hb hs hsz] at h
      simp only at h
      split_ifs at h with hfit hlt
      · -- a part of `rgit` is left and is tried next
        obtain ⟨hnew, hrest, hpart, hsub⟩ := hb.carve h0 h256 hfit
        have hr' : RegionsApart sbrk (⟨rgit.rgStart + size, rgit.rgEnd⟩ :: rgNext) :=
          regionsApart_cons.mpr ⟨hrest, fun pgn hp => ha pgn (hsub pgn hp), hrn⟩
        have hc := ih _ _ _ _ hr' h
        have hsub' : ∀ pgn, HasPages (⟨rgit.rgStart + size, rgit.rgEnd⟩ :: rgNext) pgn →
            HasPages (rgit :: rgNext) pgn := by
          intro pgn hp
          rw [hasPages_cons] at hp ⊢
          exact hp.imp_left (hsub pgn)
        refine ⟨hc.apart, fun pgn hp => hsub' pgn (hc.sub pgn hp), .inr ?_⟩
        refine ⟨⟨rgit, by simp, hfit⟩, ?_⟩
        obtain ⟨rfl, -⟩ | ⟨-, hbn, hen, hpn⟩ := hc.found
        · refine ⟨hnew, rfl, fun pgn hp => ⟨?_, fun hp' => ?_⟩⟩
          · exact (hasPages_cons ..).mpr (.inl (hpart pgn hp).1)
          · obtain h1 | h1 := (hasPages_cons ..).mp (hc.sub pgn hp')
            · exact (hpart pgn hp).2 h1
            · exact ha pgn (hpart pgn hp).1 h1
        · exact ⟨hbn, hen, fun pgn hp => ⟨hsub' pgn (hpn pgn hp).1, (hpn pgn hp).2⟩⟩
      · -- `rgit` is used up
        obtain ⟨hnew, -, hpart, -⟩ := hb.carve h0 h256 hfit
        have hstep : ∀ left, RegionsApart sbrk left →
            (∀ pgn, HasPages left pgn → HasPages rgNext pgn) →
            getFreeVmrgLoop size fuel left ⟨rgit.rgStart, rgit.rgStart + size⟩ =
              some (rgs, newrg) → Carved sbrk size (rgit :: rgNext) rgs newrg0 newrg := by
          intro left hleft hsub h
          have hc := ih _ _ _ _ hleft h
          refine ⟨hc.apart, fun pgn hp => ?_, .inr ?_⟩
          · exact (hasPages_cons ..).mpr (.inr (hsub pgn (hc.sub pgn hp)))
          refine ⟨⟨rgit, by simp, hfit⟩, ?_⟩
          obtain ⟨rfl, -⟩ | ⟨-, hbn, hen, hpn⟩ := hc.found
          · refine ⟨hnew, rfl, fun pgn hp => ⟨?_, fun hp' => ?_⟩⟩
            · exact (hasPages_cons ..).mpr (.inl (hpart pgn hp).1)
            · exact ha pgn (hpart pgn hp).1 (hsub pgn (hc.sub pgn hp'))
          · refine ⟨hbn, hen, fun pgn hp => ⟨?_, (hpn pgn hp).2⟩⟩
            exact (hasPages_cons ..).mpr (.inr (hsub pgn (hpn pgn hp).1))
        cases rgNext with
        | nil =>
          refine hstep [⟨rgit.rgEnd, rgit.rgEnd⟩] (regionsApart_cons.mpr
            ⟨hb.dummy, by simp, .nil sbrk⟩) ?_ h
          intro pgn hp
          rw [hasPages_cons] at hp
          exact hp.elim (fun hp => absurd hp (VmRg.not_hasPage_of_le le_rfl pgn)) id
        | cons nextrg rest => exact hstep _ hrn (fun _ hp => hp) h
      · -- `rgit` is too small and stays
        obtain ⟨r, hl, heq⟩ := Option.map_eq_some_iff.mp h
        cases heq
        have hc := ih _ _ _ _ hrn hl
        refine ⟨regionsApart_cons.mpr ⟨hb, fun pgn hp hp' => ha pgn hp (hc.sub pgn hp'), hc.apart⟩,
          fun pgn hp => ?_, ?_⟩
        · rw [hasPages_cons] at hp ⊢
          exact hp.imp_right (hc.sub pgn)
        obtain ⟨h1, h2⟩ | ⟨⟨rg, hrg, hfit'⟩, hbn, hen, hpn⟩ := hc.found
        · refine .inl ⟨h1, fun rg hrg => ?_⟩
          rcases List.mem_cons.mp hrg with rfl | hrg
          · exact hfit
          · exact h2 rg hrg
        · refine .inr ⟨⟨rg, by simp [hrg], hfit'⟩, hbn, hen, fun pgn hp => ⟨?_, fun hp' => ?_⟩⟩
          · exact (hasPages_cons ..).mpr (.inr (hpn pgn hp).1)
          · obtain hp' | hp' := (hasPages_cons ..).mp hp'
            · exact ha pgn hp' (hpn pgn hp).1
            · exact (hpn pgn hp).2 hp'

theorem turnsLeft_lt_fuel (rgs : List VmRg) : turnsLeft rgs < getFreeVmrgFuel rgs := by
  unfold turnsLeft getFreeVmrgFuel
  induction rgs with
  | nil => simp
  | cons rg rgs ih =>
    simp only [List.map_cons, List.sum_cons] at ih ⊢
    omega

/-- What `get_free_vmrg_area` returns: a region exactly if one fits. -/
theorem getFreeVmrgArea_spec {sbrk size : ℕ} (hs : sbrk ≤ 2 ^ 22) (h0 : 0 < size)
    (hsz : size ≤ 2 ^ 22) (h256 : 256 ∣ size) {freerg : List VmRg}
    (hr : RegionsApart sbrk freerg) :
    ∃ newrg rgs, getFreeVmrgArea freerg size = some (newrg, rgs) ∧ RegionsApart sbrk rgs ∧
      (∀ pgn, HasPages rgs pgn → HasPages freerg pgn) ∧
      (newrg.isSome ↔ ∃ rg ∈ freerg, rg.rgStart + size ≤ rg.rgEnd) ∧
      ∀ rg, newrg = some rg → rg.Below sbrk ∧ rg.rgEnd = rg.rgStart + size ∧
        ∀ pgn, rg.HasPage pgn → HasPages freerg pgn ∧ ¬ HasPages rgs pgn := by
  unfold getFreeVmrgArea
  cases freerg with
  | nil => exact ⟨none, [], rfl, hr, fun _ hp => hp, by simp, by simp⟩
  | cons rgit rgNext =>
    obtain ⟨⟨rgs, newrg⟩, hl⟩ := Option.isSome_iff_exists.mp
      (getFreeVmrgLoop_ends h0 _ _ ⟨ulongMax, ulongMax⟩
        (fun rg h => (hr.below rg h).under.sound (by omega) (by omega)) (turnsLeft_lt_fuel _))
    have hc := getFreeVmrgLoop_spec hs h0 hsz h256 _ _ _ _ _ hr hl
    simp only [hl]
    obtain ⟨rfl, hno⟩ | ⟨hfit, hb, hen, hp⟩ := hc.found
    · rw [if_pos rfl]
      refine ⟨none, rgs, rfl, hc.apart, hc.sub, ?_, by simp⟩
      simpa using hno
    · have hne : newrg.rgStart ≠ ulongMax := by
        have := hb.le
        have := hb.bound
        unfold ulongMax
        omega
      rw [if_neg hne]
      refine ⟨some newrg, rgs, rfl, hc.apart, hc.sub, ?_, ?_⟩
      · simpa using hfit
      · rintro rg ⟨⟩
        exact ⟨hb, hen, hp⟩

/-- What `get_free_vmrg_area` returns, whatever the size and whether regions share pages or not. The
list stays as it is when no region fits. -/
theorem getFreeVmrgArea_under {sbrk : ℕ} (hs : sbrk < 2 ^ 31) {size : ℤ} {freerg : List VmRg}
    {res : Option VmRg × List VmRg} (hr : ∀ rg ∈ freerg, rg.Under sbrk)
    (h : getFreeVmrgArea freerg size = some res) :
    (res = (none, freerg) ∧ ∀ rg ∈ freerg, ¬ u64 (rg.rgStart + size) ≤ rg.rgEnd) ∨
      ∃ newrg rgs, res = (some newrg, rgs) ∧
        (∃ rg ∈ freerg, u64 (rg.rgStart + size) ≤ rg.rgEnd) ∧ (∀ rg ∈ rgs, rg.Under sbrk) ∧
          newrg.rgStart ≤ sbrk ∧ newrg.rgEnd ≤ sbrk ∧
          newrg.rgEnd = u64 (newrg.rgStart + size) := by
  unfold getFreeVmrgArea at h
  cases freerg with
  | nil =>
    cases h
    exact .inl ⟨rfl, by simp⟩
  | cons rgit rgNext =>
    cases hl : getFreeVmrgLoop size (getFreeVmrgFuel (rgit :: rgNext)) (rgit :: rgNext)
        ⟨ulongMax, ulongMax⟩ with
    | none => simp [hl] at h
    | some r =>
      obtain ⟨rgs, newrg⟩ := r
      simp only [hl] at h
      obtain ⟨hrgs, ⟨rfl, rfl, hno⟩ | ⟨hfit, hstart, hbn⟩⟩ :=
        getFreeVmrgLoop_under _ _ _ _ _ hr hl
      · rw [if_pos rfl] at h
        cases h
        exact .inl ⟨rfl, hno⟩
      · have hne : newrg.rgStart ≠ ulongMax := by
          unfold ulongMax
          omega
        rw [if_neg hne] at h
        cases h
        exact .inr ⟨newrg, rgs, rfl, hfit, hrgs, hstart, hbn⟩

end OsSim.Mem
